import Xv6.Kernel.Proc.Wakeup

/-! Who gets killed.

    `kill` looks for a pid in every slot, whatever its state. A slot without a process has pid 0 and is
    not marked as killed, except in two cases: `kill(0)` finds an empty slot and marks it, and
    `allocproc` gives a slot its pid before it may fail to allocate a trapframe. The next process in the
    slot starts out killed. -/

namespace Xv6.Procs
open State Function

variable {nc : Nat} {s t : State nc} {c : Fin nc} {q i : Slot} {ok : Bool}

/-! ### Empty slots -/

/-- The pid that `kill` is looking for. -/
def Point.target : Point → Option Int32
  | .killScan x _ => some x
  | _ => none

def Pc.target : Pc → Option Int32
  | .at p | .pause _ p | .sched (.resume _ p) | .back (.resume _ p) => p.target
  | .killTest x _ => some x
  | _ => none

structure Clean (s : State nc) : Prop where
  empty : ∀ i, (s.proc i).state = .unused →
    (s.proc i).killed = false ∧ ((s.proc i).pid = 0 ∨ s.making i)
  target : ∀ q x, (s.pc q).target = some x → x ≠ 0

/-- `kill` is not called with 0, and there is memory for the trapframe when `allocproc` has found a
    slot. -/
def Careful (s : State nc) : Act nc → Prop
  | .call _ (.kill x) => x ≠ 0
  | .run c ok => ∀ q i, (s.cpu c).ctx = .thread q → s.pc q = .allocproc i →
      (s.proc i).state = .unused → ok = true
  | _ => True

theorem Acquires.target {k k' : Pc} (h : Acquires q k i k') : k'.target = k.target := by cases h <;> rfl

/-- The slot is as empty as it was. -/
def Unfilled (p p' : Proc) : Prop :=
  p'.state = .unused → p.state = .unused ∧ p'.killed = p.killed ∧ p'.pid = p.pid

theorem Unfilled.refl (p : Proc) : Unfilled p p := fun h => ⟨h, rfl, rfl⟩

theorem unfilled_wake (p : Proc) : Unfilled p p.wake := by
  unfold Proc.wake
  split
  · nofun
  · exact .refl p

theorem unfilled_wakeup1 (r : Slot) (p : Proc) : Unfilled p (p.wakeup1 r) := by
  unfold Proc.wakeup1
  split
  · exact unfilled_wake p
  · exact .refl p

theorem unfilled_set {p : Proc} (h : Unfilled (s.proc i) p) (j : Slot) :
    Unfilled (s.proc j) ((s.set i p).proc j) := by
  by_cases hj : j = i
  · subst hj; simpa using h
  · simpa [hj] using .refl (s.proc j)

namespace Clean

/-- Empty slots are freed ones, or they have been empty, and `fork` goes on with those it is
    filling. -/
theorem keep (h : Clean s)
    (hproc : ∀ i, (t.proc i).state = .unused →
      t.proc i = .free ∨ Unfilled (s.proc i) (t.proc i) ∧ (s.making i → t.making i))
    (htarget : ∀ q x, (t.pc q).target = some x → x ≠ 0) : Clean t where
  empty i hi := by
    rcases hproc i hi with hfree | ⟨hsame, hmaking⟩
    · rw [hfree]
      exact ⟨rfl, .inl rfl⟩
    · obtain ⟨hst, hkilled, hpid⟩ := hsame hi
      obtain ⟨h₁, h₂⟩ := h.empty i hst
      exact ⟨hkilled ▸ h₁, h₂.imp (hpid ▸ ·) hmaking⟩
  target := htarget

theorem target_goto (h : Clean s) {k c : Pc} (hpc : s.pc q = k) (htpc : t.pc = update s.pc q c)
    (hk : c.target = none ∨ c.target = k.target) (r : Slot) (x : Int32)
    (hx : (t.pc r).target = some x) : x ≠ 0 := by
  rw [htpc] at hx
  by_cases hrq : r = q
  · subst hrq
    rw [update_self] at hx
    rcases hk with hk | hk
    · rw [hk] at hx; cases hx
    · exact h.target r x (by rw [hpc, ← hk]; exact hx)
  · rw [update_of_ne hrq] at hx
    exact h.target r x hx

theorem goto (h : Clean s) {k k' : Pc} (hpc : s.pc q = k) (htpc : t.pc = update s.pc q k')
    (hproc : ∀ i, Unfilled (s.proc i) (t.proc i))
    (hmake : k.making = none ∨ k'.making = k.making)
    (htarget : k'.target = none ∨ k'.target = k.target) : Clean t :=
  h.keep (fun i _ => .inr ⟨hproc i, making_goto hpc htpc fun hi => by
    rcases hmake with hm | hm
    · rw [hm] at hi; cases hi
    · rw [hm]; exact hi⟩) (h.target_goto hpc htpc htarget)

/-- The thread of `q` frees a slot. -/
theorem free (h : Clean s) {k k' : Pc} (hpc : s.pc q = k) (htpc : t.pc = update s.pc q k')
    (hproc : t.proc = update s.proc i .free)
    (hmake : ∀ j, k.making = some j → j = i) (htarget : k'.target = none) : Clean t := by
  refine h.keep (fun j _ => ?_) (h.target_goto hpc htpc (.inl htarget))
  rw [hproc]
  by_cases hj : j = i
  · subst hj
    exact .inl (update_self ..)
  · rw [update_of_ne hj]
    exact .inr ⟨.refl _, making_goto hpc htpc fun hk => absurd (hmake j hk) hj⟩

theorem thread (h : Clean s) (hco : Coherent s) (hc : (s.cpu c).ctx = .thread q) {k : Pc}
    (hpc : s.pc q = k) (hcare : ∀ i, k = .allocproc i → (s.proc i).state = .unused → ok = true)
    (ht : Thread s c q ok k t) : Clean t := by
  cases ht with
  | @acquire k k' i ha hfree =>
    have hmake : k.making = none := by cases ha <;> rfl
    exact h.goto hpc rfl (fun _ => .refl _) (.inl hmake) (.inr ha.target)
  | forkNone | killNone | copy | reparentTake | reparentNext | waitTake | waitNext | allocNext | exitRead |
    waitNone | waitAlive | reapFail | waitReturn | killNext | yielded | forkret =>
    exact h.goto hpc rfl (fun _ => .refl _) (by simp [Pc.making]) (by simp [Pc.target, Point.target])
  | yield p | sleep n p =>
    exact h.goto hpc rfl (unfilled_set (by simp [Unfilled])) (.inl rfl) (.inr rfl)
  | waitSleep => exact h.goto hpc rfl (unfilled_set (by simp [Unfilled])) (.inl rfl) (.inl rfl)
  | forkParent i =>
    exact h.goto hpc rfl (unfilled_set fun hx => ⟨hx, rfl, rfl⟩) (.inr rfl) (.inl rfl)
  | reparentSet st op i | slept n p | waitBack addr =>
    exact h.goto hpc rfl (unfilled_set fun hx => ⟨hx, rfl, rfl⟩) (.inl rfl)
      (by simp [Pc.target, Point.target])
  | exitInit st =>
    exact h.goto hpc rfl (unfilled_set (unfilled_wakeup1 _ _)) (.inl rfl) (.inl rfl)
  | @zombie st op n hn =>
    refine h.goto hpc rfl (fun j => ?_) (.inl rfl) (.inl rfl)
    by_cases hj : j = q
    · subst hj
      simp [Procs.zombie, Unfilled]
    · have := unfilled_set (unfilled_wakeup1 op (s.proc op)) j
      simpa [Procs.zombie, hj] using this
  | allocFail hst hok =>
    have := hcare _ rfl hst
    rw [hok] at this
    cases this
  | @alloc i hst hok =>
    refine ⟨fun j hj => ?_, h.target_goto hpc rfl (.inl rfl)⟩
    by_cases hji : j = i
    · subst hji
      have hkilled : (((s.allocpid j).goto q (.uvmcopy j)).proc j).killed = (s.proc j).killed := by
        simp [allocpid]
      exact ⟨hkilled ▸ (h.empty j hst).1, .inr ⟨q, by simp [allocpid, Pc.making]⟩⟩
    · have hsame : ((s.allocpid i).goto q (.uvmcopy i)).proc j = s.proc j := by simp [allocpid, hji]
      rw [hsame] at hj ⊢
      obtain ⟨h₁, h₂⟩ := h.empty j hj
      exact ⟨h₁, h₂.imp_right fun hm => making_goto hpc rfl (by rintro ⟨⟩) hm⟩
  | copyFail i =>
    refine h.free hpc rfl rfl (fun j hj => ?_) rfl
    injection hj with hj
    exact hj.symm
  | reap => exact h.free hpc rfl rfl (by rintro _ ⟨⟩) rfl
  | forkStart i =>
    have hst := hco.making hc (by rw [hpc]; rfl)
    refine h.keep (fun j hj => .inr ?_) fun r x hx => ?_
    · have hji : j ≠ i := by
        rintro rfl
        simp [ret] at hj
      refine ⟨by simpa [ret, hji] using .refl (s.proc j), fun hr => ?_⟩
      obtain ⟨r, hr⟩ := hr
      refine ⟨r, ?_⟩
      have hrq : r ≠ q := by
        rintro rfl
        rw [hpc] at hr
        injection hr with hr
        exact hji hr.symm
      have hri : r ≠ i := by
        rintro rfl
        rw [hco.dead_of_unused hst] at hr
        cases hr
      simpa [ret, hrq, hri] using hr
    · by_cases hrq : r = q
      · subst hrq
        simp [ret, Pc.target, Point.target] at hx
      · by_cases hri : r = i
        · subst hri
          simp [ret, hrq, Pc.target] at hx
        · exact h.target r x (by simpa [ret, hrq, hri] using hx)
  | @killHit x i hx =>
    have hi : i ∈ s.held c := by rw [Coherent.held_self hc, hpc]; exact List.mem_singleton_self i
    have hst : (s.proc i).state ≠ .unused := fun hst => by
      rcases (h.empty i hst).2 with hpid | hmaking
      · exact h.target q x (by rw [hpc]; rfl) (hx.symm.trans hpid)
      · exact hco.not_making hi hc (by rw [hpc]; rintro ⟨⟩) hmaking
    refine h.goto hpc rfl (unfilled_set fun hw => ?_) (.inl rfl) (.inl rfl)
    exact absurd (unfilled_wake { s.proc i with killed := true } hw).1 hst
  | sched x =>
    exact h.goto hpc rfl (fun _ => .refl _) (.inl rfl) (.inr (by cases x <;> rfl))

theorem step (h : Clean s) (hco : Coherent s) {a : Act nc} (hcare : Careful s a) (ht : Step s a t) :
    Clean t := by
  cases ht with
  | @call c q k hc hpc hk =>
    refine h.keep (fun j _ => .inr ⟨.refl _, making_goto hpc rfl nofun⟩) fun r x hx => ?_
    by_cases hrq : r = q
    · subst hrq
      cases k with
      | kill y =>
        obtain rfl : y = x := by simpa [Call.start, Pc.target, Point.target] using hx
        exact hcare
      | fork | exit | wait => simp [Call.start, Pc.target, Point.target] at hx
    · exact h.target r x (by simpa [hrq] using hx)
  | exit hc hpc => exact h.goto hpc rfl (fun _ => .refl _) (.inl rfl) (.inl rfl)
  | pause hc hpc => exact h.goto hpc rfl (fun _ => .refl _) (.inl rfl) (.inr rfl)
  | thread hc ht => exact h.thread hco hc rfl (fun i hi => hcare _ i hc hi) ht
  | lock | restart | skip | back => exact h.keep (fun _ _ => .inr ⟨.refl _, id⟩) h.target
  | resume => exact h.keep (fun j _ => .inr ⟨unfilled_set (by simp [Unfilled]) j, id⟩) h.target
  | wakeup => exact h.keep (fun j _ => .inr ⟨unfilled_set (unfilled_wake _) j, id⟩) h.target
  | wakeupOther => exact h

end Clean

/-! ### Runs -/

/-- No process in use has the pid `x`. A zombie has its pid until it is freed. -/
def NoSuchPid (s : State nc) (x : Int32) : Prop := ∀ j, (s.proc j).state ≠ .unused → (s.proc j).pid ≠ x

/-- The thread of `q` executes `kill(x)`. -/
def InKill (k : Pc) (x : Int32) : Prop := (∃ n, k = .at (.killScan x n)) ∨ ∃ i, k = .killTest x i

/-- A process is killed by its own `kill` only. -/
structure OwnKill (s : State nc) : Prop where
  unused : ∀ i, s.lock i = none → (s.proc i).state = .unused →
    (s.proc i).pid = 0 ∧ (s.proc i).killed = false
  /-- Without a process of that pid, `kill` changes no process and returns -1. -/
  miss : ∀ c q x ok t, (s.cpu c).ctx = .thread q → InKill (s.pc q) x → NoSuchPid s x →
    step s (.run c ok) = some t → t.proc = s.proc ∧ (t.kills = s.kills ∨ t.kills = (x, -1) :: s.kills)
  /-- `allocproc` has returned a process. -/
  fresh : ∀ c q i, (s.cpu c).ctx = .thread q → s.pc q = .uvmcopy i → (s.proc i).killed = false

theorem Clean.ownKill (h : Clean s) (hco : Coherent s) : OwnKill s where
  unused i hfree hst := by
    refine ⟨(h.empty i hst).2.resolve_right ?_, (h.empty i hst).1⟩
    rintro ⟨q, hq⟩
    obtain ⟨c, hc⟩ := hco.runs_of_making hq
    have hi : i ∈ s.held c := by
      rw [Coherent.held_self hc]
      exact Coherent.making_held hq
    rw [(hco.locks.held_iff i c).mpr hi] at hfree
    cases hfree
  fresh c q i hc hpc := (h.empty i (hco.making hc (by rw [hpc]; rfl))).1
  miss c q x ok t hc hk hno ht := by
    have hstep : Thread s c q ok (s.pc q) t := by
      simp only [Procs.step, hc] at ht
      exact threadStep_thread ht
    rcases hk with ⟨n, hpc⟩ | ⟨i, hpc⟩
    · rw [hpc] at hstep
      cases hstep with
      | acquire => exact ⟨rfl, .inl rfl⟩
      | killNone => exact ⟨rfl, .inr rfl⟩
    · have hi : i ∈ s.held c := by rw [Coherent.held_self hc, hpc]; exact List.mem_singleton_self i
      rw [hpc] at hstep
      cases hstep with
      | acquire ha => cases ha
      | killNext => exact ⟨rfl, .inl rfl⟩
      | killHit hx =>
        by_cases hst : (s.proc i).state = .unused
        · rcases (h.empty i hst).2 with hpid | hmaking
          · exact absurd (hx.symm.trans hpid) (h.target q x (by rw [hpc]; rfl))
          · exact absurd hmaking (hco.not_making hi hc (by rw [hpc]; rintro ⟨⟩))
        · exact absurd hx (hno i hst)

theorem clean_boot : Clean (boot nc) := by
  refine ⟨fun i hi => ?_, fun q x hx => ?_⟩
  · by_cases h : i = initproc
    · simp [boot, h] at hi
    · simp [boot, h, Proc.free]
  · by_cases h : q = initproc <;> simp [boot, h, Pc.target] at hx

/-- In every run in which `kill` is not called with 0 and `allocproc` finds memory for the trapframe, a
    process is killed by its own `kill` only. -/
theorem killed_by_own_kill {as : List (Act nc)}
    (hrun : (System.ofStep step).Run Careful (boot nc) as s) : OwnKill s := by
  have hinv : Clean s ∧ Coherent s := by
    refine System.Run.step_invariant (I := fun s => Clean s ∧ Coherent s) (fun s a t h hcare ht => ?_)
      hrun ⟨clean_boot, coherent_boot⟩
    exact ⟨h.1.step h.2 hcare (step_step ht), h.2.step (step_step ht)⟩
  exact hinv.1.ownKill hinv.2

instance (s : State nc) (a : Act nc) : Decidable (Careful s a) := by
  cases a with
  | call c k => cases k <;> unfold Careful <;> infer_instance
  | pause | run | wakeup => unfold Careful; infer_instance

/-- Init forks a process and kills it. -/
def killRun : List (Act 1) := steps 3 ++ [.call 0 .fork] ++ steps 7 ++ [.call 0 (.kill 2)] ++ steps 4

theorem killed_by_own_kill_child : ∃ s : State 1, (s.proc 1).killed = true ∧
    (s.proc 2).pid = 0 ∧ (s.proc 2).killed = false := by
  have hrun := System.run_exec (System.ofStep step) Careful (boot 1) killRun (by decide +kernel)
  exact ⟨_, by decide +kernel,
    (killed_by_own_kill hrun).unused 2 (by decide +kernel) (by decide +kernel)⟩

/-- Init calls `kill(0)`, which returns 0, and forks. -/
def killZeroRun : List (Act 1) := steps 3 ++ [.call 0 (.kill 0)] ++ steps 4

/-- Init forks when there is no memory for the trapframe, and then kills the pid that was given away. -/
def killStaleRun : List (Act 1) :=
  steps 3 ++ [.call 0 .fork] ++ steps 3 ++ [.run 0 false, .call 0 (.kill 2)] ++ steps 4

/-- `kill(0)` marks an empty slot, and the next process starts in it marked as killed. -/
theorem kill_marks_empty_slot :
    (∃ s : State 1, Run (boot 1) killZeroRun s ∧ (s.proc 1).state = .unused ∧ s.lock 1 = none ∧
      (s.proc 1).killed = true ∧ s.kills = [(0, 0)]) ∧
    (∃ s : State 1, Run (boot 1) (killZeroRun ++ [.call 0 .fork] ++ steps 4) s ∧
      s.pc 0 = .uvmcopy 1 ∧ (s.proc 1).killed = true) ∧
    ∃ s : State 1, Run (boot 1) killStaleRun s ∧ (s.proc 1).state = .unused ∧ s.lock 1 = none ∧
      (s.proc 1).pid = 2 ∧ (s.proc 1).killed = true ∧ s.kills = [(2, 0)] :=
  ⟨⟨_, System.run_exec _ _ (boot 1) killZeroRun (by decide +kernel), by decide +kernel⟩,
    ⟨_, System.run_exec _ _ (boot 1) (killZeroRun ++ [.call 0 .fork] ++ steps 4) (by decide +kernel),
      by decide +kernel⟩,
    ⟨_, System.run_exec _ _ (boot 1) killStaleRun (by decide +kernel), by decide +kernel⟩⟩

end Xv6.Procs
