import Xv6.Kernel.Proc.Records

/-! Every child is reaped once, with its own status.

    Every step keeps `Records`, as long as the pids do not wrap around. So the history of a run is
    truthful, and a zombie stays in the table until it is reaped. -/

namespace Xv6.Procs
open State Function

variable {nc : Nat} {s t : State nc} {c : Fin nc} {q i j : Slot} {ok : Bool}

namespace Records

/-- A step of the scheduler, or of a waker. -/
theorem congr (h : Records s) (hrec : ∀ j, SameRecord (s.proc j) (t.proc j)) (hpc : t.pc = s.pc)
    (hhist : t.hist = s.hist) (hnext : t.nextpid = s.nextpid) (hallocs : t.allocs = s.allocs) : Records t :=
  h.neutral (fun j => (hrec j).toSameName) hhist hnext hallocs
    (fun i ⟨x, hx⟩ => ⟨x, hpc ▸ hx⟩) (fun i x hx => by rw [hpc]; exact hx)
    (fun x i hx => h.child x i (hpc ▸ hx)) fun i _ => status_congr (hrec i) (by rw [hpc])

/-- `exit` makes the process a zombie with the argument as its status. -/
theorem die (h : Records s) {st : Int32} {op : Slot} {n : Nat} (hst : (s.proc q).state = .running)
    (hpc : s.pc q = .reparent st op n) :
    Records (((s.set q { s.proc q with xstate := st, state := .zombie }).release op).goto q
      (.sched .dead)) := by
  have hname : ∀ j, SameName (s.proc j)
      ((s.set q { s.proc q with xstate := st, state := .zombie }).proc j) := fun j => by
    by_cases hj : j = q
    · subst hj
      exact ⟨by simp, by simp, by simp [hst]⟩
    · rw [set_proc, update_of_ne hj]
      exact (SameRecord.refl _).toSameName
  refine h.neutral hname rfl rfl rfl ?_ (fun i r hr => ?_) (fun r i hi => ?_) fun j _ => ?_
  · rintro j ⟨x, hx⟩
    refine ⟨x, ?_⟩
    rw [← hx]
    exact (Update.proj_update Pc.making (by rw [hpc]; rfl) x).symm
  · have hrq : r ≠ q := by
      rintro rfl
      rw [hpc] at hr
      cases hr
    simpa [hrq] using hr
  · refine h.child r i ?_
    rw [← hi]
    exact (Update.proj_update Pc.child (by rw [hpc]; rfl) r).symm
  · unfold State.status
    by_cases hj : j = q
    · subst hj
      rw [hst, hpc]
      simp [Pc.status]
    · simp [hj]

/-- `wait` frees the zombie it has found. -/
theorem bury (h : Records s) (hco : Coherent s) (hfam : Family s) (hc : (s.cpu c).ctx = .thread q)
    {addr : Bool} (hpc : s.pc q = .waitTest addr i) (hst : (s.proc i).state = .zombie) :
    Records ((((s.set i .free).release i).goto q .waitReturn).note
      (.reaped (s.proc q).pid (s.proc i).pid (if addr then some (s.proc i).xstate else none))) := by
  have huse : s.inUse i := .inl (by rw [hst]; simp)
  have hroot : i ≠ initproc := by
    rintro rfl
    have := hfam.root
    rw [hst] at this
    cases this
  have hparent : (s.proc i).parent = some q := h.child q i (by rw [hpc]; rfl)
  have hm : ¬ s.making i := hco.not_making
    (by rw [Coherent.held_self hc, hpc]; simp [Pc.holds]) hc (by rw [hpc]; simp [Pc.making])
  have hmove : Records ((s.release i).goto q .waitReturn) :=
    h.pass hpc rfl (fun _ => .refl _) rfl rfl rfl rfl (by simp) rfl rfl
  have hmaking : ∀ j, ((s.release i).goto q .waitReturn).making j → s.making j := by
    rintro j ⟨x, hx⟩
    exact ⟨x, by rw [← hx]; exact (Update.proj_update Pc.making (by rw [hpc]; rfl) x).symm⟩
  have hfree : Records (((s.release i).goto q .waitReturn).set i .free) := by
    refine hmove.vacate hroot (fun hi => hm (hmaking i hi)) (fun j hj => ?_) fun r hr => ?_
    · have := (hfam.alive j i hj).1
      rw [hst] at this
      cases this
    · by_cases hrq : r = q
      · subst hrq
        simp [Pc.child] at hr
      · rw [goto_pc, update_of_ne hrq] at hr
        have hr := h.child r i hr
        rw [hparent] at hr
        exact hrq (Option.some.inj hr).symm
  have hother : ∀ j, j ≠ i → (((s.release i).goto q .waitReturn).set i .free).proc j = s.proc j :=
    fun j hj => by simp [hj]
  refine hfree.note (h.pid i huse) (fun j hj heq => ?_) (fun j hj r st heq => ?_) (by simp) ⟨?_, ?_, ?_, h.truthful⟩
  · have hji : j ≠ i := fun hji => hm (hji ▸ hmaking j hj)
    rw [hother j hji] at heq
    exact hji (h.uniq j i (.inr (hmaking j hj)) huse heq.symm)
  · have hji : j ≠ i := by
      rintro rfl
      simp [Proc.free] at hj
    rw [hother j hji] at hj heq
    injection heq with _ heq
    exact hji (h.uniq j i (.inl hj) huse heq.symm)
  · obtain ⟨r, p, h₁, h₂, h₃⟩ := h.born i hroot (by rw [hst]; simp)
    rw [hparent] at h₁
    cases h₁
    refine ⟨p, h₂, h₃.imp_right fun hq => ?_⟩
    refine ⟨?_, hq.2⟩
    rw [hq.1]
    exact h.first
  · refine ⟨(s.proc i).xstate, (h.exits i (by rw [hst]; simp) _).mpr (if_pos hst), fun y hy => ?_⟩
    split at hy
    · exact (Option.some.inj hy).symm
    · cases hy
  · exact h.gone i (by rw [hst]; simp)

/-! ### Steps -/

theorem thread (h : Records s) (hco : Coherent s) (hfam : Family s) (hc : (s.cpu c).ctx = .thread q)
    {k : Pc} (hpc : s.pc q = k) (ht : Thread s c q ok k t) (hbound : t.allocs < 2 ^ 31) : Records t := by
  have hrun : (∀ x, k ≠ .sched x) → (s.proc q).state = .running := fun hk =>
    hco.state_running hc (by rw [hpc]; exact hk)
  have hset : ∀ {i p}, SameRecord (s.proc i) p → Records (s.set i p) := fun hp =>
    h.congr (sameRecord_set hp) rfl rfl rfl rfl
  -- a slot that `allocproc` finds unused is not being filled
  have hfresh : ∀ {i}, k = .allocproc i → (s.proc i).state = .unused → ¬ s.inUse i := by
    rintro i rfl hst (hne | hm)
    · exact hne hst
    · exact hco.not_making (by rw [Coherent.held_self hc, hpc]; simp [Pc.holds]) hc
        (by rw [hpc]; rintro ⟨⟩) hm
  -- a slot that `fork` has not yet made its own is not known as a child
  have hlone : ∀ {i}, k.making = some i → k ≠ .forkStart i → ∀ x, (s.pc x).child ≠ some i := by
    intro i hk hne x hx
    have hst := hco.making hc (by rw [hpc]; exact hk)
    rcases h.bare i hst with hnone | ⟨y, hy⟩
    · rw [h.child x i hx] at hnone
      cases hnone
    · obtain rfl := hco.making_inj (by rw [hpc]; exact hk) (by rw [hy]; rfl)
      exact hne (hpc ▸ hy)
  cases ht with
  | @acquire k k' i ha hfree =>
    refine h.goto hpc rfl (fun _ => .refl _) rfl rfl rfl (by simp [ha.making]) (by cases ha <;> simp)
      (fun j hj => h.child q j ?_) ha.status
    rw [hpc, ← ha.child]
    exact hj
  | forkNone | killNone | allocNext | waitNext | waitNone | waitAlive | reapFail | waitReturn | killNext |
    forkret | reparentNext | yielded | exitRead => exact h.pass hpc rfl (fun _ => .refl _) rfl rfl rfl rfl (by simp) rfl rfl
  | copy i => exact h.goto hpc rfl (fun _ => .refl _) rfl rfl rfl (fun _ hi => hi) (by simp) (by rintro _ ⟨⟩) rfl
  | sched x =>
    cases x with
    | _ => exact h.pass hpc rfl (fun _ => .refl _) rfl rfl rfl rfl (by simp) rfl rfl
  | @reparentTake st op i hi | @waitTake addr kids i hi =>
    refine h.goto hpc rfl (fun _ => .refl _) rfl rfl rfl (by simp [Pc.making]) (by simp) (fun j hj => ?_) rfl
    injection hj with hj
    exact hj ▸ hi
  | yield p | sleep n p | @waitSleep addr kids n hn =>
    refine h.goto hpc rfl (sameRecord_set ⟨⟨rfl, rfl, ?_⟩, rfl, ?_⟩) rfl rfl rfl (fun _ h => by cases h) (by simp) (fun _ h => by cases h) rfl <;>
    simp [hrun (by simp)]
  | slept n p | waitBack addr =>
    exact (hset (p := { s.proc q with chan := none }) ⟨⟨rfl, rfl, Iff.rfl⟩, rfl, Iff.rfl⟩).pass hpc rfl
      (fun _ => .refl _) rfl rfl rfl rfl (by simp) rfl rfl
  | exitInit st =>
    exact (hset (sameRecord_wakeup1 _ _)).pass hpc rfl (fun _ => .refl _) rfl rfl rfl rfl (by simp) rfl rfl
  | @alloc i hst =>
    obtain ⟨halloc, hnew⟩ := h.allocpid hfam (hfresh rfl hst) hbound
    exact halloc.fill hnew hpc
  | @allocFail i hst =>
    obtain ⟨halloc, -⟩ := h.allocpid hfam (hfresh rfl hst) hbound
    exact halloc.pass hpc rfl (fun _ => .refl _) rfl rfl rfl rfl (by simp) rfl rfl
  | copyFail i =>
    have hst := hco.making hc (by rw [hpc]; rfl)
    have hmove : Records ((s.release i).ret q) :=
      h.pass hpc rfl (fun _ => .refl _) rfl rfl rfl rfl (by simp) rfl rfl
    refine hmove.vacate ?_ ?_ (fun j hj => ?_) fun x hx => ?_
    · rintro rfl
      have := hfam.root
      rw [hst] at this
      cases this
    · rintro ⟨x, hx⟩
      by_cases hxq : x = q
      · subst hxq
        simp [State.ret, Pc.making] at hx
      · simp only [State.ret, goto_pc, update_of_ne hxq] at hx
        exact hxq (hco.making_inj (by rw [hpc]; rfl) hx)
    · have := (hfam.alive j i hj).1
      rw [hst] at this
      cases this
    · by_cases hxq : x = q
      · subst hxq
        simp [State.ret, Pc.child] at hx
      · simp only [State.ret, goto_pc, update_of_ne hxq] at hx
        exact hlone rfl (by simp) x hx
  | forkParent i =>
    have hst := hco.making hc (by rw [hpc]; rfl)
    refine h.setParent hpc (fun _ hj => hj) (by simp) (fun j hj => ?_) rfl (fun x _ => hlone rfl (by simp) x)
      (fun _ => rfl) fun _ hne => absurd hst hne
    injection hj with hj
    exact ⟨hj.symm, rfl⟩
  | forkStart i => exact h.launch hco hc hpc
  | reparentSet st op i =>
    have hparent : (s.proc i).parent = some q := h.child q i (by rw [hpc]; rfl)
    have hmine : ∀ x, (s.pc x).child = some i → x = q := fun x hx => by
      have hx := h.child x i hx
      rw [hparent] at hx
      exact (Option.some.inj hx).symm
    refine (h.setParent (c := .reparent st op (i + 1)) hpc (by rintro _ ⟨⟩) (by simp) (by rintro _ ⟨⟩) rfl
      (fun x hxq hx => hxq (hmine x hx)) (fun hst => ?_) fun hne hst => ?_).congr (fun _ => .refl _) rfl rfl
      rfl rfl
    · rcases h.bare i hst with hnone | ⟨x, hx⟩
      · rw [hparent] at hnone
        cases hnone
      · obtain rfl := hmine x (by rw [hx]; rfl)
        rw [hpc] at hx
        cases hx
    · obtain ⟨r, p, h₁, h₂, h₃⟩ := h.born i hne hst
      rw [hparent] at h₁
      cases h₁
      refine ⟨p, h₂, .inr ⟨rfl, ?_⟩⟩
      rcases h₃ with rfl | ⟨-, hp⟩
      · have hq : (s.proc q).state = .running := hrun (by simp)
        refine ⟨st, (h.exits q (by rw [hq]; simp) st).mpr ?_⟩
        unfold State.status
        rw [hq, hpc]
        rfl
      · exact hp
  | @zombie st op n hn =>
    have hwake := hset (sameRecord_wakeup1 op (s.proc op))
    refine hwake.die ?_ hpc
    rcases woken_set (woken_wakeup1 op (s.proc op)) q with hsame | ⟨hsl, -⟩
    · rw [hsame, hrun (by simp)]
    · rw [hrun (by simp)] at hsl
      cases hsl
  | reap hst => exact h.bury hco hfam hc hpc hst
  | @killHit x i hx =>
    have hw := sameRecord_wake { s.proc i with killed := true }
    exact (hset ⟨⟨hw.pid, hw.parent, hw.unused⟩, hw.xstate, hw.zombie⟩).pass hpc rfl (fun _ => .refl _) rfl
      rfl rfl rfl (by simp) rfl rfl

theorem step (h : Records s) (hco : Coherent s) (hfam : Family s) {a : Act nc} (ht : Step s a t)
    (hbound : t.allocs < 2 ^ 31) : Records t := by
  cases ht with
  | @call c q k hc hpc hk =>
    cases k with
    | exit st => exact absurd rfl (hk st)
    | _ => exact h.pass hpc rfl (fun _ => .refl _) rfl rfl rfl rfl (by simp) rfl rfl
  | exit hc hpc => exact h.exitCall hco hc hpc _
  | pause hc hpc => exact h.pass hpc rfl (fun _ => .refl _) rfl rfl rfl rfl (by simp) rfl rfl
  | thread hc ht => exact h.thread hco hfam hc rfl ht hbound
  | lock | restart | skip | back => exact h.congr (fun _ => .refl _) rfl rfl rfl rfl
  | @resume c i ok hc hst =>
    exact h.congr (sameRecord_set ⟨⟨rfl, rfl, by simp [hst]⟩, rfl, by simp [hst]⟩) rfl rfl rfl rfl
  | wakeup => exact h.congr (sameRecord_set (sameRecord_wake _)) rfl rfl rfl rfl
  | wakeupOther => exact h

end Records

/-! ### Zombies stay -/

/-- The process with pid `x` is a zombie in slot `i`, with status `y`. -/
def State.zombieAt (s : State nc) (i : Slot) (x y : Int32) : Prop :=
  (s.proc i).state = .zombie ∧ (s.proc i).pid = x ∧ (s.proc i).xstate = y

def State.reapedIn (s : State nc) (x : Int32) : Prop := ∃ r st, .reaped r x st ∈ s.hist

variable {x y : Int32}

theorem zombieAt_same (h : s.zombieAt i x y) (hrec : SameRecord (s.proc i) (t.proc i)) :
    t.zombieAt i x y :=
  ⟨hrec.zombie.mpr h.1, hrec.pid.trans h.2.1, hrec.xstate.trans h.2.2⟩

theorem zombieAt_other {p : Proc} (h : s.zombieAt i x y)
    (hj : (s.proc j).state ≠ .zombie) : (s.set j p).zombieAt i x y := by
  have hij : i ≠ j := by
    rintro rfl
    exact hj h.1
  simpa [State.zombieAt, hij] using h

/-- A zombie stays one until a `wait` reaps it. -/
theorem zombieAt_thread (hco : Coherent s) (hc : (s.cpu c).ctx = .thread q) {k : Pc} (hpc : s.pc q = k)
    (ht : Thread s c q ok k t) (h : s.zombieAt i x y) :
    t.zombieAt i x y ∨ t.reapedIn x := by
  have hrun : (∀ x, k ≠ .sched x) → (s.proc q).state ≠ .zombie := fun hk => by
    rw [hco.state_running hc (by rw [hpc]; exact hk)]
    nofun
  have hmake : ∀ {j}, k.making = some j → (s.proc j).state ≠ .zombie := fun hj => by
    rw [hco.making hc (by rw [hpc]; exact hj)]
    nofun
  cases ht with
  | yield | sleep | waitSleep | slept | waitBack => exact .inl (zombieAt_other h (hrun nofun))
  | alloc hst | allocFail hst => exact .inl (zombieAt_other h (by rw [hst]; nofun))
  | copyFail | forkParent | forkStart => exact .inl (zombieAt_other h (hmake rfl))
  | exitInit => exact .inl (zombieAt_same h (sameRecord_set (sameRecord_wakeup1 _ _) i))
  | @zombie st op n hn =>
    have hw := zombieAt_same h (sameRecord_set (sameRecord_wakeup1 op (s.proc op)) i)
    refine .inl (zombieAt_other hw fun hz => hrun nofun ?_)
    exact (sameRecord_set (sameRecord_wakeup1 op (s.proc op)) q).zombie.mp hz
  | @reparentSet st op j =>
    by_cases hij : i = j
    · subst hij
      exact .inl (by simpa [State.zombieAt] using h)
    · exact .inl (by simpa [State.zombieAt, hij] using h)
  | @reap addr j hst =>
    by_cases hij : i = j
    · subst hij
      exact .inr ⟨_, _, by rw [← h.2.1]; exact List.mem_cons_self⟩
    · exact .inl (by simpa [State.zombieAt, hij] using h)
  | @killHit z j hz =>
    have hw := sameRecord_wake { s.proc j with killed := true }
    exact .inl (zombieAt_same h (sameRecord_set ⟨⟨hw.pid, hw.parent, hw.unused⟩, hw.xstate, hw.zombie⟩ i))
  | _ => exact .inl h

variable {a : Act nc}

theorem zombieAt_step (hco : Coherent s) (ht : Step s a t)
    (h : s.zombieAt i x y) : t.zombieAt i x y ∨ t.reapedIn x := by
  cases ht with
  | thread hc ht => exact zombieAt_thread hco hc rfl ht h
  | resume hc hst => exact .inl (zombieAt_other h (by rw [hst]; nofun))
  | wakeup => exact .inl (zombieAt_same h (sameRecord_set (sameRecord_wake _) i))
  | _ => exact .inl h

/-! ### Runs -/

theorem hist_step (ht : Step s a t) : t.hist = s.hist ∨ ∃ e, t.hist = e :: s.hist := by
  cases ht with
  | exit => exact .inr ⟨_, rfl⟩
  | @thread c q ok t hc ht =>
    generalize s.pc q = k at ht
    cases ht with
    | forkStart | reap => exact .inr ⟨_, rfl⟩
    | _ => exact .inl rfl
  | _ => exact .inl rfl

theorem allocs_step (ht : Step s a t) : s.allocs ≤ t.allocs := by
  cases ht with
  | @thread c q ok t hc ht =>
    generalize s.pc q = k at ht
    cases ht with
    | alloc | allocFail => exact Nat.le_succ _
    | _ => exact le_rfl
  | _ => exact le_rfl

theorem records_boot : Records (boot nc) := by
  have hlive : ∀ j, ((boot nc).proc j).state ≠ .unused → j = initproc := fun j hj => by
    by_contra hne
    simp [boot, hne, Proc.free] at hj
  have huse : ∀ j, (boot nc).inUse j → j = initproc := by
    rintro j (hj | ⟨x, hx⟩)
    · exact hlive j hj
    · cases hx
  refine ⟨rfl, fun j hj => ?_, fun j l hj hl _ => ?_, (by rintro _ ⟨⟩), fun _ _ => (by rintro _ ⟨⟩), fun _ _ _ _ => (by rintro ⟨⟩),
    fun j hj => .inl ?_, (by rintro _ _ ⟨⟩), rfl, fun j hne hj => absurd (hlive j hj) hne, fun j hj st => ?_, trivial⟩
  · obtain rfl := huse j hj
    exact ⟨1, le_rfl, rfl⟩
  · rw [huse j hj, huse l hl]
  · by_cases hj : j = initproc <;> simp [boot, hj, Proc.free]
  · obtain rfl := hlive j hj
    exact iff_of_false (by rintro ⟨⟩) (by rintro ⟨⟩)

variable {as : List (Act nc)}

theorem Run.records (hrun : Run (boot nc) as s) : s.allocs < 2 ^ 31 → Records s := by
  refine (System.Run.step_invariant (I := fun s => Sound s ∧ (s.allocs < 2 ^ 31 → Records s))
    (fun s a t h _ ht => ?_) hrun ⟨sound_boot, fun _ => records_boot⟩).2
  have hstep := step_step ht
  refine ⟨h.1.step hstep, fun hbound => ?_⟩
  exact (h.2 (Nat.lt_of_le_of_lt (allocs_step hstep) hbound)).step h.1.coherent h.1.family hstep hbound

/-- In every run from a sound state a zombie stays one until a `wait` reaps it. -/
theorem Run.zombieAt (hrun : Run s as t) (hs : Sound s)
    (h : s.zombieAt i x y) : t.zombieAt i x y ∨ t.reapedIn x := by
  refine (System.Run.step_invariant (I := fun t => Sound t ∧ (t.zombieAt i x y ∨ t.reapedIn x))
    (fun t a u ih _ ht => ?_) hrun ⟨hs, .inl h⟩).2
  have hstep := step_step ht
  refine ⟨ih.1.step hstep, ?_⟩
  rcases ih.2 with hz | ⟨r, st, hr⟩
  · exact zombieAt_step ih.1.coherent hstep hz
  · rcases hist_step hstep with heq | ⟨e, heq⟩
    · exact .inr ⟨r, st, by rw [heq]; exact hr⟩
    · exact .inr ⟨r, st, by rw [heq]; exact List.mem_cons_of_mem _ hr⟩

/-! ### Histories -/

namespace Truthful

variable {past newer older : List Event} {e : Event} {r x y z : Int32} {st : Option Int32}

theorem tail (h : Truthful (e :: past)) : Truthful past := by
  cases e with
  | forked => exact h
  | exit => exact h.2
  | reaped => exact h.2.2.2

theorem suffix (h : Truthful (newer ++ older)) : Truthful older := by
  induction newer with
  | nil => exact h
  | cons e newer ih => exact ih h.tail

/-- A process exits once. -/
theorem exit_unique (h : Truthful past) (hy : .exit x y ∈ past) (hz : .exit x z ∈ past) : y = z := by
  induction past with
  | nil => cases hy
  | cons e past ih =>
    rcases List.mem_cons.mp hy with rfl | hy' <;> rcases List.mem_cons.mp hz with heq | hz'
    · injection heq with _ heq
      exact heq.symm
    · exact absurd hz' (h.1 z)
    · subst heq
      exact absurd hy' (h.1 y)
    · exact ih h.tail hy' hz'

/-- A process is reaped once. -/
theorem reaped_unique (h : Truthful (newer ++ .reaped r x st :: older)) (r' : Int32) (st' : Option Int32) :
    .reaped r' x st' ∉ newer ++ older := by
  induction newer with
  | nil => exact h.2.2.1 r' st'
  | cons e newer ih =>
    intro hmem
    rcases List.mem_cons.mp hmem with rfl | hmem
    · exact h.2.2.1 r st (List.mem_append_right _ List.mem_cons_self)
    · exact ih h.tail hmem

end Truthful

/-- A successful `wait` returns the pid of a zombie whose parent is the caller. -/
theorem reaped_parent (h : Records s) (ht : Step s a t) {r : Int32} {st : Option Int32}
    (hhist : t.hist = .reaped r x st :: s.hist) :
    ∃ q i, (s.proc q).pid = r ∧ s.zombieAt i x (s.proc i).xstate ∧ (s.proc i).parent = some q := by
  have hne : s.hist ≠ .reaped r x st :: s.hist := fun heq => by simpa using congrArg List.length heq
  cases ht with
  | exit =>
    injection hhist with he
    cases he
  | @thread c q ok t hc ht =>
    generalize hpc : s.pc q = k at ht
    cases ht with
    | forkStart i =>
      injection hhist with he
      cases he
    | @reap addr i hst =>
      injection hhist with he
      injection he with hr hx
      exact ⟨q, i, hr, ⟨hst, hx, rfl⟩, h.child q i (by rw [hpc]; rfl)⟩
    | _ => exact absurd hhist hne
  | _ => exact absurd hhist hne

/-- Every child is reaped at most once: in the histories of the runs that allocate less than 2³¹ pids, a
    successful `wait` comes after the child's `fork` and `exit`, its caller is the creator of the child,
    or init if the creator has called `exit`, the status that it copies out is the argument of the one
    `exit` of the child, and no other `wait` returns the pid of the child. The caller is the parent that
    the table has for the child. A `wait` that cannot copy the status out leaves the table as it was,
    and the zombie stays there until it is reaped. -/
theorem reaped_once (hrun : Run (boot nc) as s) (hpids : s.allocs < 2 ^ 31) :
    (∀ newer r x st older, s.hist = newer ++ .reaped r x st :: older →
      (∃ p, .forked p x ∈ older ∧ (r = p ∨ r = initpid ∧ ∃ y, .exit p y ∈ older)) ∧
      (∃ y, .exit x y ∈ older) ∧ (∀ y z, .exit x y ∈ s.hist → st = some z → z = y) ∧
      ∀ r' st', .reaped r' x st' ∉ newer ++ older) ∧
    (∀ a t r x st, step s a = some t → t.hist = .reaped r x st :: s.hist →
      ∃ q i, (s.proc q).pid = r ∧ s.zombieAt i x (s.proc i).xstate ∧ (s.proc i).parent = some q) ∧
    ∀ c q i t x y, (s.cpu c).ctx = .thread q → s.pc q = .waitTest true i → s.zombieAt i x y →
      step s (.run c false) = some t → t.proc = s.proc ∧ t.hist = s.hist ∧
        ∀ bs u, Run t bs u → u.zombieAt i x y ∨ u.reapedIn x := by
  have h := hrun.records hpids
  refine ⟨fun newer r x st older hhist => ?_, fun a t r x st ht => reaped_parent h (step_step ht),
    fun c q i t x y hc hpc hz ht => ?_⟩
  · have htruth := h.truthful
    rw [hhist] at htruth
    obtain ⟨hfork, ⟨y, hy, hst⟩, -⟩ := htruth.suffix
    refine ⟨hfork, ⟨y, hy⟩, fun y' z hy' hz => ?_, htruth.reaped_unique⟩
    rw [hst z hz]
    refine h.truthful.exit_unique ?_ hy'
    rw [hhist]
    exact List.mem_append_right _ (List.mem_cons_of_mem _ hy)
  · have hsound := hrun.sound.step (step_step ht)
    have hfail : t = (s.release i).goto q .waitReturn := by
      simp only [step, hc, hpc, threadStep, hz.1, Procs.reap] at ht
      simpa using ht.symm
    subst hfail
    exact ⟨rfl, rfl, fun bs u hu => hu.zombieAt hsound hz⟩

/-- Init forks a process and waits for it, and the process exits with status 7. -/
def reaperRun : List (Act 1) :=
  steps 3 ++ [.call 0 .fork] ++ steps 7 ++ [.call 0 (.wait true)] ++ steps 19 ++ [.call 0 (.exit 7)] ++
    steps 43

theorem reaped_once_child : ∃ s : State 1, ∃ older, s.hist = .reaped 1 2 (some 7) :: older ∧
    (∀ y, .exit 2 y ∈ s.hist → 7 = y) ∧ ∀ r st, .reaped r 2 st ∉ older := by
  have hrun := System.run_exec (System.ofStep step) (fun _ _ => True) (boot 1) reaperRun (by decide +kernel)
  have h := (reaped_once hrun (by decide +kernel)).1 [] 1 2 (some 7) [.exit 2 7, .forked 1 2] (by decide +kernel)
  exact ⟨_, _, by decide +kernel, fun y hy => h.2.2.1 y 7 hy rfl, h.2.2.2⟩

end Xv6.Procs
