import Xv6.Kernel.Proc.Coherent
import Xv6.Kernel.Proc.Steps

/-! A process runs on at most one processor.

    Every step keeps `Coherent`. In a coherent state a process whose lock is free is `RUNNING` iff a
    processor has it as its current process, and `freeproc` gets only processes that no processor
    has. -/

namespace Xv6.Procs
open State Function

variable {nc : Nat} {s t : State nc} {c c' : Fin nc} {q i j : Slot} {ok : Bool}

namespace Acquires

variable {k k' : Pc}

theorem holds (h : Acquires q k i k') : k'.holds q = i :: k.holds q := by cases h <;> rfl

theorem here (h : Acquires q k i k') (x : Saved) : k ≠ .sched x := by cases h <;> nofun

theorem there (h : Acquires q k i k') (x : Saved) : k' ≠ .sched x := by cases h <;> nofun

theorem making (h : Acquires q k i k') : k'.making = none := by cases h <;> rfl

end Acquires

namespace Coherent

theorem goto_locked (h : Coherent s) (hc : (s.cpu c).ctx = .thread q) {k k' : Pc} (hpc : s.pc q = k)
    (hk : ∀ x, k ≠ .sched x) (hk' : ∀ x, k' ≠ .sched x) (hmake : k'.making = none)
    (hfree : s.lock i = none) (hholds : k'.holds q = i :: k.holds q) :
    Coherent ((s.locked c i).goto q k') := by
  subst hpc
  exact Moved.acquire ⟨hc, hk, hk', rfl, rfl, fun _ => .inl rfl, by rw [hmake]; nofun⟩ h hfree rfl hholds

/-- The thread of `q` releases the lock of `i`, where it may have changed other fields than the
    state. -/
theorem goto_release (h : Coherent s) (hc : (s.cpu c).ctx = .thread q) {k k' : Pc} (hpc : s.pc q = k)
    (hcpu : t.cpu = s.cpu) (htpc : t.pc = update s.pc q k')
    (hlock : t.lock = update s.lock i none) (hst : ∀ j, Woken (s.proc j).state (t.proc j).state)
    (hk : ∀ x, k ≠ .sched x) (hk' : ∀ x, k' ≠ .sched x) (hmake : k'.making = none)
    (hholds : k.holds q = i :: k'.holds q) : Coherent t := by
  subst hpc
  exact Moved.release ⟨hc, hk, hk', hcpu, htpc, hst, by rw [hmake]; nofun⟩ h hlock (.of_eq hholds)

theorem goto_stay (h : Coherent s) (hc : (s.cpu c).ctx = .thread q) {k k' : Pc} (hpc : s.pc q = k)
    (hcpu : t.cpu = s.cpu) (htpc : t.pc = update s.pc q k') (hlock : t.lock = s.lock)
    (hst : ∀ j, Woken (s.proc j).state (t.proc j).state) (hk : ∀ x, k ≠ .sched x)
    (hk' : ∀ x, k' ≠ .sched x) (hmake : ∀ i, k'.making = some i → (s.proc i).state = .unused)
    (hholds : k'.holds q = k.holds q) : Coherent t := by
  subst hpc
  exact Moved.stay ⟨hc, hk, hk', hcpu, htpc, hst, hmake⟩ h hlock hholds

/-- `sleep` and `yield` up to `swtch`. -/
theorem goto_leave (h : Coherent s) (hc : (s.cpu c).ctx = .thread q) {k : Pc} (hpc : s.pc q = k)
    (hk : ∀ x, k ≠ .sched x) (hholds : k.holds q = [q]) {st : ProcState} {ch : Option Chan} {x : Saved}
    (hst : st = .runnable ∨ st = .sleeping) (hx : x ≠ .dead) : Coherent (s.leave q st ch x) := by
  subst hpc
  have hfits : Fits True (.sched x) st := by
    rcases hst with rfl | rfl
    · exact ⟨x, hx, .inl ⟨trivial, rfl⟩⟩
    · exact ⟨x, hx, .inl ⟨trivial, rfl⟩⟩
  refine h.leave hc hk rfl rfl (fun j hj => .inl ?_) ?_ (h.locks.same (fun c' => ?_) rfl)
  · simp [State.leave, hj]
  · simpa [State.leave] using hfits
  · by_cases hne : c' = c
    · subst hne
      rw [held_self hc, hholds, held_self (s := s.leave q st ch x) hc]
      simp [State.leave, Pc.holds]
    · exact h.held_other (t := s.leave q st ch x) hc rfl (fun j hj _ => by simp [State.leave, hj]) c' hne

theorem same_states {p : Proc} (hp : p.state = (s.proc i).state) (j : Slot) :
    Woken (s.proc j).state ((s.set i p).proc j).state := woken_set (.inl hp) j

theorem zombie (h : Coherent s) (hc : (s.cpu c).ctx = .thread q) {st : Int32} {op : Slot} {n : Nat}
    (hpc : s.pc q = .reparent st op n) : Coherent (Procs.zombie s q st op) := by
  have hq : (Procs.zombie s q st op).pc q = .sched .dead := by simp [Procs.zombie]
  refine h.leave hc (by rw [hpc]; simp) rfl rfl (fun j hj => ?_) ?_ (h.locks.release
    (h.held_other hc rfl fun j hj _ => by simp [Procs.zombie, hj]) rfl ?_)
  · have := woken_set (woken_wakeup1 op (s.proc op)) j
    simpa [Procs.zombie, hj] using this
  · simp [Procs.zombie, Fits]
  · rw [held_self hc, held_self (s := Procs.zombie s q st op) hc, hq, hpc]
    exact List.Perm.swap _ _ _

theorem unchanged (j : Slot) : Woken (s.proc j).state (s.proc j).state := .inl rfl

/-- Every step of a thread keeps the state coherent. -/
theorem thread (h : Coherent s) (hc : (s.cpu c).ctx = .thread q) {k : Pc} (hpc : s.pc q = k)
    (ht : Thread s c q ok k t) : Coherent t := by
  have hheld : s.held c = k.holds q := by rw [held_self hc, hpc]
  cases ht with
  | acquire ha hfree => exact h.goto_locked hc hpc ha.here ha.there ha.making hfree ha.holds
  | forkNone | killNone | reparentTake | reparentNext | waitTake | waitNext =>
    exact h.goto_stay hc hpc rfl rfl rfl unchanged (by simp) (by simp) (by simp [Pc.making]) rfl
  | waitBack =>
    exact h.goto_stay hc hpc rfl rfl rfl (same_states rfl) (by simp) (by simp) (by rintro _ ⟨⟩) rfl
  | yield p | sleep n p | waitSleep => exact h.goto_leave hc hpc (by simp) rfl (by simp) (by simp)
  | alloc hst =>
    refine h.goto_stay hc hpc rfl rfl rfl (same_states rfl) (by simp) (by simp) (fun j hj => ?_) rfl
    injection hj with hj
    exact hj ▸ hst
  | copy i =>
    refine h.goto_stay hc hpc rfl rfl rfl unchanged (by simp) (by simp) (fun j hj => ?_) rfl
    exact h.making hc (by rw [hpc]; exact hj)
  | forkParent i =>
    refine h.goto_stay hc hpc rfl rfl rfl (same_states rfl) (by simp) (by simp) (fun j hj => ?_) rfl
    exact h.making hc (by rw [hpc]; exact hj)
  | allocNext | exitRead | waitNone | waitAlive | reapFail | waitReturn | killNext | yielded | forkret =>
    exact h.goto_release hc hpc rfl rfl rfl unchanged (by simp) (by simp) rfl rfl
  | allocFail | slept | reparentSet =>
    exact h.goto_release hc hpc rfl rfl rfl (same_states rfl) (by simp) (by simp) rfl rfl
  | copyFail i =>
    have hst : (s.proc i).state = .unused := h.making hc (by rw [hpc]; rfl)
    exact h.goto_release hc hpc rfl rfl rfl (same_states hst.symm) (by simp) (by simp) rfl rfl
  | exitInit st =>
    exact h.goto_release hc hpc rfl rfl rfl (woken_set (woken_wakeup1 _ _)) (by simp) (by simp) rfl rfl
  | @killHit x i hx =>
    have hw : Woken (s.proc i).state ({ s.proc i with killed := true } : Proc).wake.state := woken_wake _
    exact h.goto_release hc hpc rfl rfl rfl (woken_set hw) (by simp) (by simp) rfl rfl
  | zombie => exact h.zombie hc hpc
  | sched k => exact h.sched hc hpc
  | forkStart i =>
    have hst : (s.proc i).state = .unused := h.making hc (by rw [hpc]; rfl)
    have hiq : i ≠ q := by
      rintro rfl
      rw [h.state_running hc (by rw [hpc]; simp)] at hst
      cases hst
    refine h.refit hc (by rw [hpc]; simp) (k := .at .idle) (i := i) (by rw [hheld]; simp [Pc.holds])
      (by rw [hst]; simp) (by simp) rfl rfl (by simp [State.ret]) (fun j hj hji => by simp [State.ret, hj, hji])
      (fun j hj => by simp [State.ret, hj]) ?_ rfl (by rw [hpc]; rfl)
    simp [State.ret, hiq, Fits]
  | @reap addr i hst =>
    have hi : i ∈ s.held c := by rw [hheld]; simp [Pc.holds]
    refine h.refit hc (by rw [hpc]; simp) (k := .waitReturn) hi (by rw [hst]; simp) (by simp) rfl rfl
      (by simp) (fun j hj _ => by simp [hj]) (fun j hj => by simp [hj]) ?_ rfl (by rw [hpc]; rfl)
    have hf := h.fits i
    rw [hst] at hf
    have hiq : i ≠ q := by
      rintro rfl
      rw [h.state_running hc (by rw [hpc]; simp)] at hst
      cases hst
    have hnr := h.not_runs (by rw [hc]; simpa using Ne.symm hiq) hi (by rw [hst]; simp)
    have hdead : s.pc i = .back .dead := (hf.resolve_left fun hx => hnr hx.1).2
    simp [Proc.free, Fits, hiq, hdead]

/-- Every step keeps the state coherent. -/
theorem step (h : Coherent s) {a : Act nc} (ht : Step s a t) : Coherent t := by
  cases ht with
  | call hc hpc | exit hc hpc => exact h.goto_stay hc hpc rfl rfl rfl unchanged (by simp) (by simp) (by rintro _ ⟨⟩) rfl
  | pause hc hpc hfree => exact h.goto_locked hc hpc (by simp) (by simp) rfl hfree rfl
  | thread hc ht => exact h.thread hc rfl ht
  | @lock c i ok hc hfree =>
    have hidle : (s.cpu c).proc = none := h.idle (by rw [hc]; simp) (by rw [hc]; simp)
    have hm := h.scheduler_idle (t := (s.locked c i).switch c (s.cpu c).proc (.test i)) (c := c)
      (x := .test i) (by rw [hc]; simp) (fun _ => ⟨(by simp), (by simp)⟩) (by rw [hidle]; rfl) rfl rfl
    refine hm.coherent h (h.locks.acquire hm.held_other hfree rfl ?_)
    rw [State.held, hm.cpu_self, State.held, hc]
  | @restart c i ok hc =>
    have hidle : (s.cpu c).proc = none := h.idle (by rw [hc]; simp) (by rw [hc]; simp)
    have hm := h.scheduler_idle (t := s.switch c (s.cpu c).proc (.loop 0)) (c := c) (x := .loop 0)
      (by rw [hc]; simp) (fun _ => ⟨(by simp), (by simp)⟩) (by rw [hidle]; rfl) rfl rfl
    refine hm.coherent h (h.locks.same (fun c' => ?_) rfl)
    by_cases hne : c' = c
    · subst hne
      rw [State.held, hm.cpu_self, State.held, hc]
    · exact hm.held_other c' hne
  | resume hc hst => exact h.scheduler_run hc hst
  | @skip c i ok hc hst =>
    have hidle : (s.cpu c).proc = none := h.idle (by rw [hc]; simp) (by rw [hc]; simp)
    have hm := h.scheduler_idle (t := (s.release i).switch c (s.cpu c).proc (.loop (i + 1)))
      (x := .loop (i + 1)) (by rw [hc]; simp) (fun _ => ⟨(by simp), (by simp)⟩) (by rw [hidle]; rfl) rfl rfl
    refine hm.coherent h (h.locks.release hm.held_other rfl (.of_eq ?_))
    rw [State.held, hc, State.held, hm.cpu_self]
  | @back c i ok hc =>
    have hm := h.scheduler_idle (t := (s.release i).switch c none (.loop (i + 1)))
      (by rw [hc]; simp) (fun _ => ⟨(by simp), (by simp)⟩) rfl rfl rfl
    refine hm.coherent h (h.locks.release hm.held_other rfl (.of_eq ?_))
    rw [State.held, hc, State.held, hm.cpu_self]
  | @wakeup n i hfree hch =>
    have hst : ∀ j, Woken (s.proc j).state ((s.set i (s.proc i).wake).proc j).state :=
      woken_set (woken_wake _)
    exact ⟨h.locks.same (fun _ => rfl) rfl, h.current, h.alone, fun j => (hst j).fits (h.fits j),
      fun hj hi => (hst _).unused (h.making hj hi)⟩
  | wakeupOther => exact h

end Coherent

/-! ### Runs -/

/-- The runs of the machine; any step may be taken. -/
abbrev Run (s : State nc) (as : List (Act nc)) (t : State nc) : Prop :=
  (System.ofStep step).Run (fun _ _ => True) s as t

theorem coherent_boot : Coherent (boot nc) where
  locks := ⟨fun _ _ => by simp [boot, State.held], fun _ => List.nodup_nil⟩
  current _ _ := by simp [boot]
  alone h := nomatch h
  fits p := by
    have hno : ¬ (boot nc).runs p := by rintro ⟨c, hc⟩; cases hc
    rw [eq_false hno]
    by_cases hp : p = initproc
    · subst hp
      exact ⟨.forkret, (by simp), .inr ⟨id, rfl⟩⟩
    · simp [boot, hp, Proc.free, Fits]
  making h := nomatch h

theorem Run.coherent {as : List (Act nc)} (hrun : Run (boot nc) as s) : Coherent s :=
  System.Run.step_invariant (fun _ _ _ h _ ht => h.step (step_step ht)) hrun coherent_boot

/-- The slot that an action passes to `freeproc`: of a zombie that `wait` has found, or of a process
    that `fork` could not copy. -/
def Frees (s : State nc) : Act nc → Slot → Prop
  | .run c ok, p => ∃ q, (s.cpu c).ctx = .thread q ∧ (s.pc q = .uvmcopy p ∧ ok = false ∨
      ∃ addr, s.pc q = .waitTest addr p ∧ (s.proc p).state = .zombie ∧ (addr && !ok) = false)
  | _, _ => False

theorem Coherent.not_freed (h : Coherent s) {a : Act nc} {p : Slot} (hf : Frees s a p) (c : Fin nc) :
    (s.cpu c).proc ≠ some p := by
  cases a with
  | call | pause | wakeup => exact hf.elim
  | run c₀ ok =>
    obtain ⟨q, hc, hfrees⟩ := hf
    have hst : (s.proc p).state ≠ .running := by
      rcases hfrees with ⟨hpc, -⟩ | ⟨addr, -, hst, -⟩
      · rw [h.making hc (by rw [hpc]; rfl)]
        simp
      · rw [hst]
        simp
    have hheld : p ∈ s.held c₀ := by
      rw [Coherent.held_self hc]
      rcases hfrees with ⟨hpc, -⟩ | ⟨addr, hpc, -⟩ <;> simp [hpc, Pc.holds]
    have hpq : p ≠ q := by
      rintro rfl
      refine hst (h.state_running hc fun x hx => ?_)
      rcases hfrees with ⟨hpc, -⟩ | ⟨addr, hpc, -⟩ <;> simp [hpc] at hx
    refine h.not_current (by rw [hc]; simpa using Ne.symm hpq) (by rw [hc]; simp) hheld hst c

/-- A process whose lock is free is running iff exactly one processor has it; no two processors have
    the same process; and a process that a processor has is not freed. -/
theorem on_one_cpu {as : List (Act nc)} (hrun : Run (boot nc) as s) :
    (∀ p, s.lock p = none → ((s.proc p).state = .running ↔ ∃! c, (s.cpu c).proc = some p)) ∧
      (∀ c c' p, (s.cpu c).proc = some p → (s.cpu c').proc = some p → c = c') ∧
      ∀ a p, Frees s a p → ∀ c, (s.cpu c).proc ≠ some p := by
  have h := hrun.coherent
  refine ⟨fun p hfree => ⟨fun hst => ?_, ?_⟩, fun c c' p => h.alone, fun a p hf => h.not_freed hf⟩
  · have hf := h.fits p
    rw [hst] at hf
    obtain ⟨c, hc⟩ := hf.1
    have hp := (h.current c p).mpr (.inl hc)
    exact ⟨c, hp, fun c' hp' => h.alone hp' hp⟩
  · rintro ⟨c, hp, -⟩
    have hnot : p ∉ s.held c := fun hmem => by
      rw [(h.locks.held_iff p c).mpr hmem] at hfree
      cases hfree
    rcases (h.current c p).mp hp with hx | hx
    · refine h.state_running hx fun k hk => hnot ?_
      rw [Coherent.held_self hx, hk]
      exact List.mem_singleton_self p
    · exact absurd (by rw [State.held, hx]; exact List.mem_singleton_self p) hnot

/-- The first process runs on the first of two processors, and on that one alone. -/
theorem on_one_cpu_init : ∃ s : State 2, (s.proc initproc).state = .running ∧
    ∃! c, (s.cpu c).proc = some initproc := by
  let as : List (Act 2) := [.run 0 true, .run 0 true, .run 0 true]
  have hrun := System.run_exec (System.ofStep step) (fun _ _ => True) (boot 2) as (by decide)
  exact ⟨_, by decide, ((on_one_cpu hrun).1 initproc (by decide)).mp (by decide)⟩

end Xv6.Procs
