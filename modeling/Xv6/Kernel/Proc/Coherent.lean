import Mathlib.Data.List.Perm.Basic
import Xv6.Kernel.Proc.Machine

/-! Which processor holds which lock and runs which process.

    ```
    state      on a processor           not on a processor
    RUNNING    in its code              -
    RUNNABLE   on its way to swtch      saved by swtch
    SLEEPING   on its way to swtch      saved by swtch
    ZOMBIE     on its way to swtch      dead
    UNUSED     -                        dead
    ```

    The locks a processor holds can be read off from what it executes. A process that is on its way to
    `swtch` holds its lock, so who finds a process lock free sees the process either running or
    off the processor. -/

namespace Xv6.Procs
open State Function

variable {nc : Nat} {s t : State nc} {c c' : Fin nc} {q i j : Slot}

/-! ### Locks -/

/-- The process locks that a processor holds. -/
def State.held (s : State nc) (c : Fin nc) : List Slot :=
  match (s.cpu c).ctx with
  | .loop _ => []
  | .test i | .back i => [i]
  | .thread q => (s.pc q).holds q

structure Locks (s : State nc) : Prop where
  held_iff : ∀ i c, s.lock i = some c ↔ i ∈ s.held c
  nodup : ∀ c, (s.held c).Nodup

namespace Locks

theorem alone (h : Locks s) (hi : i ∈ s.held c) (hi' : i ∈ s.held c') : c = c' :=
  Option.some.inj (((h.held_iff i c).mpr hi).symm.trans ((h.held_iff i c').mpr hi'))

theorem same (h : Locks s) (hheld : ∀ c, t.held c = s.held c) (hlock : t.lock = s.lock) : Locks t where
  held_iff i c := by rw [hlock, hheld, h.held_iff]
  nodup c := by rw [hheld]; exact h.nodup c

theorem acquire (h : Locks s) (hother : ∀ c', c' ≠ c → t.held c' = s.held c') (hfree : s.lock i = none)
    (hlock : t.lock = update s.lock i (some c)) (hheld : t.held c = i :: s.held c) : Locks t := by
  have hnone : ∀ c', i ∉ s.held c' := fun c' hi => by
    rw [(h.held_iff i c').mpr hi] at hfree
    cases hfree
  refine ⟨fun j c' => ?_, fun c' => ?_⟩
  · rw [hlock]
    by_cases hc : c' = c
    · subst hc
      by_cases hj : j = i
      · subst hj; simp [hheld]
      · simp [hheld, hj, h.held_iff]
    · rw [hother c' hc]
      by_cases hj : j = i
      · subst hj
        simp [Ne.symm hc, hnone]
      · rw [update_of_ne hj, h.held_iff]
  · by_cases hc : c' = c
    · subst hc
      rw [hheld]
      exact List.nodup_cons.mpr ⟨hnone _, h.nodup _⟩
    · rw [hother c' hc]
      exact h.nodup c'

theorem release (h : Locks s) (hother : ∀ c', c' ≠ c → t.held c' = s.held c')
    (hlock : t.lock = update s.lock i none) (hheld : (s.held c).Perm (i :: t.held c)) :
    Locks t := by
  have hnodup := hheld.nodup_iff.mp (h.nodup c)
  have hi : i ∈ s.held c := hheld.mem_iff.mpr List.mem_cons_self
  refine ⟨fun j c' => ?_, fun c' => ?_⟩
  · rw [hlock]
    by_cases hj : j = i
    · subst hj
      have hj' : j ∉ t.held c' := fun hj' => by
        by_cases hc : c' = c
        · subst hc; exact (List.nodup_cons.mp hnodup).1 hj'
        · exact hc (h.alone (hother c' hc ▸ hj') hi)
      simp [hj']
    · rw [update_of_ne hj, h.held_iff]
      by_cases hc : c' = c
      · subst hc; rw [hheld.mem_iff, List.mem_cons, or_iff_right hj]
      · rw [hother c' hc]
  · by_cases hc : c' = c
    · subst hc; exact (List.nodup_cons.mp hnodup).2
    · rw [hother c' hc]; exact h.nodup c'

end Locks

/-! ### Processes on processors -/

/-- A processor executes the kernel thread of `q`. -/
def State.runs (s : State nc) (q : Slot) : Prop := ∃ c, (s.cpu c).ctx = .thread q

/-- The state of a process fits to where its thread is. -/
def Fits (running : Prop) (k : Pc) : ProcState → Prop
  | .running => running ∧ ∀ x, k ≠ .sched x
  | .runnable | .sleeping => ∃ x, x ≠ .dead ∧ (running ∧ k = .sched x ∨ ¬ running ∧ k = .back x)
  | .zombie => running ∧ k = .sched .dead ∨ ¬ running ∧ k = .back .dead
  | .unused => ¬ running ∧ k = .back .dead

/-- The slot that `fork` is filling. -/
def Pc.making : Pc → Option Slot
  | .uvmcopy i | .forkParent i | .forkStart i => some i
  | _ => none

/-- `fork` is filling the slot. -/
def State.making (s : State nc) (i : Slot) : Prop := ∃ q, (s.pc q).making = some i

theorem making_goto {k k' : Pc} (hpc : s.pc q = k) (htpc : t.pc = update s.pc q k')
    (hk : k.making = some i → k'.making = some i) (h : s.making i) : t.making i := by
  obtain ⟨r, hr⟩ := h
  refine ⟨r, ?_⟩
  rw [htpc]
  by_cases hrq : r = q
  · subst hrq
    rw [hpc] at hr
    rw [update_self]
    exact hk hr
  · rw [update_of_ne hrq]
    exact hr

structure Coherent (s : State nc) : Prop where
  locks : Locks s
  current : ∀ c q, (s.cpu c).proc = some q ↔ (s.cpu c).ctx = .thread q ∨ (s.cpu c).ctx = .back q
  alone : ∀ {c c' q}, (s.cpu c).proc = some q → (s.cpu c').proc = some q → c = c'
  fits : ∀ q, Fits (s.runs q) (s.pc q) (s.proc q).state
  making : ∀ {c q i}, (s.cpu c).ctx = .thread q → (s.pc q).making = some i → (s.proc i).state = .unused

/-- A change of state that others make: they wake a process up. -/
def Woken (st st' : ProcState) : Prop := st' = st ∨ st = .sleeping ∧ st' = .runnable

theorem Woken.fits {st st' : ProcState} {r : Prop} {k : Pc} (h : Woken st st') (hf : Fits r k st) :
    Fits r k st' := by
  rcases h with rfl | ⟨rfl, rfl⟩ <;> exact hf

theorem Woken.unused {st st' : ProcState} (h : Woken st st') (hst : st = .unused) : st' = .unused := by
  rcases h with rfl | ⟨rfl, rfl⟩
  · exact hst
  · cases hst

theorem woken_wake (p : Proc) : Woken p.state p.wake.state := by
  unfold Proc.wake
  split
  · rename_i h; exact .inr ⟨h, rfl⟩
  · exact .inl rfl

theorem woken_wakeup1 (q : Slot) (p : Proc) : Woken p.state (p.wakeup1 q).state := by
  unfold Proc.wakeup1
  split
  · exact woken_wake p
  · exact .inl rfl

namespace Coherent

theorem thread_inj (h : Coherent s) (hc : (s.cpu c).ctx = .thread q) (hc' : (s.cpu c').ctx = .thread q) :
    c = c' :=
  h.alone ((h.current c q).mpr (.inl hc)) ((h.current c' q).mpr (.inl hc'))

/-- A thread in its code is that of a running process. -/
theorem state_running (h : Coherent s) (hc : (s.cpu c).ctx = .thread q) (hk : ∀ x, s.pc q ≠ .sched x) :
    (s.proc q).state = .running := by
  have hf := h.fits q
  have hruns : s.runs q := ⟨c, hc⟩
  cases hst : (s.proc q).state with
  | running => rfl
  | unused => rw [hst] at hf; exact absurd hruns hf.1
  | zombie =>
    rw [hst] at hf
    rcases hf with hx | hx
    · exact absurd hx.2 (hk _)
    · exact absurd hruns hx.1
  | runnable | sleeping =>
    rw [hst] at hf
    obtain ⟨x, -, hx | hx⟩ := hf
    · exact absurd hx.2 (hk x)
    · exact absurd hruns hx.1

/-- A thread that fills a slot runs. -/
theorem runs_of_making (h : Coherent s) (hq : (s.pc q).making = some i) : s.runs q := by
  have hf := h.fits q
  cases hst : (s.proc q).state with
  | running => rw [hst] at hf; exact hf.1
  | unused => rw [hst] at hf; rw [hf.2] at hq; cases hq
  | zombie =>
    rw [hst] at hf
    rcases hf with hx | hx <;> rw [hx.2] at hq <;> cases hq
  | runnable | sleeping =>
    rw [hst] at hf
    obtain ⟨x, -, hx | hx⟩ := hf <;> rw [hx.2] at hq <;> cases hq

theorem unused_of_making (h : Coherent s) (hq : (s.pc q).making = some i) :
    (s.proc i).state = .unused := by
  obtain ⟨c, hc⟩ := h.runs_of_making hq
  exact h.making hc hq

theorem dead_of_unused (h : Coherent s) (hst : (s.proc i).state = .unused) : s.pc i = .back .dead := by
  have hf := h.fits i
  rw [hst] at hf
  exact hf.2

theorem dead_of_zombie (h : Coherent s) (hst : (s.proc i).state = .zombie) :
    s.pc i = .sched .dead ∨ s.pc i = .back .dead := by
  have hf := h.fits i
  rw [hst] at hf
  exact hf.imp And.right And.right

/-- The locks of another processor do not change when the thread of `q` moves. -/
theorem held_other (h : Coherent s) (hc : (s.cpu c).ctx = .thread q) (hcpu : t.cpu = s.cpu)
    (hpc : ∀ j, j ≠ q → s.runs j → t.pc j = s.pc j) (c' : Fin nc) (hne : c' ≠ c) :
    t.held c' = s.held c' := by
  unfold State.held
  rw [hcpu]
  cases hx : (s.cpu c').ctx with
  | loop i | test i | back i => rfl
  | thread j =>
    have hj : j ≠ q := by
      rintro rfl
      exact hne (h.thread_inj hx hc)
    simp only [hpc j hj ⟨c', hx⟩]

theorem held_self (hc : (s.cpu c).ctx = .thread q) : s.held c = (s.pc q).holds q := by
  rw [State.held, hc]

end Coherent

/-! ### Steps that let every process be -/

/-- The thread of `q` moves to `k`; processes stay as they are, or are woken up. -/
structure Moved (s t : State nc) (c : Fin nc) (q : Slot) (k : Pc) : Prop where
  thread : (s.cpu c).ctx = .thread q
  here : ∀ x, s.pc q ≠ .sched x
  there : ∀ x, k ≠ .sched x
  cpu : t.cpu = s.cpu
  pc : t.pc = update s.pc q k
  states : ∀ j, Woken (s.proc j).state (t.proc j).state
  making : ∀ i, k.making = some i → (s.proc i).state = .unused

theorem runs_congr (hcpu : t.cpu = s.cpu) : t.runs = s.runs := by
  funext q
  unfold State.runs
  rw [hcpu]

namespace Moved

variable {k : Pc}

theorem coherent (m : Moved s t c q k) (h : Coherent s) (hlocks : Locks t) : Coherent t where
  locks := hlocks
  current := by rw [m.cpu]; exact h.current
  alone := by rw [m.cpu]; exact h.alone
  fits j := by
    rw [runs_congr m.cpu, m.pc]
    refine (m.states j).fits ?_
    by_cases hj : j = q
    · subst hj
      rw [update_self, h.state_running m.thread m.here]
      exact ⟨⟨c, m.thread⟩, m.there⟩
    · rw [update_of_ne hj]
      exact h.fits j
  making {c' j i} hc' hi := by
    rw [m.cpu] at hc'
    rw [m.pc] at hi
    refine (m.states i).unused ?_
    by_cases hj : j = q
    · subst hj
      rw [update_self] at hi
      exact m.making i hi
    · rw [update_of_ne hj] at hi
      exact h.making hc' hi

theorem held_other (m : Moved s t c q k) (h : Coherent s) (c' : Fin nc) (hne : c' ≠ c) :
    t.held c' = s.held c' :=
  h.held_other m.thread m.cpu (fun j hj _ => by rw [m.pc, update_of_ne hj]) c' hne

theorem held_self (m : Moved s t c q k) : t.held c = k.holds q := by
  rw [Coherent.held_self (by rw [m.cpu]; exact m.thread), m.pc, update_self]

theorem stay (m : Moved s t c q k) (h : Coherent s) (hlock : t.lock = s.lock)
    (hholds : k.holds q = (s.pc q).holds q) : Coherent t := by
  refine m.coherent h (h.locks.same (fun c' => ?_) hlock)
  by_cases hc : c' = c
  · subst hc
    rw [m.held_self, hholds, Coherent.held_self m.thread]
  · exact m.held_other h c' hc

theorem acquire (m : Moved s t c q k) (h : Coherent s) (hfree : s.lock i = none)
    (hlock : t.lock = update s.lock i (some c)) (hholds : k.holds q = i :: (s.pc q).holds q) :
    Coherent t :=
  m.coherent h (h.locks.acquire (m.held_other h) hfree hlock
    (by rw [m.held_self, hholds, Coherent.held_self m.thread]))

theorem release (m : Moved s t c q k) (h : Coherent s) (hlock : t.lock = update s.lock i none)
    (hholds : ((s.pc q).holds q).Perm (i :: k.holds q)) : Coherent t :=
  m.coherent h (h.locks.release (m.held_other h) hlock
    (by rw [m.held_self, Coherent.held_self m.thread]; exact hholds))

end Moved

theorem woken_set {p : Proc} (h : Woken (s.proc i).state p.state) (j : Slot) :
    Woken (s.proc j).state ((s.set i p).proc j).state := by
  by_cases hj : j = i
  · subst hj; simpa [State.set] using h
  · exact .inl (by simp [State.set, hj])

/-! ### Steps that change what a process does -/

namespace Coherent

/-- A process that a processor executes and whose lock another thread holds is in its code. -/
theorem not_runs (h : Coherent s) (hc : (s.cpu c).ctx ≠ .thread i) (hi : i ∈ s.held c)
    (hst : (s.proc i).state ≠ .running) : ¬ s.runs i := by
  rintro ⟨c', hc'⟩
  have hsched : ∃ x, s.pc i = .sched x := by
    by_contra hne
    exact hst (h.state_running hc' fun x hx => hne ⟨x, hx⟩)
  obtain ⟨x, hx⟩ := hsched
  have hheld : i ∈ s.held c' := by
    rw [held_self hc', hx]
    exact List.mem_singleton_self i
  obtain rfl := h.locks.alone hi hheld
  exact hc hc'

/-- And no scheduler has just got it back. -/
theorem not_current (h : Coherent s) (hc : (s.cpu c).ctx ≠ .thread i) (hb : (s.cpu c).ctx ≠ .back i)
    (hi : i ∈ s.held c) (hst : (s.proc i).state ≠ .running) (c' : Fin nc) :
    (s.cpu c').proc ≠ some i := by
  intro hp
  rcases (h.current c' i).mp hp with hx | hx
  · exact h.not_runs hc hi hst ⟨c', hx⟩
  · have hheld : i ∈ s.held c' := by rw [State.held, hx]; exact List.mem_singleton_self i
    obtain rfl := h.locks.alone hi hheld
    exact hb hx

/-- The thread of `q` is about to switch to the scheduler. -/
theorem leave (h : Coherent s) (hc : (s.cpu c).ctx = .thread q) (hk : ∀ x, s.pc q ≠ .sched x)
    {x : Saved} (hcpu : t.cpu = s.cpu) (hpc : t.pc = update s.pc q (.sched x))
    (hothers : ∀ j, j ≠ q → Woken (s.proc j).state (t.proc j).state)
    (hself : Fits True (.sched x) (t.proc q).state) (hlocks : Locks t) : Coherent t where
  locks := hlocks
  current := by rw [hcpu]; exact h.current
  alone := by rw [hcpu]; exact h.alone
  fits j := by
    rw [runs_congr hcpu, hpc]
    by_cases hj : j = q
    · subst hj
      have hruns : s.runs j = True := eq_true ⟨c, hc⟩
      rw [update_self, hruns]
      exact hself
    · rw [update_of_ne hj]
      exact (hothers j hj).fits (h.fits j)
  making {c' j i} hc' hi := by
    rw [hcpu] at hc'
    rw [hpc] at hi
    by_cases hj : j = q
    · subst hj
      rw [update_self] at hi
      cases hi
    · rw [update_of_ne hj] at hi
      have hun := h.making hc' hi
      refine (hothers i ?_).unused hun
      rintro rfl
      rw [h.state_running hc hk] at hun
      cases hun

theorem making_held {k : Pc} (h : k.making = some i) : i ∈ k.holds q := by
  cases k <;> simp_all [Pc.making, Pc.holds]

/-- Two threads do not fill the same slot. -/
theorem making_inj (h : Coherent s) {r : Slot} (hq : (s.pc q).making = some i)
    (hr : (s.pc r).making = some i) : r = q := by
  obtain ⟨c, hc⟩ := h.runs_of_making hq
  obtain ⟨c', hc'⟩ := h.runs_of_making hr
  have hi : i ∈ s.held c := by
    rw [held_self hc]
    exact making_held hq
  have hi' : i ∈ s.held c' := by
    rw [held_self hc']
    exact making_held hr
  obtain rfl := h.locks.alone hi hi'
  rw [hc] at hc'
  injection hc' with hqr
  exact hqr.symm

/-- `fork` fills a slot that no other processor can be filling. -/
theorem not_making (h : Coherent s) (hi : i ∈ s.held c) (hc : (s.cpu c).ctx = .thread q)
    (hq : (s.pc q).making ≠ some i) : ¬ s.making i := by
  rintro ⟨r, hr⟩
  obtain ⟨c', hc'⟩ := h.runs_of_making hr
  have hi' : i ∈ s.held c' := by
    rw [held_self hc']
    exact making_held hr
  obtain rfl := h.locks.alone hi hi'
  rw [hc] at hc'
  injection hc' with hqr
  exact hq (hqr ▸ hr)

/-- The thread of `q` turns a process that it has locked, and that is not running, into another one. -/
theorem refit (h : Coherent s) (hc : (s.cpu c).ctx = .thread q) (hk : ∀ x, s.pc q ≠ .sched x)
    (hi : i ∈ s.held c) (hst : (s.proc i).state ≠ .running) {k : Pc} (hk' : ∀ x, k ≠ .sched x)
    (hmake : k.making = none) (hcpu : t.cpu = s.cpu) (hpcq : t.pc q = k)
    (hpc : ∀ j, j ≠ q → j ≠ i → t.pc j = s.pc j) (hproc : ∀ j, j ≠ i → t.proc j = s.proc j)
    (hfit : Fits False (t.pc i) (t.proc i).state) (hlock : t.lock = update s.lock i none)
    (hholds : ((s.pc q).holds q).Perm (i :: k.holds q)) : Coherent t := by
  have hrun := h.state_running hc hk
  have hiq : i ≠ q := by
    rintro rfl
    exact hst hrun
  have hnr : ¬ s.runs i := h.not_runs (by rw [hc]; simpa using Ne.symm hiq) hi hst
  have hother : ∀ j, j ≠ q → s.runs j → t.pc j = s.pc j := fun j hj hr =>
    hpc j hj fun hji => hnr (hji ▸ hr)
  have hheld : t.held c = k.holds q := by
    rw [held_self (by rw [hcpu]; exact hc), hpcq]
  refine ⟨h.locks.release (h.held_other hc hcpu hother) hlock (by rw [hheld, held_self hc]; exact hholds),
    by rw [hcpu]; exact h.current, by rw [hcpu]; exact h.alone, fun j => ?_, fun {c' j i'} hj hi' => ?_⟩
  · rw [runs_congr hcpu]
    by_cases hji : j = i
    · subst hji
      rw [eq_false hnr]
      exact hfit
    · rw [hproc j hji]
      by_cases hjq : j = q
      · subst hjq
        rw [hpcq, hrun]
        exact ⟨⟨c, hc⟩, hk'⟩
      · rw [hpc j hjq hji]
        exact h.fits j
  · rw [hcpu] at hj
    have hjq : j ≠ q := by
      rintro rfl
      rw [hpcq, hmake] at hi'
      cases hi'
    rw [hother j hjq ⟨c', hj⟩] at hi'
    have hne : i' ≠ i := by
      rintro rfl
      have hheld' : i' ∈ s.held c' := by
        rw [held_self hj]
        exact making_held hi'
      obtain rfl := h.locks.alone hi hheld'
      rw [hc] at hj
      injection hj with hj
      exact hjq hj.symm
    rw [hproc i' hne]
    exact h.making hj hi'

end Coherent

/-! ### Steps of schedulers -/

/-- A processor other than `c` executes the kernel thread of `j`. -/
def State.runsElsewhere (s : State nc) (c : Fin nc) (j : Slot) : Prop :=
  ∃ c', c' ≠ c ∧ (s.cpu c').ctx = .thread j

theorem runs_iff_elsewhere (hc : (s.cpu c).ctx ≠ .thread j) : s.runs j ↔ s.runsElsewhere c j := by
  constructor
  · rintro ⟨c', hc'⟩
    exact ⟨c', by rintro rfl; exact hc hc', hc'⟩
  · rintro ⟨c', -, hc'⟩
    exact ⟨c', hc'⟩

/-- The processor `c` goes on with `x`, with `c->proc = o`. -/
structure Switched (s t : State nc) (c : Fin nc) (o : Option Slot) (x : Ctx) : Prop where
  cpu : t.cpu = update s.cpu c ⟨o, x⟩
  pc : ∀ j, s.runsElsewhere c j → t.pc j = s.pc j
  current : ∀ q, o = some q ↔ x = .thread q ∨ x = .back q
  sole : ∀ q, o = some q → ∀ c', c' ≠ c → (s.cpu c').proc ≠ some q
  fits : ∀ j, Fits (x = .thread j ∨ s.runsElsewhere c j) (t.pc j) (t.proc j).state
  making : ∀ j, x = .thread j → (t.pc j).making = none
  unused : ∀ i, (s.proc i).state = .unused → (t.proc i).state = .unused

namespace Switched

variable {o : Option Slot} {x : Ctx}

theorem cpu_self (m : Switched s t c o x) : t.cpu c = ⟨o, x⟩ := by rw [m.cpu, update_self]

theorem cpu_other (m : Switched s t c o x) {c' : Fin nc} (hc : c' ≠ c) : t.cpu c' = s.cpu c' := by
  rw [m.cpu, update_of_ne hc]

theorem runs (m : Switched s t c o x) (j : Slot) : t.runs j ↔ x = .thread j ∨ s.runsElsewhere c j := by
  constructor
  · rintro ⟨c', hc'⟩
    by_cases hc : c' = c
    · subst hc
      rw [m.cpu_self] at hc'
      exact .inl hc'
    · rw [m.cpu_other hc] at hc'
      exact .inr ⟨c', hc, hc'⟩
  · rintro (hx | ⟨c', hc, hc'⟩)
    · exact ⟨c, by rw [m.cpu_self]; exact hx⟩
    · exact ⟨c', by rw [m.cpu_other hc]; exact hc'⟩

theorem held_other (m : Switched s t c o x) (c' : Fin nc) (hc : c' ≠ c) : t.held c' = s.held c' := by
  unfold State.held
  rw [m.cpu_other hc]
  cases hx : (s.cpu c').ctx with
  | loop i | test i | back i => rfl
  | thread j => simp only [m.pc j ⟨c', hc, hx⟩]

theorem coherent (m : Switched s t c o x) (h : Coherent s) (hlocks : Locks t) : Coherent t where
  locks := hlocks
  current c' q := by
    by_cases hc : c' = c
    · subst hc
      rw [m.cpu_self]
      exact m.current q
    · rw [m.cpu_other hc]
      exact h.current c' q
  alone {c₁ c₂ q} h₁ h₂ := by
    by_cases hc₁ : c₁ = c <;> by_cases hc₂ : c₂ = c
    · rw [hc₁, hc₂]
    · subst hc₁
      rw [m.cpu_self] at h₁
      rw [m.cpu_other hc₂] at h₂
      exact absurd h₂ (m.sole q h₁ c₂ hc₂)
    · subst hc₂
      rw [m.cpu_self] at h₂
      rw [m.cpu_other hc₁] at h₁
      exact absurd h₁ (m.sole q h₂ c₁ hc₁)
    · rw [m.cpu_other hc₁] at h₁
      rw [m.cpu_other hc₂] at h₂
      exact h.alone h₁ h₂
  fits j := by
    rw [propext (m.runs j)]
    exact m.fits j
  making {c' j i} hj hi := by
    by_cases hc : c' = c
    · subst hc
      rw [m.cpu_self] at hj
      rw [m.making j hj] at hi
      cases hi
    · rw [m.cpu_other hc] at hj
      rw [m.pc j ⟨c', hc, hj⟩] at hi
      exact m.unused i (h.making hj hi)

end Switched

namespace Coherent

/-- `swtch` in `sched`. -/
theorem sched (h : Coherent s) (hc : (s.cpu c).ctx = .thread q) {x : Saved} (hx : s.pc q = .sched x) :
    Coherent ((s.goto q (.back x)).switch c (s.cpu c).proc (.back q)) := by
  have hq : (s.cpu c).proc = some q := (h.current c q).mpr (.inl hc)
  have helse : ∀ j, s.runsElsewhere c j → j ≠ q := by
    rintro j ⟨c', hne, hj⟩ rfl
    exact hne (h.thread_inj hj hc)
  have hm : Switched s ((s.goto q (.back x)).switch c (s.cpu c).proc (.back q)) c (some q) (.back q) := by
    refine ⟨by simp [hq], fun j hj => by simp [helse j hj], fun j => by simp, fun j hj c' hne hp => ?_,
      fun j => ?_, nofun, fun i hi => hi⟩
    · injection hj with hj
      exact hne (h.alone hp (hj ▸ hq))
    · have hf := h.fits j
      by_cases hjq : j = q
      · subst hjq
        have hno : ¬ (Ctx.back j = .thread j ∨ s.runsElsewhere c j) := by
          rintro (hr | hr)
          · cases hr
          · exact helse j hr rfl
        rw [hx] at hf
        simp only [switch_proc, goto_proc, switch_pc, goto_pc, update_self]
        cases hst : (s.proc j).state with
        | running => rw [hst] at hf; exact absurd rfl (hf.2 x)
        | unused => rw [hst] at hf; exact absurd ⟨c, hc⟩ hf.1
        | zombie =>
          rw [hst] at hf
          rcases hf with ⟨-, hyx⟩ | ⟨hnr, -⟩
          · injection hyx with hyx
            exact .inr ⟨hno, by rw [hyx]⟩
          · exact absurd ⟨c, hc⟩ hnr
        | runnable | sleeping =>
          rw [hst] at hf
          obtain ⟨y, hy, ⟨-, hyx⟩ | ⟨hnr, -⟩⟩ := hf
          · injection hyx with hyx
            exact ⟨x, hyx ▸ hy, .inr ⟨hno, rfl⟩⟩
          · exact absurd ⟨c, hc⟩ hnr
      · have hr : (Ctx.back q = .thread j ∨ s.runsElsewhere c j) = s.runs j := by
          rw [propext (runs_iff_elsewhere (by rw [hc]; simpa using Ne.symm hjq))]
          simp
        rw [hr]
        simpa [hjq] using hf
  refine hm.coherent h (h.locks.same (fun c' => ?_) rfl)
  by_cases hne : c' = c
  · subst hne
    rw [held_self hc, hx, State.held, hm.cpu_self]
    rfl
  · exact hm.held_other c' hne

/-- A scheduler that runs no process goes on with no process. -/
theorem idle (h : Coherent s) (hc : ∀ q, (s.cpu c).ctx ≠ .thread q) (hb : ∀ q, (s.cpu c).ctx ≠ .back q) :
    (s.cpu c).proc = none := by
  cases hp : (s.cpu c).proc with
  | none => rfl
  | some q =>
    rcases (h.current c q).mp hp with hx | hx
    · exact absurd hx (hc q)
    · exact absurd hx (hb q)

theorem scheduler_idle (h : Coherent s) (hc : ∀ q, (s.cpu c).ctx ≠ .thread q) {x : Ctx}
    (hx : ∀ q, x ≠ .thread q ∧ x ≠ .back q) (hcpu : t.cpu = update s.cpu c ⟨none, x⟩)
    (hpc : t.pc = s.pc) (hproc : t.proc = s.proc) : Switched s t c none x := by
  refine ⟨hcpu, fun j _ => by rw [hpc], fun q => by simp [hx q], nofun, fun j => ?_,
    fun j hj => absurd hj (hx j).1, fun i hi => by rw [hproc]; exact hi⟩
  have hr : (x = .thread j ∨ s.runsElsewhere c j) = s.runs j := by
    rw [propext (runs_iff_elsewhere (hc j))]
    simp [hx j]
  rw [hr, hpc, hproc]
  exact h.fits j

/-- `swtch` in `scheduler`. -/
theorem scheduler_run (h : Coherent s) (hc : (s.cpu c).ctx = .test i)
    (hst : (s.proc i).state = .runnable) :
    Coherent ((s.set i { s.proc i with state := .running }).switch c (some i) (.thread i)) := by
  have hheld : i ∈ s.held c := by rw [State.held, hc]; exact List.mem_singleton_self i
  have hnr : ¬ s.runs i := h.not_runs (by rw [hc]; nofun) hheld (by rw [hst]; nofun)
  have hf := h.fits i
  rw [hst] at hf
  obtain ⟨x, -, ⟨hr, -⟩ | ⟨-, hx⟩⟩ := hf
  · exact absurd hr hnr
  have hm : Switched s ((s.set i { s.proc i with state := .running }).switch c (some i) (.thread i)) c
      (some i) (.thread i) := by
    refine ⟨rfl, fun _ _ => rfl, fun q => by simp, fun q hq c' hne => ?_, fun j => ?_, fun j hj => ?_,
      fun j hj => ?_⟩
    · injection hq with hq
      subst hq
      exact h.not_current (by rw [hc]; nofun) (by rw [hc]; nofun) hheld (by rw [hst]; nofun) c'
    · by_cases hji : j = i
      · subst hji
        simp only [switch_proc, set_proc, switch_pc, set_pc, update_self, hx]
        exact ⟨.inl trivial, nofun⟩
      · have hr : (Ctx.thread i = .thread j ∨ s.runsElsewhere c j) = s.runs j := by
          rw [propext (runs_iff_elsewhere (by rw [hc]; nofun))]
          simp [Ne.symm hji]
        rw [hr]
        simpa [hji] using h.fits j
    · injection hj with hj
      subst hj
      rw [switch_pc, set_pc, hx]
      rfl
    · have hji : j ≠ i := by
        rintro rfl
        rw [hst] at hj
        cases hj
      simpa [hji] using hj
  refine hm.coherent h (h.locks.same (fun c' => ?_) rfl)
  by_cases hne : c' = c
  · subst hne
    rw [State.held, hm.cpu_self, State.held, hc]
    simp only [switch_pc, set_pc, hx]
    rfl
  · exact hm.held_other c' hne

end Coherent

end Xv6.Procs
