import Xv6.Schemes.Update
import Xv6.Kernel.Proc.OneCpu

/-! Parents and children.

    ```
    exit of p:    read p->parent = op     lock op, p     reparent     wakeup1(op), ZOMBIE
    exit of op:             reparent: p->parent = init
    wait of op:   lock op          scan the table          sleep
    ```

    Only its parent gives a process away, and it gives it to init. So the parent of an exiting process
    is the one it has read, or it is init. If it is the one it has read, then the process holds its
    lock when it becomes a zombie, and the parent is not in the middle of `wait`; and it has been woken
    up if it was asleep. -/

namespace Xv6.Procs
open State Update Function

variable {nc : Nat} {s t : State nc} {c : Fin nc} {q i j : Slot} {ok : Bool}

/-! ### Phases of a thread -/

/-- What matters about the place of a thread: whether it is in `exit`, the parent it has read there, how
    many slots `reparent` and the scan of `wait` have passed, and whether it sleeps in `wait`. -/
structure Phase where
  exiting : Bool := false
  orig : Option Slot := none
  passed : Nat := 0
  scanned : Nat := 0
  inWait : Bool := false

def Point.phase : Point → Phase
  | .exit _ | .exitSelf _ => { exiting := true }
  | .exitParent _ op => { exiting := true, orig := some op }
  | _ => {}

def Saved.phase : Saved → Phase
  | .resume _ p => p.phase
  | .waitBack _ => { inWait := true }
  | .forkret | .dead => {}

def Pc.phase : Pc → Phase
  | .at p | .pause _ p => p.phase
  | .exitInit _ | .exitRead _ => { exiting := true }
  | .exitLock _ op => { exiting := true, orig := some op }
  | .reparent _ op n => { exiting := true, orig := some op, passed := n }
  | .reparentLock _ op i | .reparentSet _ op i => { exiting := true, orig := some op, passed := i }
  | .waitScan _ n _ => { scanned := n }
  | .waitLock _ i | .waitTest _ i => { scanned := i }
  -- about to sleep, after the whole table has been scanned
  | .sched (.waitBack _) => { inWait := true, scanned := NPROC }
  | .sched k | .back k => k.phase
  | _ => {}

variable {k : Pc}

theorem Acquires.phase {k' : Pc} (h : Acquires q k i k') : k'.phase = k.phase := by cases h <;> rfl

/-! ### Channels -/

/-- A process sleeps on a process iff it is in `wait`, and then on itself. -/
structure Channels (s : State nc) : Prop where
  inWait : ∀ j r, (s.proc j).chan = some (.proc r) → (s.pc j).phase.inWait = true ∧ r = j
  chan : ∀ j, (s.pc j).phase.inWait = true → (s.proc j).chan = some (.proc j)

namespace Channels

theorem congr (h : Channels s) (hch : ∀ j, (t.proc j).chan = (s.proc j).chan)
    (hpc : ∀ j, (t.pc j).phase.inWait = (s.pc j).phase.inWait) : Channels t where
  inWait j r hj := by rw [hpc]; exact h.inWait j r (hch j ▸ hj)
  chan j hj := by rw [hch]; exact h.chan j (hpc j ▸ hj)

/-- The channel of `q` and the place of its thread change together. -/
theorem set (h : Channels s) {ch : Option Chan} {k : Pc} (hch : (t.proc q).chan = ch) (hk : t.pc q = k)
    (hother : ∀ j, j ≠ q → (t.proc j).chan = (s.proc j).chan ∧ t.pc j = s.pc j)
    (hself : ch = some (.proc q) ∧ k.phase.inWait = true ∨
      (∀ r, ch ≠ some (.proc r)) ∧ k.phase.inWait = false) : Channels t := by
  refine ⟨fun j r hj => ?_, fun j hj => ?_⟩
  · by_cases hjq : j = q
    · subst hjq
      rw [hch] at hj
      rw [hk]
      rcases hself with ⟨h₁, h₂⟩ | ⟨h₁, -⟩
      · rw [h₁] at hj
        exact ⟨h₂, by injection hj with hj; injection hj with hj; exact hj.symm⟩
      · exact absurd hj (h₁ r)
    · rw [(hother j hjq).1] at hj
      rw [(hother j hjq).2]
      exact h.inWait j r hj
  · by_cases hjq : j = q
    · subst hjq
      rw [hk] at hj
      rw [hch]
      rcases hself with ⟨h₁, -⟩ | ⟨-, h₂⟩
      · exact h₁
      · rw [h₂] at hj; cases hj
    · rw [(hother j hjq).2] at hj
      rw [(hother j hjq).1]
      exact h.chan j hj

/-- The slot of a process that is not in `wait` is freed. -/
theorem clear (h : Channels s) (hi : (s.pc i).phase.inWait = false) : Channels (s.set i .free) := by
  refine h.set (q := i) rfl rfl (fun j hj => by simp [hj]) (.inr ⟨fun r => ?_, hi⟩)
  simp [Proc.free]

/-- A process that is not in `wait` sleeps on no process. -/
theorem not_proc (h : Channels s) (hk : (s.pc j).phase.inWait = false) (r : Slot) :
    (s.proc j).chan ≠ some (.proc r) := fun hj => by
  rw [(h.inWait j r hj).1] at hk
  cases hk

end Channels

variable {β : Type}

theorem proj_set (π : Proc → β) {p : Proc} (hp : π p = π (s.proc i)) (j : Slot) :
    π ((s.set i p).proc j) = π (s.proc j) := proj_update π hp j

theorem chan_wake (p : Proc) : p.wake.chan = p.chan := by
  unfold Proc.wake
  split <;> rfl

theorem chan_wakeup1 (r : Slot) (p : Proc) : (p.wakeup1 r).chan = p.chan := by
  unfold Proc.wakeup1
  split
  · exact chan_wake p
  · rfl

theorem Point.not_inWait (p : Point) : p.phase.inWait = false := by cases p <;> rfl

namespace Channels

variable {k : Pc}

theorem goto (h : Channels s) {k' : Pc} (hpc : s.pc q = k) (htpc : t.pc = update s.pc q k')
    (hch : ∀ j, (t.proc j).chan = (s.proc j).chan) (hk : k'.phase.inWait = k.phase.inWait) :
    Channels t := by
  subst hpc
  refine h.congr hch fun j => ?_
  rw [htpc]
  exact proj_update (fun k : Pc => k.phase.inWait) hk j

theorem thread (h : Channels s) (hco : Coherent s) (hc : (s.cpu c).ctx = .thread q)
    (hpc : s.pc q = k) (ht : Thread s c q ok k t) : Channels t := by
  have hout := h.not_proc (j := q)
  cases ht with
  | acquire ha hfree => exact h.goto hpc rfl (fun _ => rfl) (by rw [ha.phase])
  | forkNone | killNone | reparentTake | reparentNext | waitTake | waitNext | copy | exitRead | allocNext |
    waitNone | waitAlive | reapFail | waitReturn | killNext | forkret =>
    exact h.goto hpc rfl (fun _ => rfl) rfl
  | yielded p => exact h.goto hpc rfl (fun _ => rfl) rfl
  | sched k => exact h.goto hpc rfl (fun _ => rfl) (by cases k <;> rfl)
  | alloc | allocFail | forkParent | reparentSet =>
    exact h.goto hpc rfl (proj_set Proc.chan rfl) rfl
  | exitInit st => exact h.goto hpc rfl (proj_set Proc.chan (chan_wakeup1 _ _)) rfl
  | @killHit x i hx =>
    exact h.goto hpc rfl (proj_set Proc.chan (chan_wake { s.proc i with killed := true })) rfl
  | yield p =>
    refine h.set (q := q) (k := .sched (.resume .yield p)) rfl (by simp [leave])
      (fun j hj => by simp [leave, hj]) (.inr ⟨fun r => ?_, p.not_inWait⟩)
    simpa [leave] using hout (by rw [hpc]; exact p.not_inWait) r
  | sleep n p =>
    refine h.set (q := q) (k := .sched (.resume (.sleep n) p)) rfl (by simp [leave])
      (fun j hj => by simp [leave, hj]) (.inr ⟨fun r => ?_, p.not_inWait⟩)
    simp [leave]
  | @waitSleep addr kids n hn =>
    refine h.set (q := q) (k := .sched (.waitBack addr)) rfl (by simp [leave])
      (fun j hj => by simp [leave, hj]) (.inl ⟨?_, rfl⟩)
    simp [leave]
  | slept n p =>
    refine h.set (q := q) (k := .at p) rfl (by simp) (fun j hj => by simp [hj])
      (.inr ⟨fun r => by simp, p.not_inWait⟩)
  | waitBack addr =>
    refine h.set (q := q) (k := .waitScan addr 0 false) rfl (by simp) (fun j hj => by simp [hj])
      (.inr ⟨fun r => by simp, rfl⟩)
  | @zombie st op n hn =>
    have hch : ∀ j, ((zombie s q st op).proc j).chan = (s.proc j).chan := fun j => by
      have hwoken := proj_set Proc.chan (chan_wakeup1 op (s.proc op)) j
      exact (proj_set Proc.chan (by rfl) j).trans hwoken
    exact h.goto hpc rfl hch rfl
  | copyFail i =>
    have hi : s.pc i = .back .dead := hco.dead_of_unused (hco.making hc (by rw [hpc]; rfl))
    exact (h.clear (by rw [hi]; rfl)).goto hpc rfl (fun _ => rfl) rfl
  | @reap addr i hst =>
    have hi : (s.pc i).phase.inWait = false := by
      rcases hco.dead_of_zombie hst with hi | hi <;> rw [hi] <;> rfl
    exact (h.clear hi).goto hpc rfl (fun _ => rfl) rfl
  | forkStart i =>
    have hi : s.pc i = .back .dead := hco.dead_of_unused (hco.making hc (by rw [hpc]; rfl))
    have hstart : Channels ((s.set i { s.proc i with state := .runnable }).goto i (.back .forkret)) :=
      h.goto hi rfl (proj_set Proc.chan rfl) rfl
    have hiq : i ≠ q := by
      rintro rfl
      rw [hpc] at hi
      cases hi
    exact hstart.goto (k := .forkStart i) (by simp [Ne.symm hiq, hpc]) rfl (fun _ => rfl) rfl

end Channels

/-! ### Parents -/

/-- The process exists and has not exited. -/
def ProcState.live : ProcState → Bool
  | .unused | .zombie => false
  | _ => true

/-- The process of `q` sleeps in `wait`, off its processor. -/
def State.asleep (s : State nc) (q : Slot) : Prop :=
  (∃ addr, s.pc q = .back (.waitBack addr)) ∧ (s.proc q).state = .sleeping

structure Family (s : State nc) : Prop where
  /-- Init does not exit. -/
  root : (s.proc initproc).state.live = true
  stays : (s.pc initproc).phase.exiting = false
  /-- An exiting process has read its parent, or it has been given to init since then. -/
  orig : ∀ q op, (s.pc q).phase.orig = some op →
    (s.proc q).parent = some op ∨ (s.proc q).parent = some initproc
  /-- A parent has not exited, and it has not got to the child when it gives its children away. -/
  alive : ∀ i r, (s.proc i).parent = some r → (s.proc r).state.live = true ∧ (s.pc r).phase.passed ≤ i
  /-- The parent of a zombie has not got to it in its scan, and does not sleep. -/
  seen : ∀ i q, (s.proc i).state = .zombie → (s.proc i).parent = some q → q ≠ initproc →
    (s.pc q).phase.scanned ≤ i ∧ ¬ s.asleep q

/-- A change of state that nobody counts as a birth or a death. -/
def Alike (st st' : ProcState) : Prop := st'.live = st.live ∧ (st' = .zombie → st = .zombie)

variable {st st' : ProcState}

theorem Woken.alike (h : Woken st st') : Alike st st' := by
  rcases h with rfl | ⟨rfl, rfl⟩
  · exact ⟨rfl, id⟩
  · exact ⟨rfl, nofun⟩

theorem Woken.sleeping (h : Woken st st') (hst : st' = .sleeping) :
    st = .sleeping := by
  rcases h with rfl | ⟨rfl, rfl⟩
  · exact hst
  · cases hst

theorem Pc.passed_of_stays (h : k.phase.exiting = false) : k.phase.passed = 0 := by
  cases k with
  | «at» p | pause w p => cases p <;> rfl
  | sched x | back x =>
    cases x with
    | resume w p => cases p <;> rfl
    | _ => rfl
  | reparent | reparentLock | reparentSet => cases h
  | _ => rfl

namespace Family

/-- Parents stay, and processes change their state, but none is born or dies. -/
theorem states (h : Family s) (hpc : t.pc = s.pc) (hparent : ∀ j, (t.proc j).parent = (s.proc j).parent)
    (hst : ∀ j, Alike (s.proc j).state (t.proc j).state) (hasleep : ∀ j, t.asleep j → s.asleep j) :
    Family t where
  root := (hst initproc).1.trans h.root
  stays := by rw [hpc]; exact h.stays
  orig q op hq := by
    rw [hparent]
    exact h.orig q op (hpc ▸ hq)
  alive i r hr := by
    rw [hparent] at hr
    rw [(hst r).1, hpc]
    exact h.alive i r hr
  seen i q hz hp hq := by
    rw [hparent] at hp
    rw [hpc]
    obtain ⟨h₁, h₂⟩ := h.seen i q ((hst i).2 hz) hp hq
    exact ⟨h₁, fun ha => h₂ (hasleep q ha)⟩

theorem woken (h : Family s) (hpc : t.pc = s.pc) (hparent : ∀ j, (t.proc j).parent = (s.proc j).parent)
    (hst : ∀ j, Woken (s.proc j).state (t.proc j).state) : Family t :=
  h.states hpc hparent (fun j => (hst j).alike) fun j ha => ⟨hpc ▸ ha.1, (hst j).sleeping ha.2⟩

theorem congr (h : Family s) (hproc : t.proc = s.proc) (hpc : t.pc = s.pc) : Family t :=
  h.woken hpc (fun _ => by rw [hproc]) fun _ => by rw [hproc]; exact .inl rfl

variable {k : Pc}

/-- The thread of `q` moves to `k`. -/
theorem move (h : Family s) (hexit : k.phase.exiting = true → q ≠ initproc)
    (horig : ∀ op, k.phase.orig = some op →
      (s.proc q).parent = some op ∨ (s.proc q).parent = some initproc)
    (hchild : ∀ j, (s.proc j).parent = some q → k.phase.passed ≤ j)
    (hzombie : ∀ j, (s.proc j).state = .zombie → (s.proc j).parent = some q → q ≠ initproc →
      k.phase.scanned ≤ j ∧ ¬ (s.goto q k).asleep q) : Family (s.goto q k) := by
  have hother : ∀ j, j ≠ q → (s.goto q k).pc j = s.pc j := fun j hj => by simp [hj]
  have hself : (s.goto q k).pc q = k := by simp
  refine ⟨h.root, ?_, fun r op hr => ?_, fun j r hr => ?_, fun j r hz hp hr => ?_⟩
  · by_cases hq : initproc = q
    · rw [hq, hself]
      exact Bool.eq_false_iff.mpr fun hx => hexit hx hq.symm
    · rw [hother _ hq]
      exact h.stays
  · by_cases hrq : r = q
    · subst hrq
      rw [hself] at hr
      exact horig op hr
    · rw [hother r hrq] at hr
      exact h.orig r op hr
  · refine ⟨(h.alive j r hr).1, ?_⟩
    by_cases hrq : r = q
    · subst hrq
      rw [hself]
      exact hchild j hr
    · rw [hother r hrq]
      exact (h.alive j r hr).2
  · by_cases hrq : r = q
    · subst hrq
      rw [hself]
      exact hzombie j hz hp hr
    · rw [hother r hrq]
      refine ⟨(h.seen j r hz hp hr).1, fun ha => (h.seen j r hz hp hr).2 ⟨?_, ha.2⟩⟩
      have := ha.1
      rwa [hother r hrq] at this

/-- It moves to a place of the same phase. -/
theorem goto (h : Family s) {k' : Pc} (hpc : s.pc q = k) (hproc : t.proc = s.proc)
    (htpc : t.pc = update s.pc q k') (hphase : k'.phase = k.phase)
    (hback : ∀ addr, k' ≠ .back (.waitBack addr)) : Family t := by
  subst hpc
  refine Family.congr (h.move (fun hx hq => ?_)
    (fun op hop => h.orig q op (hphase ▸ hop)) (fun j hj => hphase ▸ (h.alive j q hj).2)
    fun j hz hp hq => ⟨hphase ▸ (h.seen j q hz hp hq).1, ?_⟩) hproc htpc
  · rw [hphase, hq, h.stays] at hx
    cases hx
  · rintro ⟨⟨addr, ha⟩, -⟩
    rw [goto_pc, update_self] at ha
    exact hback addr ha

/-- It leaves `exit` or `wait`, or enters another system call. -/
theorem reset (h : Family s) (hproc : t.proc = s.proc) (htpc : t.pc = update s.pc q k)
    (hphase : k.phase = {}) (hback : ∀ addr, k ≠ .back (.waitBack addr)) : Family t := by
  refine Family.congr (h.move (by rw [hphase]; nofun) (by rw [hphase]; nofun)
    (by rw [hphase]; simp) fun j _ _ _ => ⟨by rw [hphase]; exact Nat.zero_le _, ?_⟩) hproc htpc
  rintro ⟨⟨addr, ha⟩, -⟩
  rw [goto_pc, update_self] at ha
  exact hback addr ha

/-- `yield` and `sleep` up to `swtch`. -/
theorem leave {x : Saved} (hmove : Family (s.goto q (.sched x)))
    (hrun : (s.proc q).state = .running) {st : ProcState} {ch : Option Chan}
    (hst : st = .runnable ∨ st = .sleeping) : Family (s.leave q st ch x) := by
  refine hmove.states rfl (proj_set Proc.parent rfl) (fun j => ?_) ?_
  · by_cases hj : j = q
    · subst hj
      rcases hst with rfl | rfl <;> simp [State.leave, Alike, hrun, ProcState.live]
    · simp [State.leave, hj, Alike]
  · rintro j ⟨⟨addr, hj⟩, hsl⟩
    have hjq : j ≠ q := by
      rintro rfl
      simp [State.leave] at hj
    exact ⟨⟨addr, hj⟩, by simpa [State.leave, hjq] using hsl⟩

/-- A slot whose process is dead is freed. -/
theorem free (h : Family s) (hst : (s.proc i).state.live = false)
    (hi : s.pc i = .sched .dead ∨ s.pc i = .back .dead) : Family (s.set i .free) := by
  have hroot : i ≠ initproc := by
    rintro rfl
    rw [h.root] at hst
    cases hst
  have hother : ∀ j, j ≠ i → (s.set i .free).proc j = s.proc j := fun j hj => by simp [hj]
  have hself : (s.set i .free).proc i = .free := by simp
  have hparent : ∀ {j r}, ((s.set i .free).proc j).parent = some r → j ≠ i ∧ (s.proc j).parent = some r := by
    intro j r hr
    by_cases hj : j = i
    · subst hj
      rw [hself] at hr
      cases hr
    · rw [hother j hj] at hr
      exact ⟨hj, hr⟩
  refine ⟨by rw [hother _ hroot.symm]; exact h.root, h.stays, fun q op hq => ?_, fun j r hr => ?_,
    fun j q hz hp hq => ?_⟩
  · have hqi : q ≠ i := by
      rintro rfl
      rw [set_pc] at hq
      rcases hi with hi | hi <;> rw [hi] at hq <;> cases hq
    rw [hother q hqi]
    exact h.orig q op hq
  · obtain ⟨-, hr'⟩ := hparent hr
    have hri : r ≠ i := by
      rintro rfl
      rw [(h.alive j r hr').1] at hst
      cases hst
    rw [hother r hri]
    exact h.alive j r hr'
  · obtain ⟨hj, hp'⟩ := hparent hp
    rw [hother j hj] at hz
    obtain ⟨h₁, h₂⟩ := h.seen j q hz hp' hq
    refine ⟨h₁, fun ha => h₂ ⟨ha.1, ?_⟩⟩
    have hqi : q ≠ i := by
      rintro rfl
      rw [(h.alive j q hp').1] at hst
      cases hst
    have := ha.2
    rwa [hother q hqi] at this

/-- A slot gets a parent: from `fork`, when it has no process, or from `reparent`, which is init. -/
theorem setParent (h : Family s) {r : Slot} (hr : (s.proc r).state.live = true)
    (hpassed : (s.pc r).phase.passed = 0) (horig : (s.pc i).phase.orig = none ∨ r = initproc)
    (hz : (s.proc i).state ≠ .zombie ∨ r = initproc) :
    Family (s.set i { s.proc i with parent := some r }) := by
  have hstate : ∀ j, ((s.set i { s.proc i with parent := some r }).proc j).state = (s.proc j).state :=
    proj_set Proc.state rfl
  have hparent : ∀ j, j ≠ i →
      ((s.set i { s.proc i with parent := some r }).proc j).parent = (s.proc j).parent := fun j hj => by
    simp [hj]
  have hself : ((s.set i { s.proc i with parent := some r }).proc i).parent = some r := by simp
  refine ⟨by rw [hstate]; exact h.root, h.stays, fun q op hq => ?_, fun j x hx => ?_,
    fun j x hzj hp hx => ?_⟩
  · by_cases hqi : q = i
    · subst hqi
      rw [hself]
      rcases horig with hno | rfl
      · rw [set_pc, hno] at hq
        cases hq
      · exact .inr rfl
    · rw [hparent q hqi]
      exact h.orig q op hq
  · rw [hstate]
    by_cases hj : j = i
    · subst hj
      obtain rfl : r = x := Option.some.inj (hself.symm.trans hx)
      exact ⟨hr, by rw [set_pc, hpassed]; exact Nat.zero_le _⟩
    · rw [hparent j hj] at hx
      exact h.alive j x hx
  · rw [hstate] at hzj
    have hj : j ≠ i := by
      rintro rfl
      obtain rfl : r = x := Option.some.inj (hself.symm.trans hp)
      exact hx (hz.resolve_left fun hne => hne hzj)
    rw [hparent j hj] at hp
    obtain ⟨h₁, h₂⟩ := h.seen j x hzj hp hx
    exact ⟨h₁, fun ha => h₂ ⟨ha.1, hstate x ▸ ha.2⟩⟩

variable {st : Int32} {op : Slot}

/-- `reparent` gets past a slot that is not, or no longer, a child. -/
theorem pass (h : Family s) (hpc : s.pc q = k)
    (hk : k.phase = (Pc.reparent st op i).phase) (hi : (s.proc i).parent ≠ some q) :
    Family (s.goto q (.reparent st op (i + 1))) := by
  subst hpc
  refine h.move (fun _ hq => ?_) (fun x hx => h.orig q x (by rw [hk]; exact hx)) (fun j hj => ?_)
    fun j _ _ _ => ⟨Nat.zero_le _, ?_⟩
  · have := h.stays
    rw [← hq, hk] at this
    cases this
  · have hle := (h.alive j q hj).2
    rw [hk] at hle
    exact Nat.lt_of_le_of_ne hle fun heq => hi (Fin.ext heq.symm ▸ hj)
  · rintro ⟨⟨addr, ha⟩, -⟩
    simp at ha

/-- `wait` gets past a slot that is not a child, or no zombie. -/
theorem scan (h : Family s) {addr kids : Bool} (hpc : s.pc q = k)
    (hk : k.phase = (Pc.waitScan addr i kids).phase)
    (hi : (s.proc i).parent ≠ some q ∨ (s.proc i).state ≠ .zombie) :
    Family (s.goto q (.waitScan addr (i + 1) kids)) := by
  subst hpc
  refine h.move nofun nofun (fun _ _ => Nat.zero_le _) fun j hz hp hq => ⟨?_, ?_⟩
  · have hle := (h.seen j q hz hp hq).1
    rw [hk] at hle
    refine Nat.lt_of_le_of_ne hle fun heq => ?_
    obtain rfl : i = j := Fin.ext heq
    exact hi.elim (fun hne => hne hp) fun hne => hne hz
  · rintro ⟨⟨addr, ha⟩, -⟩
    simp at ha

/-- `fork` starts the process of slot `i`. -/
theorem birth (h : Family s) (hst : (s.proc i).state = .unused) :
    Family ((s.set i { s.proc i with state := .runnable }).goto i (.back .forkret)) := by
  have hmove : Family (s.goto i (.back .forkret)) := h.reset rfl rfl rfl nofun
  have hchildless : ∀ j, (s.proc j).parent ≠ some i := fun j hj => by
    have := (h.alive j i hj).1
    rw [hst] at this
    cases this
  have hother : ∀ j, j ≠ i → (s.set i { s.proc i with state := .runnable }).proc j = s.proc j :=
    fun j hj => by simp [hj]
  have hparent : ∀ j, ((s.set i { s.proc i with state := .runnable }).proc j).parent = (s.proc j).parent :=
    proj_set Proc.parent rfl
  refine ⟨?_, hmove.stays, fun q op hq => ?_, fun j r hr => ?_, fun j r hz hp hr => ?_⟩
  · by_cases hi : initproc = i
    · simp [hi, ProcState.live]
    · rw [goto_proc, hother _ hi]
      exact h.root
  · rw [goto_proc, hparent]
    exact hmove.orig q op hq
  · rw [goto_proc, hparent] at hr
    have hri : r ≠ i := by
      rintro rfl
      exact hchildless j hr
    rw [goto_proc, hother r hri]
    exact hmove.alive j r hr
  · rw [goto_proc, hparent] at hp
    have hri : r ≠ i := by
      rintro rfl
      exact hchildless j hp
    have hj : j ≠ i := by
      rintro rfl
      simp at hz
    rw [goto_proc, hother j hj] at hz
    obtain ⟨h₁, h₂⟩ := hmove.seen j r hz hp hr
    refine ⟨h₁, fun ha => h₂ ⟨ha.1, ?_⟩⟩
    have := ha.2
    rwa [goto_proc, hother r hri] at this

theorem scanned_holds (h : 0 < k.phase.scanned) : q ∈ k.holds q ∧ ∀ x, k ≠ .back x := by
  cases k with
  | «at» p | pause w p => cases p <;> cases h
  | sched x => exact ⟨List.mem_singleton_self q, nofun⟩
  | back x =>
    cases x with
    | resume w p => cases p <;> cases h
    | _ => cases h
  | waitScan | waitLock => exact ⟨List.mem_singleton_self q, nofun⟩
  | waitTest addr i => exact ⟨by simp [Pc.holds], nofun⟩
  | _ => cases h

/-- The parent whose lock an exiting process holds is not in the middle of `wait`. -/
theorem parent_not_scanning (hco : Coherent s) (hop : op ∈ s.held c)
    (hc : (s.cpu c).ctx ≠ .thread op) (hlive : (s.proc op).state.live = true) :
    (s.pc op).phase.scanned = 0 := by
  by_contra hne
  obtain ⟨hmem, hback⟩ := scanned_holds (Nat.pos_of_ne_zero hne)
  have hnr : ¬ s.runs op := by
    rintro ⟨c', hc'⟩
    have hop' : op ∈ s.held c' := by rw [Coherent.held_self hc']; exact hmem
    obtain rfl := hco.locks.alone hop hop'
    exact hc hc'
  have hf := hco.fits op
  cases hst : (s.proc op).state with
  | unused | zombie => rw [hst] at hlive; cases hlive
  | running => rw [hst] at hf; exact hnr hf.1
  | runnable | sleeping =>
    rw [hst] at hf
    obtain ⟨x, -, hx | hx⟩ := hf
    · exact hnr hx.1
    · exact hback x hx.2

/-- A process that sleeps in `wait` is woken up by `wakeup1`. -/
theorem wakeup1_wakes (hch : Channels s) (hx : ∃ addr, s.pc op = .back (.waitBack addr)) :
    ((s.proc op).wakeup1 op).state ≠ .sleeping := by
  obtain ⟨addr, hx⟩ := hx
  have hchan : (s.proc op).chan = some (.proc op) := hch.chan op (by rw [hx]; rfl)
  unfold Proc.wakeup1 Proc.wake
  rw [if_pos hchan]
  split
  · simp
  · assumption

theorem parent_wakeup1 (r : Slot) (p : Proc) : (p.wakeup1 r).parent = p.parent := by
  unfold Proc.wakeup1 Proc.wake
  split
  · split <;> rfl
  · rfl

/-- The end of `exit`. -/
theorem death (h : Family s) (hco : Coherent s) (hch : Channels s) (hc : (s.cpu c).ctx = .thread q)
    {n : Nat} (hn : ¬ n < NPROC) (hpc : s.pc q = .reparent st op n) :
    Family (zombie s q st op) := by
  have hheld : s.held c = [q, op] := by rw [Coherent.held_self hc, hpc]; rfl
  have hroot : q ≠ initproc := by
    rintro rfl
    have := h.stays
    rw [hpc] at this
    cases this
  have hchildless : ∀ j, (s.proc j).parent ≠ some q := fun j hj => by
    have hle := (h.alive j q hj).2
    rw [hpc] at hle
    exact hn (Nat.lt_of_le_of_lt hle j.isLt)
  have hmove : Family (s.goto q (.sched .dead)) := h.reset rfl rfl rfl nofun
  have hwoken : ∀ j, j ≠ q → Woken (s.proc j).state ((zombie s q st op).proc j).state := fun j hj => by
    have := woken_set (woken_wakeup1 op (s.proc op)) j
    simpa [zombie, hj] using this
  have hparent : ∀ j, ((zombie s q st op).proc j).parent = (s.proc j).parent := fun j => by
    have hw := proj_set Proc.parent (parent_wakeup1 op (s.proc op)) j
    exact (proj_set Proc.parent (by rfl) j).trans hw
  refine ⟨?_, hmove.stays, fun r x hr => ?_, fun j r hr => ?_, fun j r hz hp hr => ?_⟩
  · rw [(hwoken _ hroot.symm).alike.1]
    exact h.root
  · rw [hparent]
    exact hmove.orig r x hr
  · rw [hparent] at hr
    have hrq : r ≠ q := by
      rintro rfl
      exact hchildless j hr
    rw [(hwoken r hrq).alike.1]
    exact hmove.alive j r hr
  · rw [hparent] at hp
    have hrq : r ≠ q := by
      rintro rfl
      exact hchildless j hp
    by_cases hj : j = q
    · -- the new zombie: its parent is the one it has locked and woken up
      subst hj
      obtain rfl : r = op := by
        rcases h.orig j op (by rw [hpc]; rfl) with hop | hop
        · exact Option.some.inj (hp.symm.trans hop)
        · exact absurd (Option.some.inj (hp.symm.trans hop)) hr
      have hpcr : (zombie s j st r).pc r = s.pc r := by simp [zombie, hrq]
      rw [hpcr, parent_not_scanning hco (by rw [hheld]; simp) (by rw [hc]; simpa using hrq.symm)
        (h.alive j r hp).1]
      refine ⟨Nat.zero_le _, fun ha => wakeup1_wakes hch (hpcr ▸ ha.1) ?_⟩
      simpa [zombie, hrq] using ha.2
    · obtain ⟨h₁, h₂⟩ := hmove.seen j r ((hwoken j hj).alike.2 hz) hp hr
      exact ⟨h₁, fun ha => h₂ ⟨ha.1, (hwoken r hrq).sleeping ha.2⟩⟩

end Family

end Xv6.Procs
