import Mathlib.Data.Fintype.Card
import Xv6.Schemes.Update
import Xv6.Kernel.Bio.Machine

/-! Group commit: how `begin_op`, `log_write`, `end_op` and `commit` share the log.

    Only the phase a process is in matters here, not how far it got with a buffer. A step on a
    buffer changes no phase and nothing of the log, so the invariants are stated over the view of
    the state that keeps the log and the phases. -/

namespace Xv6.Bio
open Function Update
open Log (Geometry blockAt)

/-- The phases of a process, as the log sees them. -/
inductive Phase (np : Nat) where
  | boot
  | bootErase
  | client
  | logWrite
  | beginAcquire
  | beginTest
  | sleepLock
  | sleepState
  | sleeping
  | wakened
  | endAcquire
  | endTest
  | wakeup (qs : List (Fin np))
  | endRelease
  | commit
  | writing
  -- at the head of the loop of `install_trans`, or in its body
  | install (tail : Nat) (body : Bool)
  | erase
  | endAcquire2
  | endReset

variable {np : Nat}

def Head.phase : Head → Phase np
  | .record => .writing
  | .erase => .erase
  | .boot => .bootErase

def Cont.phase : Cont → Phase np
  | .client => .client
  | .readsb => .boot
  | .readHead => .boot
  | .logTo _ => .writing
  | .logFrom _ _ => .writing
  | .head h => h.phase
  | .instLog boot tail => if boot then .boot else .install tail true
  | .instHome boot tail _ => if boot then .boot else .install tail true

def Ret.phase : Ret → Phase np
  | .client => .client
  | .readsb => .boot
  | .readHead => .boot
  | .logFrom _ _ => .writing
  | .logTo _ => .writing
  | .head .record => .install 0 false
  | .head .erase => .endAcquire2
  | .head .boot => .bootErase
  | .instLog boot tail _ => if boot then .boot else .install (tail + 1) false
  | .instHome boot tail => if boot then .boot else .install (tail + 1) false

def PC.phase : PC np → Phase np
  | .idle => .client
  | .bget _ _ k => k.phase
  | .acquire _ _ _ k => k.phase
  | .fill _ _ _ k => k.phase
  | .release _ k => k.phase
  | .putref _ k => k.phase
  | .logWrite _ => .logWrite
  | .beginAcquire => .beginAcquire
  | .beginTest => .beginTest
  | .sleepLock => .sleepLock
  | .sleepState => .sleepState
  | .sleeping => .sleeping
  | .wakened => .wakened
  | .endAcquire => .endAcquire
  | .endTest => .endTest
  | .wakeup qs => .wakeup qs
  | .endRelease => .endRelease
  | .commit => .commit
  | .writeLog _ => .writing
  | .logCopy _ _ _ => .writing
  | .headCopy h _ => h.phase
  | .install boot tail => if boot then .boot else .install tail false
  | .installCopy boot tail _ _ => if boot then .boot else .install tail true
  | .bunpin boot tail _ _ => if boot then .boot else .install (tail + 1) false
  | .endAcquire2 => .endAcquire2
  | .endReset => .endReset
  | .readHeadCopy _ => .boot
  | .bootDone => .bootErase

/-- The process is running `fsinit`. -/
def Phase.boots : Phase np → Bool
  | .boot | .bootErase => true
  | _ => false

/-- The process holds `log.lock`. -/
def Phase.holds : Phase np → Bool
  | .beginTest | .sleepLock | .endTest | .wakeup _ | .endRelease | .endReset => true
  | _ => false

/-- The process is between setting `committing` and resetting it. -/
def Phase.commits : Phase np → Bool
  | .endRelease | .commit | .writing | .install _ _ | .erase | .endAcquire2 | .endReset => true
  | _ => false

/-- The process is in the part of a commit after `lh.n = 0`. -/
def Phase.cleared : Phase np → Bool
  | .erase | .endAcquire2 | .endReset => true
  | _ => false

/-- The process is in a phase only an operation in progress can be in. -/
def Phase.needsOp : Phase np → Bool
  | .logWrite | .endAcquire | .endTest => true
  | _ => false

/-- The process has found it must wait and has not been woken. -/
def Phase.dozes : Phase np → Bool
  | .sleepLock | .sleepState | .sleeping => true
  | _ => false

/-- The log and the phases of the processes. -/
structure View (np : Nat) where
  lock : Option (Fin np)
  outstanding : Nat
  committing : Bool
  lh : List Nat
  booted : Bool
  phase : Fin np → Phase np
  inOp : Fin np → Bool
  ops : List (Op np)
  installed : List Nat

def view (s : State np) : View np :=
  ⟨s.lock, s.outstanding, s.committing, s.lh, s.booted, fun p => (s.pc p).phase, s.inOp, s.ops,
    s.installed⟩

/-- Blocks passed to `log_write` by the operations of the group. -/
def logged (ops : List (Op np)) : List Nat := ops.flatMap Op.blocks

/-- The invariant of the group-commit protocol. -/
structure GroupInv (v : View np) : Prop where
  /-- Before the boot is done nobody but the boot process has left client code. -/
  boot : v.booted = false → v.ops = [] ∧ ∀ p, (v.phase p).boots = true ∨ v.phase p = .client
  booted : v.booted = true → ∀ p, (v.phase p).boots = false
  bootOne : ∀ p q, (v.phase p).boots = true → (v.phase q).boots = true → p = q
  bootErase : ∀ p, v.phase p = .bootErase → v.lh = []
  lock : ∀ p, v.lock = some p ↔ (v.phase p).holds = true
  committing : v.committing = true ↔ ∃ p, (v.phase p).commits = true
  unique : ∀ p q, (v.phase p).commits = true → (v.phase q).commits = true → p = q
  inOp : ∀ p, v.inOp p = true → v.phase p = .client ∨ (v.phase p).needsOp = true
  needsOp : ∀ p, (v.phase p).needsOp = true → v.inOp p = true
  outstanding : v.outstanding = (Finset.univ.filter fun p => v.inOp p = true).card
  exclusive : v.committing = true → v.outstanding = 0
  /-- Whoever waits will be woken: by the running commit, by an operation that has yet to end, or
      by a `wakeup` loop that has not come to it. -/
  wakeup : ∀ q, (v.phase q).dozes = true → v.committing = true ∨ 0 < v.outstanding ∨
    ∃ p qs, v.phase p = .wakeup qs ∧ q ∈ qs
  empty : v.booted = true → v.committing = false → v.outstanding = 0 → v.lh = []
  nodup : v.booted = true → v.lh.Nodup
  recorded : v.booted = true → (∀ p, (v.phase p).cleared = false) →
    ∀ b, b ∈ v.lh ↔ b ∈ logged v.ops
  running : ∀ p, v.inOp p = true ↔ ∃ o ∈ v.ops, o.pid = p ∧ o.ended = false
  installing : ∀ p t b, v.phase p = .install t b →
    t + b.toNat ≤ v.lh.length ∧ v.installed = v.lh.take t
  writing : ∀ p, v.phase p = .endRelease ∨ v.phase p = .commit ∨ v.phase p = .writing →
    v.installed = []
  installed : ∀ p, (v.phase p).cleared = true →
    v.lh = [] ∧ v.installed.Nodup ∧ ∀ b, b ∈ v.installed ↔ b ∈ logged v.ops

/-! ### Steps on buffers -/

theorem phase_update (pc : Fin np → PC np) (p : Fin np) (x : PC np) :
    (fun q => (update pc p x q).phase) =
      update (fun q => (pc q).phase) p x.phase := by
  funext q
  exact update_rec (fun hq => by rw [hq, update_self]) fun hq => by rw [update_of_ne hq]

variable {p : Fin np}

theorem phase_update_same {pc : Fin np → PC np} {x : PC np}
    (h : x.phase = (pc p).phase) :
    (fun q => (update pc p x q).phase) = fun q => (pc q).phase := by
  rw [phase_update, h]
  exact update_eq_self p fun q => (pc q).phase

theorem Cont.goto_phase (lh : List Nat) (b : BufId) (k : Cont) :
    (k.goto lh b : PC np).phase = k.phase := by
  cases k <;> rfl

theorem Ret.goto_phase (g : Geometry) (k : Ret) : (k.goto g : PC np).phase = k.phase := by
  rcases k with _ | _ | _ | _ | _ | h | _ | _
  case head => cases h <;> rfl
  all_goals rfl

/-- The actions that leave the log and the phases alone. -/
def Act.onBuffers : Act np → Bool
  | .bread .. | .brelse .. | .modify .. | .bwrite .. | .logWriteTooBig .. | .logWriteOutside ..
  | .bgetHit .. | .bgetRecycle .. | .bgetPanic .. | .acquire .. | .fill .. | .release .. | .putref ..
  | .endPanic .. | .writeLogNext .. | .writeLogDone .. | .logCopy .. | .bunpin .. => true
  | _ => false

theorem view_next_of_onBuffers {g : Geometry} {s : State np} {a : Act np} (hg : guard g s a)
    (ha : a.onBuffers = true) : view (next g s a) = view s := by
  have hpc : ∀ p x, x.phase = (s.pc p).phase →
      (fun q => (update s.pc p x q).phase) = fun q => (s.pc q).phase := fun p x h =>
    phase_update_same h
  cases a <;> simp only [Act.onBuffers, Bool.false_eq_true] at ha
  case modify | bwrite | logWriteTooBig | logWriteOutside | bgetPanic | endPanic => rfl
  all_goals
    simp only [guard] at hg
    simp only [view, next, store]
    rw [hpc]
  case fill => rw [Cont.goto_phase, hg]; rfl
  case putref => rw [Ret.goto_phase, hg]; rfl
  case bread | brelse | bgetHit | bgetRecycle | acquire | writeLogNext | writeLogDone =>
    rw [hg.1]; rfl
  all_goals rw [hg]; rfl

/-! ### Changes of phase -/

variable {v : View np}

theorem GroupInv.lock_update (h : GroupInv v) {x : Phase np} {l : Option (Fin np)}
    (hlock : l = v.lock ∧ x.holds = (v.phase p).holds ∨
      v.lock = none ∧ l = some p ∧ x.holds = true ∨
      v.lock = some p ∧ l = none ∧ x.holds = false) (q : Fin np) :
    l = some q ↔ (update v.phase p x q).holds = true := by
  have hq := h.lock q
  refine update_rec (fun hqp => ?_) fun hqp => ?_
  · subst hqp
    rcases hlock with ⟨rfl, hx⟩ | ⟨-, rfl, hx⟩ | ⟨-, rfl, hx⟩
    · rwa [hx]
    · simp [hx]
    · simp [hx]
  · rcases hlock with ⟨rfl, -⟩ | ⟨hv, rfl, -⟩ | ⟨hv, rfl, -⟩
    · exact hq
    all_goals
      rw [hv] at hq
      simpa [Ne.symm hqp] using hq

/-- A process changes its phase, possibly together with `log.lock`, and nothing else happens. -/
theorem GroupInv.move (h : GroupInv v) {x : Phase np}
    {l : Option (Fin np)}
    (hboot : v.booted = false → x.boots = true ∨ x = .client)
    (hboots : x.boots = true → (v.phase p).boots = true)
    (hbootErase : x = .bootErase → v.lh = [])
    (hlock : l = v.lock ∧ x.holds = (v.phase p).holds ∨
      v.lock = none ∧ l = some p ∧ x.holds = true ∨
      v.lock = some p ∧ l = none ∧ x.holds = false)
    (hcommits : x.commits = (v.phase p).commits)
    (hop : v.inOp p = true → x = .client ∨ x.needsOp = true)
    (hneeds : x.needsOp = true → v.inOp p = true)
    (hdozes : x.dozes = true →
      (v.phase p).dozes = true ∨ v.committing = true ∨ 0 < v.outstanding)
    (hwakeup : ∀ qs, v.phase p = .wakeup qs → ∀ q ∈ qs, (v.phase q).dozes = true →
      ∃ qs', x = .wakeup qs' ∧ q ∈ qs')
    (hcleared : (v.phase p).cleared = true → x.cleared = true)
    (hinstall : ∀ t b, x = .install t b →
      t + b.toNat ≤ v.lh.length ∧ v.installed = v.lh.take t)
    (hwriting : x = .endRelease ∨ x = .commit ∨ x = .writing → v.installed = [])
    (hinstalled : x.cleared = true →
      v.lh = [] ∧ v.installed.Nodup ∧ ∀ b, b ∈ v.installed ↔ b ∈ logged v.ops) :
    GroupInv { v with lock := l, phase := update v.phase p x } where
  boot hb := by
    dsimp only
    exact ⟨(h.boot hb).1, fun q => update_rec (fun _ => hboot hb) fun _ => (h.boot hb).2 q⟩
  booted hb q := by
    dsimp only
    refine update_rec (fun _ => Bool.eq_false_iff.mpr fun hx => ?_) fun _ => h.booted hb q
    exact absurd (hboots hx) (by simp [h.booted hb p])
  bootOne q r hq hr := by
    have hstay : ∀ q, (update v.phase p x q).boots = true → (v.phase q).boots = true := fun q =>
      update_rec (fun hqp => hqp ▸ hboots) fun _ => id
    exact h.bootOne q r (hstay q hq) (hstay r hr)
  bootErase q := by dsimp only; exact update_rec (fun _ => hbootErase) fun _ => h.bootErase q
  lock := h.lock_update hlock
  committing := h.committing.trans (exists_congr fun q => by rw [proj_update Phase.commits hcommits])
  unique q r := by
    simp only [proj_update Phase.commits hcommits]
    exact h.unique q r
  inOp q hq := by dsimp only; exact update_rec (fun hqp => hop (hqp ▸ hq)) fun _ => h.inOp q hq
  needsOp q := by dsimp only; exact update_rec (fun hqp => hqp ▸ hneeds) fun _ => h.needsOp q
  outstanding := h.outstanding
  exclusive := h.exclusive
  wakeup q hq := by
    have hold : (update v.phase p x q).dozes = true →
        (v.phase q).dozes = true ∨ v.committing = true ∨ 0 < v.outstanding :=
      update_rec (fun hqp => hqp ▸ hdozes) fun _ => .inl
    rcases hold hq with hd | hc | ho
    · rcases h.wakeup q hd with hc | ho | ⟨r, qs, hr, hmem⟩
      · exact .inl hc
      · exact .inr (.inl ho)
      · by_cases hrp : r = p
        · subst hrp
          obtain ⟨qs', hx, hmem'⟩ := hwakeup qs hr q hmem hd
          exact .inr (.inr ⟨r, qs', by simpa using hx, hmem'⟩)
        · exact .inr (.inr ⟨r, qs, by simpa [hrp] using hr, hmem⟩)
    · exact .inl hc
    · exact .inr (.inl ho)
  empty := h.empty
  nodup := h.nodup
  recorded hb hcl := h.recorded hb fun q => by
    by_cases hqp : q = p
    · subst hqp
      have := hcl q
      simp only [update_self] at this
      cases hc : (v.phase q).cleared
      · rfl
      · rw [hcleared hc] at this; simp at this
    · simpa [hqp] using hcl q
  running := h.running
  installing q := by dsimp only; exact update_rec (fun _ => hinstall) fun _ => h.installing q
  writing q := by dsimp only; exact update_rec (fun _ => hwriting) fun _ => h.writing q
  installed q := by dsimp only; exact update_rec (fun _ => hinstalled) fun _ => h.installed q

/-- A phase other than client code is only reached after the boot. -/
theorem GroupInv.booted_of (h : GroupInv v)
    (hb : (v.phase p).boots = false) (hc : v.phase p ≠ .client) : v.booted = true := by
  cases hv : v.booted
  · rcases (h.boot hv).2 p with h1 | h1
    · rw [hb] at h1; simp at h1
    · exact absurd h1 hc
  · rfl

theorem GroupInv.not_inOp (h : GroupInv v)
    (hc : v.phase p ≠ .client) (hn : (v.phase p).needsOp = false) : v.inOp p = false := by
  cases hi : v.inOp p
  · rfl
  · rcases h.inOp p hi with h1 | h1
    · exact absurd h1 hc
    · rw [hn] at h1; simp at h1

/-- While an operation is outstanding no commit runs. -/
theorem GroupInv.not_committing (h : GroupInv v) (hp : v.inOp p = true) :
    v.committing = false ∧ 0 < v.outstanding := by
  have hpos : 0 < v.outstanding := by
    rw [h.outstanding]
    exact Finset.card_pos.mpr ⟨p, by simp [hp]⟩
  refine ⟨?_, hpos⟩
  cases hc : v.committing
  · rfl
  · have := h.exclusive hc; omega

/-- Before `lh.n = 0` the header lists exactly the blocks the operations of the group logged. -/
theorem GroupInv.lh_of_commits (h : GroupInv v)
    (hp : (v.phase p).commits = true) (hcl : (v.phase p).cleared = false) :
    v.lh.Nodup ∧ ∀ b, b ∈ v.lh ↔ b ∈ logged v.ops := by
  have hb : v.booted = true := by
    refine h.booted_of (p := p) ?_ ?_ <;> cases hx : v.phase p <;> simp_all [Phase.commits, Phase.boots]
  refine ⟨h.nodup hb, h.recorded hb fun q => ?_⟩
  cases hq : (v.phase q).cleared
  · rfl
  · have hqc : (v.phase q).commits = true := by
      cases hx : v.phase q <;> simp_all [Phase.commits, Phase.cleared]
    rw [h.unique q p hqc hp, hcl] at hq
    exact hq.symm

section phases
variable {v : View np} {p : Fin np}

variable {f : Fin np → Bool}

theorem card_update_true (hp : f p = false) :
    (Finset.univ.filter fun q => update f p true q = true).card =
      (Finset.univ.filter fun q => f q = true).card + 1 := by
  have hset : (Finset.univ.filter fun q => update f p true q = true) =
      insert p (Finset.univ.filter fun q => f q = true) := by
    ext q
    by_cases hq : q = p
    · subst hq; simp
    · simp [hq]
  rw [hset, Finset.card_insert_of_notMem (by simp [hp])]

theorem card_update_false (hp : f p = true) :
    (Finset.univ.filter fun q => update f p false q = true).card =
      (Finset.univ.filter fun q => f q = true).card - 1 := by
  have hset : (Finset.univ.filter fun q => update f p false q = true) =
      (Finset.univ.filter fun q => f q = true).erase p := by
    ext q
    by_cases hq : q = p
    · subst hq; simp
    · simp [hq]
  rw [hset, Finset.card_erase_of_mem (by simp [hp])]

/-- `begin_op` admits an operation. -/
theorem GroupInv.enter (h : GroupInv v) (hp : v.phase p = .beginTest) (hc : v.committing = false) :
    GroupInv { v with
      outstanding := v.outstanding + 1, lock := none, phase := update v.phase p .client,
      inOp := update v.inOp p true, ops := ⟨p, [], false⟩ :: v.ops } := by
  have hi : v.inOp p = false := h.not_inOp (by simp [hp]) (by rw [hp]; rfl)
  have hb : v.booted = true := h.booted_of (by rw [hp]; rfl) (by simp [hp])
  have hl : v.lock = some p := (h.lock p).mpr (by rw [hp]; rfl)
  have hm := h.move (fun _ => .inr rfl) nofun nofun
    (.inr (.inr ⟨hl, rfl, rfl⟩)) (by rw [hp]; rfl) (fun _ => .inl rfl) nofun nofun (by simp [hp])
    (by simp [hp, Phase.cleared]) nofun nofun nofun
  have hlog : logged (⟨p, [], false⟩ :: v.ops) = logged v.ops := by simp [logged]
  refine { hm with boot := ?_, inOp := ?_, needsOp := ?_, outstanding := ?_, exclusive := ?_,
                   wakeup := ?_, empty := ?_, recorded := ?_, running := ?_, installed := ?_ }
  · simp [hb]
  · intro q hq
    by_cases hqp : q = p
    · subst hqp; simp
    · exact hm.inOp q (by simpa [hqp] using hq)
  · dsimp only
    exact fun q hq => update_rec (fun _ => rfl) fun _ => hm.needsOp q hq
  · rw [card_update_true hi, h.outstanding]
  · simp [hc]
  · intro q hq; exact .inr (.inl (Nat.succ_pos _))
  · simp
  · rw [hlog]; exact hm.recorded
  · intro q
    have := h.running q
    by_cases hqp : q = p
    · subst hqp; simp
    · simpa [hqp, Ne.symm hqp] using this
  · rw [hlog]; exact hm.installed

/-- Marking `p`'s operation as ended does not change which blocks the group logged. -/
theorem logged_end (ops : List (Op np)) (p : Fin np) :
    logged (ops.map fun o => if o.pid = p then { o with ended := true } else o) = logged ops := by
  rw [logged, List.flatMap_map]
  refine List.flatMap_congr fun o _ => ?_
  split <;> rfl

theorem running_end {ops : List (Op np)} {inOp : Fin np → Bool}
    (h : ∀ q, inOp q = true ↔ ∃ o ∈ ops, o.pid = q ∧ o.ended = false) (q : Fin np) :
    update inOp p false q = true ↔
      ∃ o ∈ ops.map (fun o => if o.pid = p then { o with ended := true } else o),
        o.pid = q ∧ o.ended = false := by
  constructor
  · intro hq
    have hqp : q ≠ p := by rintro rfl; simp at hq
    obtain ⟨o, ho, rfl, he⟩ := (h q).mp (by simpa [hqp] using hq)
    exact ⟨o, List.mem_map.mpr ⟨o, ho, by rw [if_neg hqp]⟩, rfl, he⟩
  · rintro ⟨o, ho, rfl, he⟩
    obtain ⟨o', ho', rfl⟩ := List.mem_map.mp ho
    by_cases hqp : o'.pid = p
    · simp [hqp] at he
    · simp only [hqp, if_false] at he ⊢
      rw [update_of_ne hqp]
      exact (h _).mpr ⟨o', ho', rfl, he⟩

/-- No process commits while an operation is outstanding. -/
theorem GroupInv.commits_false (h : GroupInv v) (hc : v.committing = false) (q : Fin np) :
    (v.phase q).commits = false := by
  cases hq : (v.phase q).commits
  · rfl
  · rw [h.committing.mpr ⟨q, hq⟩] at hc; simp at hc

variable {x : Phase np}

theorem Phase.cleared_false (hx : x.commits = false) : x.cleared = false := by
  cases x <;> simp_all [Phase.commits, Phase.cleared]

variable {c : Bool} {inst : List Nat}

/-- `end_op`'s critical section: the last outstanding operation begins the commit, any other wakes
    the processes that wait for log space. -/
theorem GroupInv.endOp (h : GroupInv v) (hp : v.phase p = .endTest)
   
    (hx : c = true ∧ x = .endRelease ∧ v.outstanding - 1 = 0 ∧ inst = [] ∨
      c = false ∧ x = .wakeup (List.finRange np) ∧ v.outstanding - 1 ≠ 0 ∧ inst = v.installed) :
    GroupInv { v with
      outstanding := v.outstanding - 1, committing := c,
      phase := update v.phase p x, inOp := update v.inOp p false,
      ops := v.ops.map (fun o => if o.pid = p then { o with ended := true } else o),
      installed := inst } := by
  have hi : v.inOp p = true := h.needsOp p (by rw [hp]; rfl)
  obtain ⟨hc, -⟩ := h.not_committing hi
  have hb : v.booted = true := h.booted_of (by rw [hp]; rfl) (by simp [hp])
  have hl : v.lock = some p := (h.lock p).mpr (by rw [hp]; rfl)
  have hno := h.commits_false hc
  have hcl : ∀ q, (v.phase q).cleared = false := fun q => Phase.cleared_false (hno q)
  have hxb : x.boots = false := by rcases hx with ⟨-, rfl, -⟩ | ⟨-, rfl, -⟩ <;> rfl
  have hxh : x.holds = true := by rcases hx with ⟨-, rfl, -⟩ | ⟨-, rfl, -⟩ <;> rfl
  have hxn : x.needsOp = false := by rcases hx with ⟨-, rfl, -⟩ | ⟨-, rfl, -⟩ <;> rfl
  have hxd : x.dozes = false := by rcases hx with ⟨-, rfl, -⟩ | ⟨-, rfl, -⟩ <;> rfl
  have hxc : x.cleared = false := by rcases hx with ⟨-, rfl, -⟩ | ⟨-, rfl, -⟩ <;> rfl
  have hxm : x.commits = c := by rcases hx with ⟨rfl, rfl, -⟩ | ⟨rfl, rfl, -⟩ <;> rfl
  -- the phase of a process other than `p` is as before
  have hother : ∀ {P : Phase np → Prop} q, P (update v.phase p x q) → ¬ P x → P (v.phase q) := by
    intro P q hq hnx
    revert hq
    exact update_rec (fun _ hx => absurd hx hnx) fun _ => id
  refine ⟨by simp [hb], fun _ q => ?_, fun q r hq hr => ?_, fun q hq => ?_, fun q => ?_, ?_,
    fun q r hq hr => ?_, fun q hq => ?_, fun q hq => ?_, ?_, fun hct => ?_, fun q hq => ?_,
    fun _ hcf hz => ?_, h.nodup, fun _ _ => ?_, running_end h.running, fun q t b hq => ?_,
    fun q hq => ?_, fun q hq => ?_⟩
  · dsimp only
    exact update_rec (fun _ => hxb) fun _ => h.booted hb q
  · exact h.bootOne q r (hother (P := fun y => y.boots = true) q hq (by simp [hxb]))
      (hother (P := fun y => y.boots = true) r hr (by simp [hxb]))
  · refine h.bootErase q (hother (P := fun y => y = .bootErase) q hq ?_)
    rintro rfl
    simp [Phase.boots] at hxb
  · dsimp only
    exact update_rec (fun hqp => by simp [hl, hxh, hqp]) fun _ => h.lock q
  · constructor
    · intro (hct : c = true)
      exact ⟨p, by simp [hxm, hct]⟩
    · rintro ⟨q, hq⟩
      by_cases hqp : q = p
      · subst hqp; simpa [hxm] using hq
      · simp [hqp, hno q] at hq
  · have hstay : ∀ q, (update v.phase p x q).commits = true → q = p := by
      intro q hq
      by_contra hqp
      simp [hqp, hno q] at hq
    rw [hstay q hq, hstay r hr]
  · by_cases hqp : q = p
    · subst hqp; simp at hq
    · simpa [hqp] using h.inOp q (by simpa [hqp] using hq)
  · by_cases hqp : q = p
    · subst hqp; simp [hxn] at hq
    · simpa [hqp] using h.needsOp q (by simpa [hqp] using hq)
  · rw [card_update_false hi, h.outstanding]
  · rcases hx with ⟨-, -, hz, -⟩ | ⟨rfl, -⟩
    · exact hz
    · simp at hct
  · rcases hx with ⟨rfl, -⟩ | ⟨-, -, hz, -⟩
    · exact .inl rfl
    · exact .inr (.inl (Nat.pos_of_ne_zero hz))
  · rcases hx with ⟨rfl, -⟩ | ⟨-, -, hnz, -⟩
    · simp at hcf
    · exact absurd hz hnz
  · rw [logged_end]; exact h.recorded hb hcl
  · have := hother (P := fun y => y = .install t b) q hq (by rintro rfl; rcases hx with ⟨-, hx, -⟩ | ⟨-, hx, -⟩ <;> cases hx)
    have hq' := hno q
    simp [this, Phase.commits] at hq'
  · by_cases hqp : q = p
    · subst hqp
      simp only [update_self] at hq
      rcases hx with ⟨-, -, -, rfl⟩ | ⟨-, rfl, -⟩
      · rfl
      · simp at hq
    · have hq' := hno q
      simp only [hqp, ne_eq, not_false_eq_true, update_of_ne] at hq
      rcases hq with hq | hq | hq <;> simp [hq, Phase.commits] at hq'
  · have := hother (P := fun y => y.cleared = true) q hq (by simp [hxc])
    simp [hcl q] at this

/-- One iteration of the `wakeup` loop, whose caller holds the log lock. -/
theorem GroupInv.wakeupOne (h : GroupInv v) {q : Fin np} {qs : List (Fin np)}
    (hp : v.phase p = .wakeup (q :: qs)) (hq : v.phase q ≠ .sleepState) {ph : Fin np → Phase np}
    (hph : v.phase q = .sleeping ∧ ph = update v.phase q .wakened ∨
      v.phase q ≠ .sleeping ∧ ph = v.phase) :
    GroupInv { v with phase := update ph p (.wakeup qs) } := by
  have hl : v.lock = some p := (h.lock p).mpr (by rw [hp]; rfl)
  have hb : v.booted = true := h.booted_of (by rw [hp]; rfl) (by simp [hp])
  -- first the woken process
  have h₁ : GroupInv { v with phase := ph } := by
    rcases hph with ⟨hs, rfl⟩ | ⟨-, rfl⟩
    · have hi : v.inOp q = false := h.not_inOp (by simp [hs]) (by rw [hs]; rfl)
      exact h.move (by simp [hb]) nofun nofun (.inl ⟨rfl, by rw [hs]; rfl⟩)
        (by rw [hs]; rfl) (by simp [hi]) nofun nofun (by simp [hs]) (by simp [hs, Phase.cleared])
        nofun nofun nofun
    · exact h
  have hp₁ : ph p = .wakeup (q :: qs) := by
    rcases hph with ⟨hs, rfl⟩ | ⟨-, rfl⟩
    · have hpq : p ≠ q := by rintro rfl; simp [hp] at hs
      simpa [hpq] using hp
    · exact hp
  have hnd : (ph q).dozes = false := by
    rcases hph with ⟨hs, rfl⟩ | ⟨hs, rfl⟩
    · simp [Phase.dozes]
    · -- a process about to release the log lock would hold it
      have hsl : v.phase q ≠ .sleepLock := by
        intro hsl
        have := (h.lock q).mpr (by rw [hsl]; rfl)
        rw [hl, Option.some.injEq] at this
        rw [← this, hp] at hsl
        simp at hsl
      cases hx : v.phase q <;> simp_all [Phase.dozes]
  refine h₁.move (by simp [hb]) nofun nofun (.inl ⟨rfl, by simp only [hp₁]; rfl⟩)
    (by simp only [hp₁]; rfl) (fun hi => ?_) nofun nofun (fun qs' hqs r hr hd => ?_)
    (by simp [hp₁, Phase.cleared]) nofun nofun nofun
  · have hi' : v.inOp p = false := h.not_inOp (by simp [hp]) (by rw [hp]; rfl)
    simp [hi'] at hi
  · simp only [hp₁, Phase.wakeup.injEq] at hqs
    subst hqs
    refine ⟨qs, rfl, ?_⟩
    rcases List.mem_cons.mp hr with rfl | hr
    · simp [hnd] at hd
    · exact hr

/-- `log_write`'s critical section records the block, once. -/
theorem GroupInv.logWrite (h : GroupInv v) (hp : v.phase p = .logWrite) (bn : Nat) :
    GroupInv { v with
      lh := if bn ∈ v.lh then v.lh else v.lh ++ [bn], phase := update v.phase p .client,
      ops := v.ops.map fun o =>
        if o.pid = p ∧ o.ended = false then { o with blocks := bn :: o.blocks } else o } := by
  have hi : v.inOp p = true := h.needsOp p (by rw [hp]; rfl)
  obtain ⟨hc, ho⟩ := h.not_committing hi
  have hb : v.booted = true := h.booted_of (by rw [hp]; rfl) (by simp [hp])
  have hno := h.commits_false hc
  have hm := h.move (fun _ => .inr rfl) nofun nofun
    (.inl ⟨rfl, by rw [hp]; rfl⟩) (by rw [hp]; rfl) (fun _ => .inl rfl) nofun nofun (by simp [hp])
    (by simp [hp, Phase.cleared]) nofun nofun nofun
  have hno' : ∀ q, (update v.phase p .client q).commits = false := by
    exact fun q => update_rec (fun _ => rfl) fun _ => hno q
  have hlog : ∀ b, b ∈ logged (v.ops.map fun o =>
      if o.pid = p ∧ o.ended = false then { o with blocks := bn :: o.blocks } else o) ↔
      b = bn ∨ b ∈ logged v.ops := by
    intro b
    obtain ⟨o, ho, hop, hoe⟩ := (h.running p).mp hi
    simp only [logged, List.mem_flatMap, List.mem_map]
    constructor
    · rintro ⟨_, ⟨o', ho', rfl⟩, hmem⟩
      split at hmem
      · rcases List.mem_cons.mp hmem with hmem | hmem
        · exact .inl hmem
        · exact .inr ⟨o', ho', hmem⟩
      · exact .inr ⟨o', ho', hmem⟩
    · rintro (rfl | ⟨o', ho', hmem⟩)
      · exact ⟨_, ⟨o, ho, rfl⟩, by simp [hop, hoe]⟩
      · refine ⟨_, ⟨o', ho', rfl⟩, ?_⟩
        split
        · exact List.mem_cons_of_mem _ hmem
        · exact hmem
  have hrec := hm.recorded hb fun q => Phase.cleared_false (hno' q)
  refine { hm with boot := ?_, bootErase := ?_, empty := ?_, nodup := ?_, recorded := ?_,
                   running := ?_, installing := ?_, writing := ?_, installed := ?_ }
  · simp [hb]
  · intro q hq
    have := hm.booted hb q
    simp only at hq this
    simp [hq, Phase.boots] at this
  · intro _ _ hz
    simp only at hz
    omega
  · intro _
    simp only
    split
    · exact h.nodup hb
    · rename_i hmem
      exact List.Nodup.append (h.nodup hb) (List.nodup_singleton bn) (by simpa using hmem)
  · intro _ _ b
    simp only
    rw [hlog b, ← hrec b]
    split
    · rename_i hmem
      exact ⟨.inr, fun hb => hb.elim (fun hb => hb ▸ hmem) id⟩
    · simp [or_comm]
  · intro q
    rw [h.running q]
    simp only [List.mem_map]
    constructor
    · rintro ⟨o, ho, rfl, he⟩
      exact ⟨_, ⟨o, ho, rfl⟩, by split <;> rfl, by split <;> exact he⟩
    · rintro ⟨_, ⟨o, ho, rfl⟩, hq, he⟩
      refine ⟨o, ho, ?_, ?_⟩
      · split at hq <;> exact hq
      · split at he <;> exact he
  · intro q t b hq
    have := hno' q
    simp only at hq
    simp [hq, Phase.commits] at this
  · intro q hq
    have := hno' q
    simp only at hq
    rcases hq with hq | hq | hq <;> simp [hq, Phase.commits] at this
  · intro q hq
    have := Phase.cleared_false (hno' q)
    simp only at hq
    simp [this] at hq

/-- A step of the process that commits: it alone may change the header, the list of installed blocks
    and, at the end, `committing` and the group. -/
theorem GroupInv.commitMove (h : GroupInv v) (hp : (v.phase p).commits = true)
    {l : Option (Fin np)} {w : List Nat} {o : List (Op np)} {i : List Nat}
    (hx : x.commits = true ∧ c = true ∧ o = v.ops ∨
      x = .wakeup (List.finRange np) ∧ c = false ∧ o = [] ∧ w = [])
    (hlock : l = v.lock ∧ x.holds = (v.phase p).holds ∨
      v.lock = none ∧ l = some p ∧ x.holds = true ∨
      v.lock = some p ∧ l = none ∧ x.holds = false)
    (hlh : x.cleared = false → w.Nodup ∧ ∀ b, b ∈ w ↔ b ∈ logged o)
    (hinstall : ∀ t b, x = .install t b → t + b.toNat ≤ w.length ∧ i = w.take t)
    (hwriting : x = .endRelease ∨ x = .commit ∨ x = .writing → i = [])
    (hinstalled : x.cleared = true → w = [] ∧ i.Nodup ∧ ∀ b, b ∈ i ↔ b ∈ logged o) :
    GroupInv { v with
      lock := l, committing := c, lh := w, phase := update v.phase p x, ops := o,
      installed := i } := by
  have hnb : (v.phase p).boots = false := by cases hy : v.phase p <;> simp_all [Phase.commits, Phase.boots]
  have hnc : v.phase p ≠ .client := by rintro hy; simp [hy, Phase.commits] at hp
  have hnn : (v.phase p).needsOp = false := by
    cases hy : v.phase p <;> simp_all [Phase.commits, Phase.needsOp]
  have hb : v.booted = true := h.booted_of hnb hnc
  have hi : v.inOp p = false := h.not_inOp hnc hnn
  have hzero : v.outstanding = 0 := h.exclusive (h.committing.mpr ⟨p, hp⟩)
  have hidle : ∀ q, v.inOp q = false := by
    intro q
    cases hq : v.inOp q
    · rfl
    · have := (h.not_committing hq).2; omega
  have hother : ∀ q, q ≠ p → (v.phase q).commits = false := by
    intro q hq
    cases hc : (v.phase q).commits
    · rfl
    · exact absurd (h.unique q p hc hp) hq
  have hxb : x.boots = false := by
    rcases hx with ⟨hx, -⟩ | ⟨rfl, -⟩
    · cases x <;> simp_all [Phase.commits, Phase.boots]
    · rfl
  have hxn : x.needsOp = false := by
    rcases hx with ⟨hx, -⟩ | ⟨rfl, -⟩
    · cases x <;> simp_all [Phase.commits, Phase.needsOp]
    · rfl
  have hxc : x.commits = c := by
    rcases hx with ⟨hx, rfl, -⟩ | ⟨rfl, rfl, -⟩
    · exact hx
    · rfl
  refine ⟨by simp [hb], fun _ q => ?_, fun q r hq hr => ?_, fun q hq => ?_, fun q => ?_, ?_,
    fun q r hq hr => ?_, fun q hq => ?_, fun q hq => ?_, h.outstanding, fun _ => hzero,
    fun q hq => ?_, fun _ hc _ => ?_, fun _ => ?_, fun _ hcl => ?_, fun q => ?_, fun q t b hq => ?_,
    fun q hq => ?_, fun q hq => ?_⟩
  · dsimp only
    exact update_rec (fun _ => hxb) fun _ => h.booted hb q
  · have hstay : ∀ q, (update v.phase p x q).boots = false := by
      exact fun q => update_rec (fun _ => hxb) fun _ => h.booted hb q
    simp [hstay q] at hq
  · by_cases hqp : q = p
    · subst hqp
      simp only [update_self] at hq
      rw [hq] at hxb
      simp [Phase.boots] at hxb
    · have := h.booted hb q
      simp only [hqp, ne_eq, not_false_eq_true, update_of_ne] at hq
      simp [hq, Phase.boots] at this
  · exact h.lock_update hlock q
  · constructor
    · intro (hct : c = true)
      exact ⟨p, by simp [hxc, hct]⟩
    · rintro ⟨q, hq⟩
      by_cases hqp : q = p
      · subst hqp; simpa [hxc] using hq
      · simp [hqp, hother q hqp] at hq
  · have hstay : ∀ q, (update v.phase p x q).commits = true → q = p := by
      intro q hq
      by_contra hqp
      simp [hqp, hother q hqp] at hq
    rw [hstay q hq, hstay r hr]
  · simp [hidle q] at hq
  · by_cases hqp : q = p
    · subst hqp; simp [hxn] at hq
    · have := h.needsOp q (by simpa [hqp] using hq)
      simp [hidle q] at this
  · rcases hx with ⟨-, rfl, -⟩ | ⟨rfl, -⟩
    · exact .inl rfl
    · exact .inr (.inr ⟨p, List.finRange np, by simp, List.mem_finRange q⟩)
  · rcases hx with ⟨-, rfl, -⟩ | ⟨-, -, -, hl⟩
    · simp at hc
    · exact hl
  · cases hcl : x.cleared
    · exact (hlh hcl).1
    · simp [(hinstalled hcl).1]
  · refine (hlh ?_).2
    simpa using hcl p
  · rcases hx with ⟨-, -, rfl⟩ | ⟨-, -, rfl, -⟩
    · exact h.running q
    · simp [hidle q]
  · by_cases hqp : q = p
    · subst hqp; exact hinstall t b (by simpa using hq)
    · have := hother q hqp
      simp only [hqp, ne_eq, not_false_eq_true, update_of_ne] at hq
      simp [hq, Phase.commits] at this
  · by_cases hqp : q = p
    · subst hqp; exact hwriting (by simpa using hq)
    · have := hother q hqp
      simp only [hqp, ne_eq, not_false_eq_true, update_of_ne] at hq
      rcases hq with hq | hq | hq <;> simp [hq, Phase.commits] at this
  · by_cases hqp : q = p
    · subst hqp; exact hinstalled (by simpa using hq)
    · have := Phase.cleared_false (hother q hqp)
      simp [hqp, this] at hq

/-- During the boot the log is at rest, and all processes but one are in client code. -/
structure Booting (v : View np) (p : Fin np) : Prop where
  booted : v.booted = false
  lock : v.lock = none
  outstanding : v.outstanding = 0
  committing : v.committing = false
  inOp : ∀ q, v.inOp q = false
  ops : v.ops = []
  client : ∀ q, q ≠ p → v.phase q = .client

theorem GroupInv.booting (h : GroupInv v) (hp : (v.phase p).boots = true) : Booting v p := by
  have hb : v.booted = false := by
    cases hb : v.booted
    · rfl
    · have := h.booted hb p; simp [hp] at this
  obtain ⟨hops, hph⟩ := h.boot hb
  have hidle : ∀ q, v.inOp q = false := by
    intro q
    cases hq : v.inOp q
    · rfl
    · obtain ⟨o, ho, -⟩ := (h.running q).mp hq; simp [hops] at ho
  refine ⟨hb, ?_, ?_, ?_, hidle, hops, fun q hq => ?_⟩
  · cases hl : v.lock with
    | none => rfl
    | some q =>
      have hq := (h.lock q).mp hl
      rcases hph q with hqb | hqc
      · cases hy : v.phase q <;> simp_all [Phase.boots, Phase.holds]
      · simp [hqc, Phase.holds] at hq
  · rw [h.outstanding]; simp [hidle]
  · cases hc : v.committing
    · rfl
    · obtain ⟨q, hq⟩ := h.committing.mp hc
      rcases hph q with hqb | hqc
      · cases hy : v.phase q <;> simp_all [Phase.boots, Phase.commits]
      · simp [hqc, Phase.commits] at hq
  · rcases hph q with hqb | hqc
    · exact absurd (h.bootOne q p hqb hp) hq
    · exact hqc

theorem Booting.groupInv (h : Booting v p)
    (hp : v.phase p = .boot ∨ v.phase p = .bootErase ∧ v.lh = []) : GroupInv v := by
  obtain ⟨hb, hl, ho, hc, hi, hops, hcl⟩ := h
  have hph : ∀ q, q = p ∨ v.phase q = .client := fun q => or_iff_not_imp_left.mpr (hcl q)
  have hboots : (v.phase p).boots = true := by rcases hp with hp | ⟨hp, -⟩ <;> rw [hp] <;> rfl
  have hsimple : ∀ q, (v.phase q).holds = false ∧ (v.phase q).commits = false ∧
      (v.phase q).needsOp = false ∧ (v.phase q).dozes = false ∧ (v.phase q).cleared = false ∧
      (∀ t b, v.phase q ≠ .install t b) ∧ v.phase q ≠ .endRelease ∧ v.phase q ≠ .commit ∧
      v.phase q ≠ .writing := by
    intro q
    rcases hph q with rfl | hq
    · rcases hp with hp | ⟨hp, -⟩ <;>
        simp [hp, Phase.holds, Phase.commits, Phase.needsOp, Phase.dozes, Phase.cleared]
    · simp [hq, Phase.holds, Phase.commits, Phase.needsOp, Phase.dozes, Phase.cleared]
  refine ⟨fun _ => ⟨hops, fun q => ?_⟩, by simp [hb], fun q r hq hr => ?_, fun q hq => ?_,
    by simp [hl, hsimple], by simp [hc, hsimple], by simp [hsimple], by simp [hi], by simp [hsimple],
    by simp [ho, hi], fun _ => ho, by simp [hsimple], by simp [hb], by simp [hb], by simp [hb],
    by simp [hi, hops], by simp [hsimple], by simp [hsimple], by simp [hsimple]⟩
  · rcases hph q with rfl | hq
    · exact .inl hboots
    · exact .inr hq
  · have : ∀ q, (v.phase q).boots = true → q = p := by
      intro q hq
      rcases hph q with rfl | hqc
      · rfl
      · simp [hqc, Phase.boots] at hq
    rw [this q hq, this r hr]
  · rcases hph q with rfl | hqc
    · rcases hp with hp | ⟨-, hlh⟩
      · simp [hp] at hq
      · exact hlh
    · simp [hqc] at hq

/-- Steps of the boot: the header is read, the blocks are installed, the header is cleared. -/
theorem GroupInv.bootMove (h : GroupInv v) (hp : (v.phase p).boots = true)
    {lh : List Nat} (hx : x = .boot ∨ x = .bootErase ∧ lh = []) :
    GroupInv { v with lh := lh, phase := update v.phase p x, installed := inst } := by
  obtain ⟨hb, hl, ho, hc, hi, hops, hcl⟩ := h.booting hp
  refine Booting.groupInv (p := p) ⟨hb, hl, ho, hc, hi, hops, fun q hq => ?_⟩ (by simpa using hx)
  simpa [hq] using hcl q hq

/-- The boot is over: the log is empty and every process is a client. -/
theorem GroupInv.bootDone (h : GroupInv v) (hp : v.phase p = .bootErase) :
    GroupInv { v with booted := true, phase := update v.phase p .client } := by
  obtain ⟨hb, hl, ho, hc, hi, hops, hcl⟩ := h.booting (by rw [hp]; rfl)
  have hlh : v.lh = [] := h.bootErase p hp
  have hph : ∀ q, update v.phase p .client q = .client := by
    exact fun q => update_rec (fun _ => rfl) (hcl q)
  refine ⟨by simp, ?_, ?_, ?_, ?_, ?_, ?_, ?_, ?_, ?_, ?_, ?_, ?_, ?_, ?_, ?_, ?_, ?_, ?_⟩ <;>
    simp [hph, hl, ho, hc, hi, hops, hlh, Phase.boots, Phase.holds, Phase.commits, Phase.needsOp,
      Phase.dozes, Phase.cleared, logged]

end phases

end Xv6.Bio
