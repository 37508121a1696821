import Mathlib.Logic.Function.Basic
import Xv6.Schemes.System

/-! Interrupts on several CPUs (`push_off` and `pop_off` in spinlock.c, `scheduler` and `sched` in
    proc.c, `kerneltrap` in trap.c).

    ```
    cpu 0   p: intr_get │ trap … sched ┐
    cpu 1                  scheduler   └▶ p: … sret │ intr_off … pop_off
    ```

    `noff` and `intena` belong to a CPU, the calls they count to a thread. A step is what a CPU does
    between two points where an interrupt may come. -/

namespace Xv6.Intr
open Function

/-- The code since the last trap: `old` is the local of a `push_off` that has called `intr_get`, `depth`
    the calls of `push_off` whose `pop_off` is to come. `enabled` is history: what the first of them read. -/
structure Frame where
  old : Option Bool
  depth : Nat
  enabled : Bool

/-- `below` is what traps interrupted, `intena` the local of `sched` (`none` before `forkret`). `off` is
    history: the thread's last call of `intr_on` or `intr_off` was of the latter. -/
structure Thread where
  top : Frame
  below : List Frame
  intena : Option Bool
  off : Bool

/-- `sie` is `SSTATUS_SIE`, `proc` is `none` while the scheduler runs, `thread` is the one that runs, and
    `scheduler` the other one while a process runs. -/
structure Cpu (np : Nat) where
  sie : Bool
  noff : Nat
  intena : Bool
  proc : Option (Fin np)
  thread : Thread
  scheduler : Thread

/-- Every process is on a CPU or in `proc`. -/
structure State (nc np : Nat) where
  cpu : Fin nc → Cpu np
  proc : Fin np → Option Thread

variable {nc np : Nat}

/-! ### One CPU -/

/-- `intrGet` and `pushOff` are the two parts of `push_off`. `intr` is `intr_on` or `intr_off`, or the way to
    user mode or back. -/
inductive Op where | intrGet | pushOff | popOff | intr (enable : Bool) | trap | sret

abbrev Cpu.top (k : Cpu np) : Frame := k.thread.top

/-- The code of `scheduler` itself, and not a trap. -/
def Cpu.scheduling (k : Cpu np) : Bool := k.proc == none && k.thread.below.isEmpty

/-- `scheduler` takes locks after its `intr_off`. -/
def Cpu.guard (k : Cpu np) : Op → Bool
  | .intrGet => k.top.old == none && (!k.scheduling || k.thread.off)
  | .pushOff => k.top.old.isSome
  | .popOff => k.top.old == none && k.top.depth != 0
  | .intr _ => k.top.old == none && k.top.depth == 0 && k.thread.below.isEmpty
  | .trap => k.sie
  | .sret => k.top.old == none && k.top.depth == 0 && !k.thread.below.isEmpty

def Cpu.run (k : Cpu np) : Op → Cpu np
  | .intrGet => { k with thread := { k.thread with top := { k.top with old := some k.sie } } }
  | .pushOff =>
    let f := k.top
    let old := f.old.getD false
    { k with
      sie := if old then false else k.sie
      intena := if k.noff = 0 then old else k.intena
      noff := k.noff + 1
      thread := { k.thread with top := ⟨none, f.depth + 1, if f.depth = 0 then old else f.enabled⟩ } }
  | .popOff =>
    let f := k.top
    -- scheduler releases its lock after c->intena = 0
    let intena := if k.scheduling then false else k.intena
    { k with
      sie := if k.noff - 1 = 0 ∧ intena = true then true else k.sie
      intena := intena
      noff := k.noff - 1
      thread := { k.thread with top := { f with depth := f.depth - 1 } } }
  | .intr enable => { k with sie := enable, thread := { k.thread with off := !enable } }
  | .trap =>
    { k with sie := false, thread := { k.thread with top := ⟨none, 0, false⟩, below := k.top :: k.thread.below } }
  | .sret =>
    let x := k.thread
    { k with sie := true, thread := { x with top := x.below.headD x.top, below := x.below.tail } }

/-! ### All CPUs -/

inductive Act (nc np : Nat) where
  | op (c : Fin nc) (o : Op)
  | sched (c : Fin nc) (p : Fin np)
  | swtch (c : Fin nc) (p : Fin np)
  | allocproc (p : Fin np)

/-- `sched` is called with `p->lock` and no other lock. -/
def guard (s : State nc np) : Act nc np → Bool
  | .op c o => (s.cpu c).guard o
  | .sched c p => (s.cpu c).proc == some p && (s.cpu c).top.old == none && (s.cpu c).top.depth == 1
  | .swtch c p =>
    (s.cpu c).scheduling && (s.cpu c).top.old == none && (s.cpu c).top.depth == 1 && (s.proc p).isSome
  | .allocproc p => (s.proc p).isSome

/-- A process before `forkret`: `scheduler` has taken the lock that `forkret` releases. -/
def Thread.fresh : Thread := ⟨⟨none, 1, false⟩, [], none, false⟩

def next (s : State nc np) : Act nc np → State nc np
  | .op c o => { s with cpu := update s.cpu c ((s.cpu c).run o) }
  | .sched c p =>
    let k := s.cpu c
    -- scheduler goes on with c->intena = 0
    ⟨update s.cpu c { k with proc := none, intena := false, thread := k.scheduler },
      update s.proc p (some { k.thread with intena := some k.intena })⟩
  | .swtch c p =>
    let k := s.cpu c
    let x := (s.proc p).getD .fresh
    ⟨update s.cpu c { k with proc := some p, intena := x.intena.getD k.intena, thread := x, scheduler := k.thread },
      update s.proc p none⟩
  | .allocproc p => { s with proc := update s.proc p (some .fresh) }

/-- Every CPU enters `scheduler`. -/
def init : State nc np where
  cpu _ := ⟨false, 0, false, none, ⟨⟨none, 0, false⟩, [], none, false⟩, .fresh⟩
  proc _ := some .fresh

def step (s : State nc np) (a : Act nc np) : Option (State nc np) := if guard s a then some (next s a) else none

/-! ### Invariant -/

/-- No trap comes inside another, and in a trap every `push_off` finds interrupts off. -/
def Below (x : Thread) : Prop :=
  x.below = [] ∨ (0 < x.top.depth → x.top.enabled = false) ∧ ∃ f, x.below = [f] ∧ f.depth = 0 ∧ f.old ≠ some false

structure Runs (k : Cpu np) : Prop where
  noff : k.noff = k.top.depth
  intena : 0 < k.top.depth → k.intena = k.top.enabled
  sie : 0 < k.top.depth ∨ k.thread.below ≠ [] → k.sie = false
  old : ∀ b, k.top.old = some b → k.sie = b
  below : Below k.thread
  -- the scheduler takes locks with interrupts off
  off : k.proc = none → k.thread.off = true → k.sie = false ∧ k.thread.below = []
  enabled : k.proc = none → 0 < k.top.depth → k.top.enabled = false
  olds : k.proc = none → ∀ f ∈ k.top :: k.thread.below, f.old ≠ some true
  scheduler : k.proc ≠ none → k.scheduler.top.old = none ∧ k.scheduler.top.depth = 1 ∧
    k.scheduler.top.enabled = false ∧ k.scheduler.below = []

structure Parked (x : Thread) : Prop where
  depth : x.top.depth = 1
  old : x.top.old = none
  below : Below x
  intena : x.intena.getD false = x.top.enabled

structure Inv (s : State nc np) : Prop where
  runs : ∀ c, Runs (s.cpu c)
  parked : ∀ p x, s.proc p = some x → Parked x

theorem Runs.run {k : Cpu np} (h : Runs k) {o : Op} (hg : k.guard o = true) : Runs (k.run o) := by
  obtain ⟨hnoff, hint, hsie, hold, hbelow, hoff, hen, holds, hsched⟩ := h
  cases o with
  | pushOff =>
    -- a trap since `intr_get` has returned: `old` is what `sie` is, on this CPU too
    obtain ⟨old, heq⟩ := Option.isSome_iff_exists.mp hg
    constructor <;> grind -ring -linarith [Below, Cpu.run]
  | _ => constructor <;> grind -ring -linarith [Below, Cpu.run, Cpu.guard, Cpu.scheduling]

theorem parked_fresh : Parked .fresh := ⟨rfl, rfl, .inl rfl, rfl⟩

theorem inv_next {s : State nc np} (h : Inv s) {a : Act nc np} (hg : guard s a = true) : Inv (next s a) := by
  -- a step changes one CPU and at most one waiting process
  have hcpu : ∀ {c k}, Runs k → ∀ c', Runs (update s.cpu c k c') := by
    intro c k hk c'
    rw [update_apply]
    split
    · exact hk
    · exact h.runs c'
  have hproc : ∀ {p y}, (∀ x, y = some x → Parked x) → ∀ q x, update s.proc p y q = some x → Parked x := by
    intro p y hy q x hx
    rw [update_apply] at hx
    split at hx
    · exact hy x hx
    · exact h.parked q x hx
  cases a with
  | op c o => exact ⟨hcpu ((h.runs c).run hg), h.parked⟩
  | sched c p =>
    obtain ⟨hnoff, hint, hsie, hold, hbelow, -, -, -, hsched⟩ := h.runs c
    refine ⟨hcpu ?_, hproc fun x hx => ?_⟩ <;> constructor <;> grind -ring -linarith [Below, guard]
  | swtch c p =>
    obtain ⟨hnoff, hint, hsie, -, -, -, hen, -, -⟩ := h.runs c
    obtain ⟨x, hx⟩ := Option.isSome_iff_exists.mp (Bool.and_eq_true_iff.mp hg).2
    obtain ⟨hd', hold', hbelow, hint'⟩ := h.parked p x hx
    refine ⟨hcpu ?_, hproc (by simp)⟩
    rw [hx, Option.getD_some]
    constructor <;> grind -ring -linarith [guard, Cpu.scheduling]
  | allocproc p => exact ⟨h.runs, hproc fun x hx => Option.some.inj hx ▸ parked_fresh⟩

theorem inv_init : Inv (init : State nc np) := by
  refine ⟨fun c => ?_, fun p x hx => Option.some.inj hx ▸ parked_fresh⟩
  constructor <;> simp [init, Below]

/-- Interrupts are off where `noff` counts calls, so neither `pop_off` nor `sched` panics; and the last
    `pop_off` of a thread leaves interrupts as the first `push_off` found them, on whatever CPUs it ran. -/
theorem interrupts_follow {s : State nc np} {as : List (Act nc np)}
    (hrun : (System.ofStep step).Run (fun _ _ => True) init as s) : ∀ c,
    (0 < (s.cpu c).noff → (s.cpu c).sie = false) ∧
    ((s.cpu c).guard .popOff = true → (s.cpu c).sie = false ∧ 1 ≤ (s.cpu c).noff ∧
      ((s.cpu c).top.depth = 1 → ((s.cpu c).run .popOff).sie = (s.cpu c).top.enabled)) ∧
    ∀ p, guard s (.sched c p) = true → (s.cpu c).noff = 1 ∧ (s.cpu c).sie = false := by
  have h : Inv s := by
    refine hrun.step_invariant (fun s a t h _ hst => ?_) inv_init
    rw [step, Option.ite_none_right_eq_some] at hst
    exact Option.some.inj hst.2 ▸ inv_next h hst.1
  intro c
  obtain ⟨hnoff, hint, hsie, -, -, -, hen, -⟩ := h.runs c
  refine ⟨fun hc => hsie (.inl (hnoff ▸ hc)), fun hg => ?_, fun p hg => ?_⟩
  · grind -ring -linarith [Cpu.run, Cpu.scheduling, Cpu.guard]
  · grind -ring -linarith [guard]

/-- Process 0 is interrupted inside `push_off` on CPU 0 and goes on on CPU 1. -/
def moved : List (Act 2 1) :=
  [.op 0 (.intr false), .op 0 .intrGet, .op 0 .pushOff, .swtch 0 0, .op 0 .popOff, .op 0 (.intr true), .op 0 .intrGet,
    .op 0 .trap, .op 0 .intrGet, .op 0 .pushOff, .sched 0 0, .op 0 .popOff, .op 1 (.intr false), .op 1 .intrGet,
    .op 1 .pushOff, .swtch 1 0, .op 1 .popOff, .op 1 .sret, .op 1 .pushOff]

theorem interrupts_follow_moved : ∃ s, (System.ofStep step).Run (fun _ _ => True) init moved s ∧
    ((s.cpu 1).run .popOff).sie = (s.cpu 1).top.enabled ∧ (s.cpu 1).top.enabled = true := by
  have hrun := System.run_exec (System.ofStep step) (fun _ _ => True) init moved (by decide +kernel)
  exact ⟨_, hrun, ((interrupts_follow hrun 1).2.1 (by decide +kernel)).2.2 (by decide +kernel), by decide +kernel⟩

end Xv6.Intr
