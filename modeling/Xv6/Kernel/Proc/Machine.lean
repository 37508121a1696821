import Mathlib.Data.Fintype.Basic
import Mathlib.Tactic.Simps.Basic
import Xv6.Schemes.System
import Xv6.Kernel.Param

/-! Processes and processors (`proc.c`).

    ```
                 ┌────────────── loop ◄──────────────┐
    scheduler    │ acquire                   release │
                 ▼                                   │
               test ──(RUNNABLE)── swtch ─┐   ┌──► back
                                          ▼   │
    kernel thread of p                  … code … sched()
    ```

    A step is one acquire of a process lock, one access to a `parent` field without the lock, or what
    the code does with the locks it holds up to its next release. Every processor executes its
    scheduler or the kernel thread of a process; locks belong to processors. The scheduler acquires
    the lock that the thread it switches to releases, and the other way around. -/

namespace Xv6.Procs

/-- An index into `proc`. -/
abbrev Slot : Type := Fin NPROC

/-- `userinit` runs first and gets the first slot. -/
def initproc : Slot := 0

inductive ProcState where | unused | sleeping | runnable | running | zombie
  deriving DecidableEq

/-- What a process sleeps on: in `wait` on itself, otherwise on something that is not a process. -/
inductive Chan where
  | proc (q : Slot)
  | other (n : Nat)
  deriving DecidableEq

/-- The fields of `struct proc` that say what becomes of the process. -/
structure Proc where
  state : ProcState
  parent : Option Slot
  chan : Option Chan
  killed : Bool
  xstate : Int32
  pid : Int32
  deriving DecidableEq

/-- `freeproc`. -/
def Proc.free : Proc := ⟨.unused, none, none, false, 0, 0⟩

/-- The change of `kill`, and of `wakeup` and `wakeup1` where the channel is the right one. -/
def Proc.wake (p : Proc) : Proc := if p.state = .sleeping then { p with state := .runnable } else p

/-- `wakeup1` of the process in slot `q`. -/
def Proc.wakeup1 (q : Slot) (p : Proc) : Proc := if p.chan = some (.proc q) then p.wake else p

/-! ### Kernel threads -/

/-- How a thread gives up its processor: `yield`, or `sleep` with a lock other than its own. -/
inductive Pause where
  | yield
  | sleep (n : Nat)
  deriving DecidableEq

/-- Where a thread is when it holds no process lock. -/
inductive Point where
  /-- Outside the code modelled here. -/
  | idle
  /-- `fork`, in the loop of `allocproc`. -/
  | forkScan (i : Nat)
  /-- `exit`, while it closes files. -/
  | exit (status : Int32)
  /-- `exit`, before and after it has read `p->parent`. -/
  | exitSelf (status : Int32)
  | exitParent (status : Int32) (parent : Slot)
  /-- `wait`, with or without an address for the status. -/
  | wait (addr : Bool)
  | killScan (pid : Int32) (i : Nat)
  deriving DecidableEq

/-- Where a thread is that `swtch` has saved: in `sched`, called by `yield`, `sleep`, `wait` or `exit`,
    or at the entry of `forkret`. -/
inductive Saved where
  | resume (w : Pause) (p : Point)
  | waitBack (addr : Bool)
  | forkret
  | dead
  deriving DecidableEq

inductive Pc where
  | at (p : Point)
  | pause (w : Pause) (p : Point)
  | allocproc (i : Slot)
  | uvmcopy (i : Slot)
  | forkParent (i : Slot)
  | forkStart (i : Slot)
  | exitInit (status : Int32)
  | exitRead (status : Int32)
  | exitLock (status : Int32) (parent : Slot)
  | reparent (status : Int32) (parent : Slot) (i : Nat)
  | reparentLock (status : Int32) (parent i : Slot)
  | reparentSet (status : Int32) (parent i : Slot)
  | waitScan (addr : Bool) (i : Nat) (havekids : Bool)
  | waitLock (addr : Bool) (i : Slot)
  | waitTest (addr : Bool) (i : Slot)
  | waitReturn
  | killTest (pid : Int32) (i : Slot)
  | sched (k : Saved)
  | back (k : Saved)
  deriving DecidableEq

/-- The process locks that the thread of `q` holds, when it runs. -/
def Pc.holds (q : Slot) : Pc → List Slot
  | .at _ => []
  | .pause .. => [q]
  | .allocproc i | .uvmcopy i | .forkParent i | .forkStart i => [i]
  | .exitInit _ => [initproc]
  | .exitRead _ => [q]
  | .exitLock _ op => [op]
  | .reparent _ op _ | .reparentLock _ op _ => [q, op]
  | .reparentSet _ op i => [i, q, op]
  | .waitScan .. | .waitLock .. | .waitReturn => [q]
  | .waitTest _ i => [i, q]
  | .killTest _ i => [i]
  | .sched _ | .back _ => [q]

/-! ### Processors -/

inductive Ctx where
  /-- The scheduler is about to lock slot `i`, or to start over. -/
  | loop (i : Nat)
  | test (i : Slot)
  /-- The kernel thread of a process. -/
  | thread (q : Slot)
  /-- The scheduler, when the thread has called `sched`. -/
  | back (i : Slot)
  deriving DecidableEq

/-- `struct cpu`, and what the processor executes. -/
structure Cpu where
  proc : Option Slot
  ctx : Ctx

/-- What `fork` and `wait` return, and the calls of `exit`; processes are named by their pids. -/
inductive Event where
  | forked (parent child : Int32)
  | exit (p : Int32) (status : Int32)
  | reaped (parent child : Int32) (status : Option Int32)
  deriving DecidableEq

/-- `allocs` counts the calls of `allocpid`; the latest event of `hist` comes first, and the latest
    argument and result of `kill` in `kills`. -/
structure State (nc : Nat) where
  proc : Slot → Proc
  lock : Slot → Option (Fin nc)
  nextpid : Int32
  pc : Slot → Pc
  cpu : Fin nc → Cpu
  allocs : Nat
  hist : List Event
  kills : List (Int32 × Int32)

variable {nc : Nat}

namespace State

@[simps -fullyApplied]
def goto (s : State nc) (q : Slot) (k : Pc) : State nc := { s with pc := Function.update s.pc q k }

@[simps -fullyApplied]
def set (s : State nc) (i : Slot) (p : Proc) : State nc := { s with proc := Function.update s.proc i p }

@[simps -fullyApplied]
def release (s : State nc) (i : Slot) : State nc := { s with lock := Function.update s.lock i none }

/-- `acquire` spins while the lock is held. -/
def acquire (s : State nc) (c : Fin nc) (i : Slot) : Option (State nc) :=
  if s.lock i = none then some { s with lock := Function.update s.lock i (some c) } else none

/-- Return from the system call. -/
def ret (s : State nc) (q : Slot) : State nc := s.goto q (.at .idle)

@[simps -fullyApplied]
def note (s : State nc) (e : Event) : State nc := { s with hist := e :: s.hist }

def killed (s : State nc) (x r : Int32) : State nc := { s with kills := (x, r) :: s.kills }

/-- The current thread has called `swtch`, or the scheduler has. -/
@[simps -fullyApplied]
def switch (s : State nc) (c : Fin nc) (p : Option Slot) (x : Ctx) : State nc :=
  { s with cpu := Function.update s.cpu c ⟨p, x⟩ }

def allocpid (s : State nc) (i : Slot) : State nc :=
  { s.set i { s.proc i with pid := s.nextpid } with nextpid := s.nextpid + 1, allocs := s.allocs + 1 }

/-- The thread of `q` goes to sleep, or yields, as `k`. -/
def leave (s : State nc) (q : Slot) (st : ProcState) (ch : Option Chan) (k : Saved) : State nc :=
  (s.set q { s.proc q with state := st, chan := ch }).goto q (.sched k)

end State

open State

/-- The next step of the thread of `q` from a point where it holds no lock. -/
def pointStep (s : State nc) (c : Fin nc) (q : Slot) : Point → Option (State nc)
  | .idle => none
  | .forkScan i =>
    if h : i < NPROC then (s.acquire c ⟨i, h⟩).map (·.goto q (.allocproc ⟨i, h⟩)) else some (s.ret q)
  | .exit st => (s.acquire c initproc).map (·.goto q (.exitInit st))
  | .exitSelf st => (s.acquire c q).map (·.goto q (.exitRead st))
  | .exitParent st op => (s.acquire c op).map (·.goto q (.exitLock st op))
  | .wait addr => (s.acquire c q).map (·.goto q (.waitScan addr 0 false))
  | .killScan x i =>
    if h : i < NPROC then (s.acquire c ⟨i, h⟩).map (·.goto q (.killTest x ⟨i, h⟩))
    else some ((s.ret q).killed x (-1))

/-- A thread goes on after `swtch` has come back to it. -/
def backStep (s : State nc) (q : Slot) : Saved → Option (State nc)
  | .resume .yield p => some ((s.release q).goto q (.at p))
  | .resume (.sleep _) p =>
    some (((s.set q { s.proc q with chan := none }).release q).goto q (.at p))
  | .waitBack addr => some ((s.set q { s.proc q with chan := none }).goto q (.waitScan addr 0 false))
  | .forkret => some ((s.release q).ret q)
  -- panic("zombie exit")
  | .dead => none

/-- `wait` has scanned the table. -/
def waitEnd (s : State nc) (q : Slot) (addr havekids : Bool) : State nc :=
  if !havekids || (s.proc q).killed then (s.release q).ret q
  else s.leave q .sleeping (some (.proc q)) (.waitBack addr)

/-- `wait` has found a zombie; `ok` says whether the status could be copied out. -/
def reap (s : State nc) (q i : Slot) (addr ok : Bool) : State nc :=
  if addr && !ok then (s.release i).goto q .waitReturn
  else (((s.set i .free).release i).goto q .waitReturn).note
    (.reaped (s.proc q).pid (s.proc i).pid (if addr then some (s.proc i).xstate else none))

/-- The end of `exit`: wake the parent and become a zombie. -/
def zombie (s : State nc) (q : Slot) (st : Int32) (op : Slot) : State nc :=
  let s := s.set op ((s.proc op).wakeup1 op)
  ((s.set q { s.proc q with xstate := st, state := .zombie }).release op).goto q (.sched .dead)

/-- The next step of the thread of `q`; `ok` says whether memory can be allocated or copied. -/
def threadStep (s : State nc) (c : Fin nc) (q : Slot) (ok : Bool) : Pc → Option (State nc)
  | .at p => pointStep s c q p
  | .pause .yield p => some (s.leave q .runnable (s.proc q).chan (.resume .yield p))
  | .pause (.sleep n) p => some (s.leave q .sleeping (some (.other n)) (.resume (.sleep n) p))
  | .allocproc i => some <|
    if (s.proc i).state = .unused then
      -- the trapframe page
      if ok then (s.allocpid i).goto q (.uvmcopy i) else ((s.allocpid i).release i).ret q
    else (s.release i).goto q (.at (.forkScan (i + 1)))
  | .uvmcopy i => some <|
    if ok then s.goto q (.forkParent i) else ((s.set i .free).release i).ret q
  | .forkParent i => some ((s.set i { s.proc i with parent := some q }).goto q (.forkStart i))
  | .forkStart i => some <|
    ((((s.set i { s.proc i with state := .runnable }).goto i (.back .forkret)).release i).ret q).note
      (.forked (s.proc q).pid (s.proc i).pid)
  | .exitInit st => some <|
    ((s.set initproc ((s.proc initproc).wakeup1 initproc)).release initproc).goto q (.at (.exitSelf st))
  | .exitRead st => (s.proc q).parent.map fun op => (s.release q).goto q (.at (.exitParent st op))
  | .exitLock st op => (s.acquire c q).map (·.goto q (.reparent st op 0))
  | .reparent st op i => some <|
    if h : i < NPROC then
      if (s.proc ⟨i, h⟩).parent = some q then s.goto q (.reparentLock st op ⟨i, h⟩)
      else s.goto q (.reparent st op (i + 1))
    else zombie s q st op
  | .reparentLock st op i => (s.acquire c i).map (·.goto q (.reparentSet st op i))
  | .reparentSet st op i => some <|
    ((s.set i { s.proc i with parent := some initproc }).release i).goto q (.reparent st op (i + 1))
  | .waitScan addr i havekids => some <|
    if h : i < NPROC then
      if (s.proc ⟨i, h⟩).parent = some q then s.goto q (.waitLock addr ⟨i, h⟩)
      else s.goto q (.waitScan addr (i + 1) havekids)
    else waitEnd s q addr havekids
  | .waitLock addr i => (s.acquire c i).map (·.goto q (.waitTest addr i))
  | .waitTest addr i => some <|
    if (s.proc i).state = .zombie then reap s q i addr ok
    else (s.release i).goto q (.waitScan addr (i + 1) true)
  | .waitReturn => some ((s.release q).ret q)
  | .killTest x i => some <|
    if (s.proc i).pid = x then
      (((s.set i ({ s.proc i with killed := true } : Proc).wake).release i).ret q).killed x 0
    else (s.release i).goto q (.at (.killScan x (i + 1)))
  | .sched k => some ((s.goto q (.back k)).switch c (s.cpu c).proc (.back q))
  | .back k => backStep s q k

/-- The next step of the scheduler. -/
def schedulerStep (s : State nc) (c : Fin nc) : Ctx → Option (State nc)
  | .loop i =>
    if h : i < NPROC then (s.acquire c ⟨i, h⟩).map (·.switch c (s.cpu c).proc (.test ⟨i, h⟩))
    else some (s.switch c (s.cpu c).proc (.loop 0))
  | .test i => some <|
    if (s.proc i).state = .runnable then
      (s.set i { s.proc i with state := .running }).switch c (some i) (.thread i)
    else (s.release i).switch c (s.cpu c).proc (.loop (i + 1))
  | .back i => some ((s.release i).switch c none (.loop (i + 1)))
  | .thread _ => none

/-! ### Steps -/

inductive Call where
  | fork
  | exit (status : Int32)
  | wait (addr : Bool)
  | kill (pid : Int32)

def Call.start : Call → Point
  | .fork => .forkScan 0
  | .exit st => .exit st
  | .wait addr => .wait addr
  | .kill x => .killScan x 0

inductive Act (nc : Nat) where
  /-- The process on processor `c` makes a system call. -/
  | call (c : Fin nc) (k : Call)
  /-- A timer interrupt, or the thread has to wait for something. -/
  | pause (c : Fin nc) (w : Pause)
  | run (c : Fin nc) (ok : Bool)
  /-- `wakeup` of a channel, by a thread or an interrupt, gets to slot `i`. -/
  | wakeup (n : Nat) (i : Slot)

/-- The first process may not exit: `panic("init exiting")`. -/
def callStep (s : State nc) (q : Slot) (k : Call) : Option (State nc) :=
  match s.pc q, k with
  | .at .idle, .exit st =>
    if q = initproc then none
    else some ((s.goto q (.at (.exit st))).note (.exit (s.proc q).pid st))
  | .at .idle, k => some (s.goto q (.at k.start))
  | _, _ => none

def pauseStep (s : State nc) (c : Fin nc) (q : Slot) (w : Pause) : Option (State nc) :=
  match s.pc q with
  | .at p => (s.acquire c q).map (·.goto q (.pause w p))
  | _ => none

def wakeupStep (s : State nc) (n : Nat) (i : Slot) : Option (State nc) :=
  if s.lock i = none then
    some (if (s.proc i).chan = some (.other n) then s.set i (s.proc i).wake else s)
  else none

def step (s : State nc) : Act nc → Option (State nc)
  | .call c k =>
    match (s.cpu c).ctx with
    | .thread q => callStep s q k
    | _ => none
  | .pause c w =>
    match (s.cpu c).ctx with
    | .thread q => pauseStep s c q w
    | _ => none
  | .run c ok =>
    match (s.cpu c).ctx with
    | .thread q => threadStep s c q ok (s.pc q)
    | x => schedulerStep s c x
  | .wakeup n i => wakeupStep s n i

/-- `userinit` has made the first process, and the processors enter their schedulers. -/
def boot (nc : Nat) : State nc where
  proc q := if q = initproc then ⟨.runnable, none, none, false, 0, 1⟩ else .free
  lock _ := none
  nextpid := 2
  pc q := .back (if q = initproc then .forkret else .dead)
  cpu _ := ⟨none, .loop 0⟩
  allocs := 1
  hist := []
  kills := []

end Xv6.Procs
