import Xv6.Kernel.Proc.Machine

/-! Calls that sleep (`pipe.c`, `consoleread` in `console.c`, `sys_sleep` in `sysproc.c`).

    ```
              acquire(lk)                    killed, or done
      enter ─────────────► test ─────────────────────────────► ret ── release(lk) ──► out
                           ▲  │
                           │  └─ nap ── acquire(&p->lock) ──► unlock ── release(lk) ──► asleep
                           └──────────────────── acquire(lk) ◄──────────────────────────┘
    ```

    The machine of processes and processors runs underneath: a thread is here in one of the calls
    while it is there at a point without process locks, and `sleep` gives up the processor there. A
    step is one acquire, one turn of a loop, or one release. A thread that holds one of the locks is
    not interrupted. -/

namespace Xv6.Sleep

open Procs (Slot)

def PIPESIZE : Nat := 512
def INPUT_BUF : Nat := 128

/-- The page of a pipe. -/
abbrev PipeId : Type := Nat

inductive End where | read | write
  deriving DecidableEq

/-- `struct pipe`. The rest is history: the bytes put in with their writers, the bytes taken out, and
    the buffers that each process has passed to `pipewrite`. -/
structure Pipe where
  data : Nat → UInt8
  nread : UInt32
  nwrite : UInt32
  readopen : Bool
  writeopen : Bool
  ins : List (Slot × UInt8)
  outs : List UInt8
  given : Slot → List (List UInt8)

namespace Pipe

def isOpen (p : Pipe) : End → Bool
  | .read => p.readopen
  | .write => p.writeopen

def shut (p : Pipe) : End → Pipe
  | .read => { p with readopen := false }
  | .write => { p with writeopen := false }

/-- `pi->nwrite == pi->nread + PIPESIZE`. -/
def full (p : Pipe) : Bool := p.nwrite = p.nread + 512

def empty (p : Pipe) : Bool := p.nread = p.nwrite

/-- `pi->data[pi->nwrite++ % PIPESIZE] = ch`. -/
def put (p : Pipe) (q : Slot) (ch : UInt8) : Pipe :=
  { p with data := Function.update p.data (p.nwrite.toNat % PIPESIZE) ch, nwrite := p.nwrite + 1,
           ins := p.ins ++ [(q, ch)] }

/-- `ch = pi->data[pi->nread++ % PIPESIZE]`. -/
def take (p : Pipe) : Pipe :=
  { p with nread := p.nread + 1, outs := p.outs ++ [p.data (p.nread.toNat % PIPESIZE)] }

/-- What `pipealloc` makes of a page; `data` is what has been in the page. -/
def alloc (p : Pipe) : Pipe := ⟨p.data, 0, 0, true, true, [], [], fun _ => []⟩

def give (p : Pipe) (q : Slot) (src : List UInt8) : Pipe :=
  { p with given := Function.update p.given q (p.given q ++ [src]) }

end Pipe

/-- `cons`. The rest is history: the characters that came in, and those that readers have taken. -/
structure Cons where
  buf : Nat → UInt8
  r : UInt32
  w : UInt32
  e : UInt32
  typed : List UInt8
  eaten : List UInt8

/-! ### Calls -/

inductive Lock where
  | pipe (i : PipeId)
  | cons
  | ticks
  deriving DecidableEq

/-- What the calls sleep on; `other` stands for the channels of the rest of the kernel. -/
inductive Chan where
  | nread (i : PipeId)
  | nwrite (i : PipeId)
  | cons
  | ticks
  | other (n : Nat)
  deriving DecidableEq

/-- The channel as the machine of processes sees it. -/
def Chan.num : Chan → Nat
  | .cons => 0
  | .ticks => 1
  | .nread i => 3 * i + 2
  | .nwrite i => 3 * i + 3
  | .other n => 3 * n + 4

/-- A call with its arguments and local variables. A user buffer is given by its readable bytes, or
    by the number of its writable ones. -/
inductive Call where
  /-- `pipewrite`; when it last woke the readers, `i` was `told`. -/
  | write (pi : PipeId) (src : List UInt8) (n : Int32) (i told : Nat)
  | read (pi : PipeId) (room : Nat) (n : Int32)
  | console (room : Nat) (n : Int32) (target : UInt32)
  | sleep (n : Int32) (ticks0 : UInt32)
  deriving DecidableEq

def Call.lock : Call → Lock
  | .write pi .. | .read pi .. => .pipe pi
  | .console .. => .cons
  | .sleep .. => .ticks

def Call.chan : Call → Chan
  | .write pi .. => .nwrite pi
  | .read pi .. => .nread pi
  | .console .. => .cons
  | .sleep .. => .ticks

/-- The end of a pipe that a call works on. -/
def Call.file : Call → Option (PipeId × End)
  | .write pi .. => some (pi, .write)
  | .read pi .. => some (pi, .read)
  | _ => none

/-- What follows a call of `wakeup`. -/
inductive After where
  | nap (k : Call)
  | ret (l : Lock) (v : Int32)
  deriving DecidableEq

/-- Where a thread is. -/
inductive Pos where
  /-- In none of the calls. -/
  | out
  /-- About to acquire the lock of the call. -/
  | enter (k : Call)
  /-- At the test of the loop that sleeps. -/
  | test (k : Call)
  /-- About to call `sleep`: `killed` has been tested. -/
  | nap (k : Call)
  /-- In `sleep`, before it releases the lock of the call. -/
  | unlock (k : Call)
  /-- In `sleep`, until it has the lock again. -/
  | asleep (k : Call)
  /-- `pipewrite` has found room. -/
  | put (pi : PipeId) (src : List UInt8) (n : Int32) (i told : Nat)
  /-- `piperead`, in its second loop. -/
  | copy (pi : PipeId) (room : Nat) (n : Int32) (i : Nat)
  /-- `wakeup` gets to slot `i`. -/
  | wakeup (ch : Chan) (i : Nat) (k : After)
  /-- About to release the lock and to return. -/
  | ret (l : Lock) (v : Int32)
  /-- `pipeclose`, before it acquires the lock. -/
  | close (x : PipeId × End)
  deriving DecidableEq

def After.pos : After → Pos
  | .nap k => .nap k
  | .ret l v => .ret l v

def After.lock : After → Lock
  | .nap k => k.lock
  | .ret l _ => l

/-- The lock that the thread holds. -/
def Pos.holds : Pos → Option Lock
  | .out | .enter _ | .asleep _ | .close _ => none
  | .test k | .nap k | .unlock k => some k.lock
  | .put pi .. | .copy pi .. => some (.pipe pi)
  | .wakeup _ _ k => some k.lock
  | .ret l _ => some l

/-- An interrupt: a character from the uart, or the clock. -/
inductive Irq where
  | uart (c : UInt8)
  | clock
  deriving DecidableEq

def Irq.lock : Irq → Lock
  | .uart _ => .cons
  | .clock => .ticks

/-- Where the handler of an interrupt is, `consoleintr` or `clockintr`. -/
inductive Handler where
  | enter (x : Irq)
  | edit (x : Irq)
  | wakeup (ch : Chan) (i : Nat) (l : Lock)
  | ret (l : Lock)
  deriving DecidableEq

def Handler.holds : Handler → Option Lock
  | .enter _ => none
  | .edit x => some x.lock
  | .wakeup _ _ l | .ret l => some l

/-! ### States -/

/-- `ofile` has the descriptors of pipes only; `a0` is what the last call returned. -/
structure State (nc : Nat) where
  procs : Procs.State nc
  lock : Lock → Option (Fin nc)
  pos : Slot → Pos
  intr : Fin nc → Option Handler
  pipe : PipeId → Pipe
  cons : Cons
  ticks : UInt32
  ofile : Slot → List (PipeId × End)
  a0 : Slot → Int32

variable {nc : Nat}

namespace State

@[simps -fullyApplied]
def goto (s : State nc) (q : Slot) (k : Pos) : State nc := { s with pos := Function.update s.pos q k }

/-- `acquire` spins while the lock is held. -/
def acquire (s : State nc) (c : Fin nc) (l : Lock) : Option (State nc) :=
  if s.lock l = none then some { s with lock := Function.update s.lock l (some c) } else none

@[simps -fullyApplied]
def release (s : State nc) (l : Lock) : State nc := { s with lock := Function.update s.lock l none }

@[simps -fullyApplied]
def setPipe (s : State nc) (i : PipeId) (p : Pipe) : State nc :=
  { s with pipe := Function.update s.pipe i p }

@[simps -fullyApplied]
def setFiles (s : State nc) (q : Slot) (l : List (PipeId × End)) : State nc :=
  { s with ofile := Function.update s.ofile q l }

@[simps -fullyApplied]
def handle (s : State nc) (c : Fin nc) (h : Option Handler) : State nc :=
  { s with intr := Function.update s.intr c h }

/-- A step of the machine underneath. -/
def lift (s : State nc) (a : Procs.Act nc) : Option (State nc) :=
  (Procs.step s.procs a).map fun u => { s with procs := u }

/-- `myproc()->killed`. -/
def killed (s : State nc) (q : Slot) : Bool := (s.procs.proc q).killed

/-- The process whose thread the processor executes, when it is not in a handler. -/
def current (s : State nc) (c : Fin nc) : Option Slot :=
  match s.intr c, (s.procs.cpu c).ctx with
  | none, .thread q => some q
  | _, _ => none

end State

open State

/-! ### The console -/

/-- The loop of `case C('U')`; `n` is `e - w`. -/
def Cons.killLine (k : Cons) : Nat → Cons
  | 0 => k
  | n + 1 =>
    if k.e ≠ k.w ∧ k.buf ((k.e - 1).toNat % INPUT_BUF) ≠ 10 then killLine { k with e := k.e - 1 } n else k

/-- The switch of `consoleintr`, without the echo; `true` when it wakes the readers. -/
def Cons.edit (k : Cons) (c : UInt8) : Cons × Bool :=
  -- C('P')
  if c = 16 then (k, false)
  -- C('U')
  else if c = 21 then (k.killLine (k.e - k.w).toNat, false)
  -- C('H') and '\x7f'
  else if c = 8 ∨ c = 127 then (if k.e ≠ k.w then { k with e := k.e - 1 } else k, false)
  else if c ≠ 0 ∧ k.e - k.r < 128 then
    let c := if c = 13 then 10 else c
    let k := { k with buf := Function.update k.buf (k.e.toNat % INPUT_BUF) c, e := k.e + 1 }
    if c = 10 ∨ c = 4 ∨ k.e = k.r + 128 then ({ k with w := k.e }, true) else (k, false)
  else (k, false)

/-- `consoleintr`, with the character in the history. -/
def Cons.intr (k : Cons) (c : UInt8) : Cons × Bool := Cons.edit { k with typed := k.typed ++ [c] } c

/-- `c = cons.buf[cons.r++ % INPUT_BUF]`. -/
def Cons.eat (k : Cons) : Cons :=
  { k with r := k.r + 1, eaten := k.eaten ++ [k.buf (k.r.toNat % INPUT_BUF)] }

/-! ### Steps of a thread in a call -/

/-- `consoleread` has input: it takes one character. -/
def eatStep (s : State nc) (q : Slot) (room : Nat) (n : Int32) (target : UInt32) : State nc :=
  let c := s.cons.buf (s.cons.r.toNat % INPUT_BUF)
  let done (n : Int32) : Pos := .ret .cons (target - n.toUInt32).toInt32
  if c = 4 then
    -- the end of the file is kept for the next call, when this one has characters to return
    if n.toUInt32 < target then s.goto q (done n) else { s with cons := s.cons.eat }.goto q (done n)
  else match room with
    | 0 => { s with cons := s.cons.eat }.goto q (done n)
    | room + 1 =>
      { s with cons := s.cons.eat }.goto q
        (if c = 10 then done (n - 1) else .test (.console room (n - 1) target))

/-- The test of the loop, with the lock held. -/
def testStep (s : State nc) (q : Slot) : Call → State nc
  | .write pi src n i told =>
    if (i : Int) < n.toInt then
      if (s.pipe pi).full then
        if !(s.pipe pi).readopen || s.killed q then s.goto q (.ret (.pipe pi) (-1))
        else s.goto q (.wakeup (.nread pi) 0 (.nap (.write pi src n i i)))
      else s.goto q (.put pi src n i told)
    else s.goto q (.wakeup (.nread pi) 0 (.ret (.pipe pi) n))
  | .read pi room n =>
    if (s.pipe pi).empty && (s.pipe pi).writeopen then
      if s.killed q then s.goto q (.ret (.pipe pi) (-1)) else s.goto q (.nap (.read pi room n))
    else s.goto q (.copy pi room n 0)
  | .console room n target =>
    if 0 < n then
      if s.cons.r = s.cons.w then
        if s.killed q then s.goto q (.ret .cons (-1)) else s.goto q (.nap (.console room n target))
      else eatStep s q room n target
    else s.goto q (.ret .cons (target - n.toUInt32).toInt32)
  | .sleep n ticks0 =>
    if s.ticks - ticks0 < n.toUInt32 then
      if s.killed q then s.goto q (.ret .ticks (-1)) else s.goto q (.nap (.sleep n ticks0))
    else s.goto q (.ret .ticks 0)

def putStep (s : State nc) (q : Slot) (pi : PipeId) (src : List UInt8) (n : Int32) (i told : Nat) :
    State nc :=
  match src[i]? with
  -- copyin fails
  | none => s.goto q (.wakeup (.nread pi) 0 (.ret (.pipe pi) n))
  | some ch => (s.setPipe pi ((s.pipe pi).put q ch)).goto q (.test (.write pi src n (i + 1) told))

def copyStep (s : State nc) (q : Slot) (pi : PipeId) (room : Nat) (n : Int32) (i : Nat) : State nc :=
  let done : Pos := .wakeup (.nwrite pi) 0 (.ret (.pipe pi) (Int32.ofNat i))
  if (i : Int) < n.toInt ∧ !(s.pipe pi).empty then
    -- copyout comes after the byte has been taken
    (s.setPipe pi (s.pipe pi).take).goto q (if i < room then .copy pi room n (i + 1) else done)
  else s.goto q done

/-- What `pipeclose` wakes. -/
def closeChan : PipeId × End → Chan
  | (pi, .read) => .nwrite pi
  | (pi, .write) => .nread pi

/-- The values that the first step of a call gives to its variables. -/
def Call.start (ticks : UInt32) : Call → Call
  | .sleep n _ => .sleep n ticks
  | k => k

/-- One iteration of `wakeup`. -/
def wakeupStep (s : State nc) (ch : Chan) (i : Slot) : Option (State nc) := s.lift (.wakeup ch.num i)

/-- The next step of the thread of `q` in a call. -/
def callStep (s : State nc) (c : Fin nc) (q : Slot) : Pos → Option (State nc)
  | .out => none
  | .enter k => (s.acquire c k.lock).map (·.goto q (.test (k.start s.ticks)))
  | .test k => some (testStep s q k)
  | .nap k => (s.lift (.pause c (.sleep k.chan.num))).map (·.goto q (.unlock k))
  | .unlock k => some ((s.release k.lock).goto q (.asleep k))
  | .asleep k => (s.acquire c k.lock).map (·.goto q (.test k))
  | .put pi src n i told => some (putStep s q pi src n i told)
  | .copy pi room n i => some (copyStep s q pi room n i)
  | .wakeup ch i k =>
    if h : i < NPROC then (wakeupStep s ch ⟨i, h⟩).map (·.goto q (.wakeup ch (i + 1) k))
    else some (s.goto q k.pos)
  | .ret l v => some ({ s.release l with a0 := Function.update s.a0 q v }.goto q .out)
  | .close x =>
    -- the page of a pipe with both ends closed is free once the lock is
    (s.acquire c (.pipe x.1)).map fun s =>
      (s.setPipe x.1 ((s.pipe x.1).shut x.2)).goto q (.wakeup (closeChan x) 0 (.ret (.pipe x.1) 0))

/-- The next step of a handler. -/
def handlerStep (s : State nc) (c : Fin nc) : Handler → Option (State nc)
  | .enter x => (s.acquire c x.lock).map (·.handle c (some (.edit x)))
  | .edit (.uart ch) => some <|
    let k := s.cons.intr ch
    { s with cons := k.1 }.handle c (some (if k.2 then .wakeup .cons 0 .cons else .ret .cons))
  | .edit .clock => some ({ s with ticks := s.ticks + 1 }.handle c (some (.wakeup .ticks 0 .ticks)))
  | .wakeup ch i l =>
    if h : i < NPROC then (wakeupStep s ch ⟨i, h⟩).map (·.handle c (some (.wakeup ch (i + 1) l)))
    else some (s.handle c (some (.ret l)))
  | .ret l => some ((s.release l).handle c none)

/-! ### Steps -/

/-- The calls as user code makes them. -/
inductive Req where
  | pipewrite (pi : PipeId) (src : List UInt8) (n : Int32)
  | piperead (pi : PipeId) (room : Nat) (n : Int32)
  | consoleread (room : Nat) (n : Int32)
  | sysSleep (n : Int32)

def Req.call : Req → Call
  | .pipewrite pi src n => .write pi src n 0 0
  | .piperead pi room n => .read pi room n
  | .consoleread room n => .console room n n.toUInt32
  | .sysSleep n => .sleep n 0

inductive Act (nc : Nat) where
  /-- The process on processor `c` calls `fork`, `exit`, `wait` or `kill`. -/
  | call (c : Fin nc) (k : Procs.Call)
  | yield (c : Fin nc)
  /-- A step of the scheduler, or of a thread outside the calls modelled here. -/
  | run (c : Fin nc) (ok : Bool)
  /-- Other code of the kernel sleeps, and wakes what sleeps there. -/
  | sleep (c : Fin nc) (n : Nat)
  | wakeup (n : Nat) (i : Slot)
  | pipealloc (c : Fin nc) (pi : PipeId)
  | dup (c : Fin nc) (x : PipeId × End)
  | close (c : Fin nc) (x : PipeId × End)
  | enter (c : Fin nc) (r : Req)
  | go (c : Fin nc)
  | interrupt (c : Fin nc) (x : Irq)
  | handle (c : Fin nc)

/-- The thread may go on in the machine underneath: it is outside the calls, or it gives up its
    processor. An exiting process has to close its files first. -/
def State.mayRun (s : State nc) (q : Slot) : Bool :=
  match s.procs.pc q with
  | .at (.exit _) => s.pos q = .out && s.ofile q = []
  | .at _ => s.pos q = .out
  | _ => (s.pos q).holds = none

/-- `fork` duplicates the descriptors before the child can run. -/
def State.inherit (s : State nc) (q : Slot) : Procs.Pc → State nc
  | .forkStart i => s.setFiles i (s.ofile q)
  | _ => s

def enterStep (s : State nc) (q : Slot) (r : Req) : Option (State nc) :=
  if s.procs.pc q = .at .idle ∧ s.pos q = .out ∧ ∀ x, r.call.file = some x → x ∈ s.ofile q then
    match r with
    | .pipewrite pi src _ => some ((s.setPipe pi ((s.pipe pi).give q src)).goto q (.enter r.call))
    | _ => some (s.goto q (.enter r.call))
  else none

def pipeallocStep (s : State nc) (q : Slot) (pi : PipeId) : Option (State nc) :=
  if s.procs.pc q = .at .idle ∧ s.pos q = .out ∧ (s.pipe pi).readopen = false ∧
      (s.pipe pi).writeopen = false ∧ s.lock (.pipe pi) = none then
    some ((s.setPipe pi (s.pipe pi).alloc).setFiles q ((pi, .read) :: (pi, .write) :: s.ofile q))
  else none

def dupStep (s : State nc) (q : Slot) (x : PipeId × End) : Option (State nc) :=
  if s.procs.pc q = .at .idle ∧ s.pos q = .out ∧ x ∈ s.ofile q then some (s.setFiles q (x :: s.ofile q))
  else none

/-- `sys_close` and the loop of `exit`: the last descriptor closes the end of the pipe. -/
def closeStep (s : State nc) (q : Slot) (x : PipeId × End) : Option (State nc) :=
  if s.pos q = .out ∧ x ∈ s.ofile q then
    match s.procs.pc q with
    | .at .idle | .at (.exit _) =>
      let s := s.setFiles q ((s.ofile q).erase x)
      some (if ∀ r, x ∉ s.ofile r then s.goto q (.close x) else s)
    | _ => none
  else none

/-- Interrupts are on when the processor holds no lock. -/
def State.intrOn (s : State nc) (c : Fin nc) : Bool :=
  s.intr c = none &&
  match (s.procs.cpu c).ctx with
  | .loop _ => true
  | .thread q => (s.procs.pc q).holds q = [] && (s.pos q).holds = none
  | _ => false

def goStep (s : State nc) (c : Fin nc) (q : Slot) : Option (State nc) :=
  match s.procs.pc q, s.pos q with
  | .at _, k => callStep s c q k
  | .pause .., .unlock k => callStep s c q (.unlock k)
  | _, _ => none

def step (s : State nc) : Act nc → Option (State nc)
  | .call c k => (s.current c).bind fun q => if s.pos q = .out then s.lift (.call c k) else none
  | .yield c =>
    (s.current c).bind fun q => if (s.pos q).holds = none then s.lift (.pause c .yield) else none
  | .run c ok =>
    if s.intr c = none then
      match (s.procs.cpu c).ctx with
      | .thread q =>
        if s.mayRun q then (s.lift (.run c ok)).map (·.inherit q (s.procs.pc q)) else none
      | _ => s.lift (.run c ok)
    else none
  | .sleep c n => (s.current c).bind fun q =>
    if s.pos q = .out then s.lift (.pause c (.sleep (Chan.other n).num)) else none
  | .wakeup n i => wakeupStep s (.other n) i
  | .pipealloc c pi => (s.current c).bind (pipeallocStep s · pi)
  | .dup c x => (s.current c).bind (dupStep s · x)
  | .close c x => (s.current c).bind (closeStep s · x)
  | .enter c r => (s.current c).bind (enterStep s · r)
  | .go c => (s.current c).bind (goStep s c ·)
  -- the clock interrupts processor 0
  | .interrupt c x =>
    if s.intrOn c ∧ (x = .clock → c.val = 0) then some (s.handle c (some (.enter x))) else none
  | .handle c => (s.intr c).bind (handlerStep s c ·)

def boot (nc : Nat) : State nc where
  procs := Procs.boot nc
  lock _ := none
  pos _ := .out
  intr _ := none
  pipe _ := ⟨fun _ => 0, 0, 0, false, false, [], [], fun _ => []⟩
  cons := ⟨fun _ => 0, 0, 0, 0, [], []⟩
  ticks := 0
  ofile _ := []
  a0 _ := 0

end Xv6.Sleep
