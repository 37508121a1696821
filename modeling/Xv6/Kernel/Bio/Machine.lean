import Mathlib.Data.List.FinRange
import Mathlib.Logic.Function.Basic
import Xv6.Schemes.System
import Xv6.Kernel.Log.Recovery

/-! The buffer cache and the log, run by many processes (`bio.c`, `log.c`).

    Every process is a client that calls `bread`, `bwrite`, `brelse`, `log_write`, `begin_op` and
    `end_op`, or is inside one of these functions, or runs `commit` at the end of the last operation
    of a group; process 0 first boots (`fsinit`: `readsb`, then `initlog`). A step is what happens
    between two lock operations: one critical section under `bcache.lock` or `log.lock`, one
    acquire or release of a buffer's sleep lock, one use of a buffer whose lock is held. Processes
    interleave between steps.

    The log is the one of `ROOTDEV`; no other device's log is ever initialised, so `log_write` on
    another device finds `size = 0` and panics. -/

namespace Xv6.Bio
open Function
open Log (Geometry putHead getHead blockAt)

/-- An index into `bcache.buf`. -/
abbrev BufId : Type := Fin NBUF

instance : NeZero NBUF := ⟨by decide⟩

/-- `struct buf`: `refcnt` is a C `uint`, `lock` the holder of the sleep lock. -/
structure Buf (np : Nat) where
  dev : Nat
  blockno : Nat
  valid : Bool
  refcnt : UInt32
  lock : Option (Fin np)
  data : Block

/-- The three places where `write_head` runs: the commit record, its erasure after the install,
    and the erasure at boot. -/
inductive Head where | record | erase | boot
  deriving DecidableEq

/-- Where a `bread` returns to. -/
inductive Cont where
  | client
  | readsb
  | readHead
  | logTo (tail : Nat)
  | logFrom (tail : Nat) (dst : BufId)
  | head (h : Head)
  | instLog (boot : Bool) (tail : Nat)
  | instHome (boot : Bool) (tail : Nat) (lbuf : BufId)
  deriving DecidableEq

/-- Where a `brelse` returns to. -/
inductive Ret where
  | client
  | readsb
  | readHead
  | logFrom (tail : Nat) (dst : BufId)
  | logTo (tail : Nat)
  | head (h : Head)
  | instLog (boot : Bool) (tail : Nat) (dbuf : BufId)
  | instHome (boot : Bool) (tail : Nat)
  deriving DecidableEq

/-- Program counters. -/
inductive PC (np : Nat) where
  | idle
  -- bget, then the rest of bread
  | bget (dev bn : Nat) (k : Cont)
  | acquire (dev bn : Nat) (b : BufId) (k : Cont)
  | fill (dev bn : Nat) (b : BufId) (k : Cont)
  -- brelse: releasesleep, then the reference count
  | release (b : BufId) (k : Ret)
  | putref (b : BufId) (k : Ret)
  | logWrite (b : BufId)
  -- begin_op, with the stages of sleep
  | beginAcquire
  | beginTest
  | sleepLock
  | sleepState
  | sleeping
  | wakened
  -- end_op
  | endAcquire
  | endTest
  | wakeup (qs : List (Fin np))
  | endRelease
  | commit
  | writeLog (tail : Nat)
  | logCopy (tail : Nat) (dst src : BufId)
  | headCopy (h : Head) (hb : BufId)
  | install (boot : Bool) (tail : Nat)
  | installCopy (boot : Bool) (tail : Nat) (lbuf dbuf : BufId)
  | bunpin (boot : Bool) (tail : Nat) (lbuf dbuf : BufId)
  | endAcquire2
  | endReset
  -- boot
  | readHeadCopy (b : BufId)
  | bootDone
  deriving DecidableEq

/-- A file system operation of the current group: who runs it, the blocks it passed to `log_write`,
    and whether it has called `end_op`. -/
structure Op (np : Nat) where
  pid : Fin np
  blocks : List Nat
  ended : Bool

/-- The shared state. The fields from `ops` on are history, which no guard reads: the operations
    begun since the last commit, the home blocks the commit has installed, the number of buffers it
    has unpinned, the contents the last holder (`contents`) and the last client (`written`) left in
    each block, and the buffers modified since they were last logged or written. -/
structure State (np : Nat) where
  bufs : BufId → Buf np
  lru : List BufId
  disk : Nat → Disk
  lock : Option (Fin np)
  outstanding : Nat
  committing : Bool
  lh : List Nat
  booted : Bool
  panicked : Option String
  pc : Fin np → PC np
  inOp : Fin np → Bool
  ops : List (Op np)
  installed : List Nat
  unpinned : Nat
  contents : Nat → Disk
  written : Nat → Disk
  dirty : BufId → Bool

/-- The actions. Those of the first group are calls a client makes. -/
inductive Act (np : Nat) where
  | bread (p : Fin np) (dev bn : Nat)
  | brelse (p : Fin np) (b : BufId)
  | modify (p : Fin np) (b : BufId) (d : Block)
  | bwrite (p : Fin np) (b : BufId)
  | logWrite (p : Fin np) (b : BufId)
  | logWriteTooBig (p : Fin np) (b : BufId)
  | logWriteOutside (p : Fin np) (b : BufId)
  | beginOp (p : Fin np)
  | endOp (p : Fin np)
  | kill (q : Fin np)
  | bgetHit (p : Fin np) (dev bn : Nat) (k : Cont) (b : BufId)
  | bgetRecycle (p : Fin np) (dev bn : Nat) (k : Cont) (b : BufId)
  | bgetPanic (p : Fin np) (dev bn : Nat) (k : Cont)
  | acquire (p : Fin np) (dev bn : Nat) (b : BufId) (k : Cont)
  | fill (p : Fin np) (dev bn : Nat) (b : BufId) (k : Cont)
  | release (p : Fin np) (b : BufId) (k : Ret)
  | putref (p : Fin np) (b : BufId) (k : Ret)
  | logWriteLocked (p : Fin np) (b : BufId)
  | beginAcquire (p : Fin np)
  | beginEnter (p : Fin np)
  | beginWait (p : Fin np)
  | sleepLock (p : Fin np)
  | sleepState (p : Fin np)
  | resume (p : Fin np)
  | endAcquire (p : Fin np)
  | endPanic (p : Fin np)
  | endLast (p : Fin np)
  | endMore (p : Fin np)
  | wakeup (p q : Fin np) (qs : List (Fin np))
  | wakeupDone (p : Fin np)
  | endRelease (p : Fin np)
  | commitSome (p : Fin np)
  | commitNone (p : Fin np)
  | writeLogNext (p : Fin np) (tail : Nat)
  | writeLogDone (p : Fin np) (tail : Nat)
  | logCopy (p : Fin np) (tail : Nat) (dst src : BufId)
  | headCopy (p : Fin np) (h : Head) (hb : BufId)
  | installNext (p : Fin np) (boot : Bool) (tail : Nat)
  | installDone (p : Fin np) (boot : Bool) (tail : Nat)
  | installCopy (p : Fin np) (boot : Bool) (tail : Nat) (lbuf dbuf : BufId)
  | bunpin (p : Fin np) (boot : Bool) (tail : Nat) (lbuf dbuf : BufId)
  | endAcquire2 (p : Fin np)
  | endReset (p : Fin np)
  | readHeadCopy (p : Fin np) (b : BufId)
  | bootDone (p : Fin np)

variable {np : Nat}

/-- `bget`'s first loop: the cached buffer for a block, from the most recently used on. -/
def lookup (s : State np) (dev bn : Nat) : Option BufId :=
  s.lru.find? fun b => (s.bufs b).dev == dev && (s.bufs b).blockno == bn

/-- `bget`'s second loop: the least recently used buffer without references. -/
def victim (s : State np) : Option BufId := s.lru.reverse.find? fun b => (s.bufs b).refcnt == 0

/-- `log_write`'s first check. -/
def tooBig (g : Geometry) (s : State np) (b : BufId) : Prop :=
  (s.bufs b).dev ≠ ROOTDEV ∨ LOGSIZE ≤ s.lh.length ∨ g.size ≤ s.lh.length + 1

/-- `begin_op`'s test: a commit is running, or this operation might exhaust the log space. -/
def mustWait (s : State np) : Prop :=
  s.committing = true ∨ LOGSIZE < s.lh.length + (s.outstanding + 1) * MAXOPBLOCKS

instance (g : Geometry) (s : State np) (b : BufId) : Decidable (tooBig g s b) :=
  inferInstanceAs (Decidable (_ ∨ _))

instance (s : State np) : Decidable (mustWait s) := inferInstanceAs (Decidable (_ ∨ _))

/-- When an action may happen. A client calls `brelse`, `bwrite` and `log_write` on buffers it holds,
    `log_write` and `end_op` inside an operation, `begin_op` outside. -/
def guard (g : Geometry) (s : State np) : Act np → Prop
  | .bread p _ _ => s.pc p = .idle ∧ s.booted = true
  | .brelse p b => s.pc p = .idle ∧ s.booted = true ∧ (s.bufs b).lock = some p
  | .modify p b _ => s.pc p = .idle ∧ s.booted = true ∧ (s.bufs b).lock = some p
  | .bwrite p b => s.pc p = .idle ∧ s.booted = true ∧ (s.bufs b).lock = some p
  | .logWrite p b => s.pc p = .idle ∧ s.booted = true ∧ (s.bufs b).lock = some p ∧ s.inOp p = true ∧
      ¬ tooBig g s b ∧ 1 ≤ s.outstanding
  | .logWriteTooBig p b => s.pc p = .idle ∧ s.booted = true ∧ (s.bufs b).lock = some p ∧
      s.inOp p = true ∧ tooBig g s b
  | .logWriteOutside p b => s.pc p = .idle ∧ s.booted = true ∧ (s.bufs b).lock = some p ∧
      s.inOp p = true ∧ ¬ tooBig g s b ∧ s.outstanding < 1
  | .beginOp p => s.pc p = .idle ∧ s.booted = true ∧ s.inOp p = false
  | .endOp p => s.pc p = .idle ∧ s.booted = true ∧ s.inOp p = true
  | .kill q => s.pc q = .sleeping
  | .bgetHit p dev bn k b => s.pc p = .bget dev bn k ∧ lookup s dev bn = some b
  | .bgetRecycle p dev bn k b =>
      s.pc p = .bget dev bn k ∧ lookup s dev bn = none ∧ victim s = some b
  | .bgetPanic p dev bn k => s.pc p = .bget dev bn k ∧ lookup s dev bn = none ∧ victim s = none
  | .acquire p dev bn b k => s.pc p = .acquire dev bn b k ∧ (s.bufs b).lock = none
  | .fill p dev bn b k => s.pc p = .fill dev bn b k
  | .release p b k => s.pc p = .release b k
  | .putref p b k => s.pc p = .putref b k
  | .logWriteLocked p b => s.pc p = .logWrite b ∧ s.lock = none
  | .beginAcquire p => s.pc p = .beginAcquire ∧ s.lock = none
  | .beginEnter p => s.pc p = .beginTest ∧ ¬ mustWait s
  | .beginWait p => s.pc p = .beginTest ∧ mustWait s
  | .sleepLock p => s.pc p = .sleepLock
  | .sleepState p => s.pc p = .sleepState
  | .resume p => s.pc p = .wakened
  | .endAcquire p => s.pc p = .endAcquire ∧ s.lock = none
  | .endPanic p => s.pc p = .endTest ∧ s.committing = true
  | .endLast p => s.pc p = .endTest ∧ s.committing = false ∧ s.outstanding - 1 = 0
  | .endMore p => s.pc p = .endTest ∧ s.committing = false ∧ s.outstanding - 1 ≠ 0
  -- wakeup takes each process's lock, which a process going to sleep holds
  | .wakeup p q qs => s.pc p = .wakeup (q :: qs) ∧ s.pc q ≠ .sleepState
  | .wakeupDone p => s.pc p = .wakeup []
  | .endRelease p => s.pc p = .endRelease
  | .commitSome p => s.pc p = .commit ∧ 0 < s.lh.length
  | .commitNone p => s.pc p = .commit ∧ ¬ 0 < s.lh.length
  | .writeLogNext p tail => s.pc p = .writeLog tail ∧ tail < s.lh.length
  | .writeLogDone p tail => s.pc p = .writeLog tail ∧ ¬ tail < s.lh.length
  | .logCopy p tail dst src => s.pc p = .logCopy tail dst src
  | .headCopy p h hb => s.pc p = .headCopy h hb
  | .installNext p boot tail => s.pc p = .install boot tail ∧ tail < s.lh.length
  | .installDone p boot tail => s.pc p = .install boot tail ∧ ¬ tail < s.lh.length
  | .installCopy p boot tail lbuf dbuf => s.pc p = .installCopy boot tail lbuf dbuf
  | .bunpin p boot tail lbuf dbuf => s.pc p = .bunpin boot tail lbuf dbuf
  | .endAcquire2 p => s.pc p = .endAcquire2 ∧ s.lock = none
  | .endReset p => s.pc p = .endReset
  | .readHeadCopy p b => s.pc p = .readHeadCopy b
  | .bootDone p => s.pc p = .bootDone

/-- Where `bread` returns to with its buffer `b` locked and valid. -/
def Cont.goto (lh : List Nat) (b : BufId) : Cont → PC np
  | .client => .idle
  | .readsb => .release b .readsb
  | .readHead => .readHeadCopy b
  | .logTo tail => .bget ROOTDEV (blockAt lh tail) (.logFrom tail b)
  | .logFrom tail dst => .logCopy tail dst b
  | .head h => .headCopy h b
  | .instLog boot tail => .bget ROOTDEV (blockAt lh tail) (.instHome boot tail b)
  | .instHome boot tail lbuf => .installCopy boot tail lbuf b

/-- What follows a header write: the install, the end of `commit`, or the end of boot. -/
def Head.after : Head → PC np
  | .record => .install false 0
  | .erase => .endAcquire2
  | .boot => .bootDone

/-- Where `brelse` returns to. -/
def Ret.goto (g : Geometry) : Ret → PC np
  | .client => .idle
  | .readsb => .bget ROOTDEV g.start .readHead
  | .readHead => .install true 0
  | .logFrom tail dst => .release dst (.logTo tail)
  | .logTo tail => .writeLog (tail + 1)
  | .head h => h.after
  | .instLog boot tail dbuf => .release dbuf (.instHome boot tail)
  | .instHome boot tail => .install boot (tail + 1)

/-- Store the contents `d` in buffer `b` and on the disk (`memmove` into a held buffer, then
    `bwrite`). -/
def store (s : State np) (b : BufId) (d : Block) : State np :=
  let dev := (s.bufs b).dev
  let bn := (s.bufs b).blockno
  { s with
    bufs := update s.bufs b { s.bufs b with data := d }
    disk := update s.disk dev (update (s.disk dev) bn d)
    contents := update s.contents dev (update (s.contents dev) bn d)
    dirty := update s.dirty b false }

/-- The effect of an action. -/
def next (g : Geometry) (s : State np) : Act np → State np
  | .bread p dev bn => { s with pc := update s.pc p (.bget dev bn .client) }
  | .brelse p b => { s with pc := update s.pc p (.release b .client) }
  | .modify _ b d =>
    let dev := (s.bufs b).dev
    let bn := (s.bufs b).blockno
    { s with
      bufs := update s.bufs b { s.bufs b with data := d }
      contents := update s.contents dev (update (s.contents dev) bn d)
      written := update s.written dev (update (s.written dev) bn d)
      dirty := update s.dirty b true }
  | .bwrite _ b => store s b (s.bufs b).data
  | .logWrite p b => { s with pc := update s.pc p (.logWrite b) }
  | .logWriteTooBig _ _ => { s with panicked := some "too big a transaction" }
  | .logWriteOutside _ _ => { s with panicked := some "log_write outside of trans" }
  | .beginOp p => { s with pc := update s.pc p .beginAcquire }
  | .endOp p => { s with pc := update s.pc p .endAcquire }
  | .kill q => { s with pc := update s.pc q .wakened }
  | .bgetHit p dev bn k b => { s with
      bufs := update s.bufs b { s.bufs b with refcnt := (s.bufs b).refcnt + 1 }
      pc := update s.pc p (.acquire dev bn b k) }
  | .bgetRecycle p dev bn k b => { s with
      bufs := update s.bufs b
        { s.bufs b with dev := dev, blockno := bn, valid := false, refcnt := 1 }
      pc := update s.pc p (.acquire dev bn b k) }
  | .bgetPanic _ _ _ _ => { s with panicked := some "bget: no buffers" }
  | .acquire p dev bn b k => { s with
      bufs := update s.bufs b { s.bufs b with lock := some p }
      pc := update s.pc p (.fill dev bn b k) }
  | .fill p _ _ b k =>
    let data := if (s.bufs b).valid then (s.bufs b).data
      else s.disk (s.bufs b).dev (s.bufs b).blockno
    { s with
      bufs := update s.bufs b { s.bufs b with valid := true, data := data }
      pc := update s.pc p (k.goto s.lh b) }
  | .release p b k => { s with
      bufs := update s.bufs b { s.bufs b with lock := none }
      pc := update s.pc p (.putref b k) }
  | .putref p b k => { s with
      bufs := update s.bufs b { s.bufs b with refcnt := (s.bufs b).refcnt - 1 }
      -- no one is waiting for it: move to the head of the MRU list
      lru := if (s.bufs b).refcnt - 1 = 0 then b :: s.lru.erase b else s.lru
      pc := update s.pc p (k.goto g) }
  | .logWriteLocked p b =>
    let bn := (s.bufs b).blockno
    { s with
      -- log absorption: a recorded block is not added, and not pinned, again
      lh := if bn ∈ s.lh then s.lh else s.lh ++ [bn]
      bufs := if bn ∈ s.lh then s.bufs
        else update s.bufs b { s.bufs b with refcnt := (s.bufs b).refcnt + 1 }
      pc := update s.pc p .idle
      ops := s.ops.map fun o =>
        if o.pid = p ∧ o.ended = false then { o with blocks := bn :: o.blocks } else o
      dirty := update s.dirty b false }
  | .beginAcquire p => { s with lock := some p, pc := update s.pc p .beginTest }
  | .beginEnter p => { s with
      outstanding := s.outstanding + 1
      lock := none
      pc := update s.pc p .idle
      inOp := update s.inOp p true
      ops := ⟨p, [], false⟩ :: s.ops }
  | .beginWait p => { s with pc := update s.pc p .sleepLock }
  | .sleepLock p => { s with lock := none, pc := update s.pc p .sleepState }
  | .sleepState p => { s with pc := update s.pc p .sleeping }
  | .resume p => { s with pc := update s.pc p .beginAcquire }
  | .endAcquire p => { s with lock := some p, pc := update s.pc p .endTest }
  | .endPanic _ => { s with panicked := some "log[dev].committing" }
  | .endLast p => { s with
      outstanding := s.outstanding - 1
      committing := true
      pc := update s.pc p .endRelease
      inOp := update s.inOp p false
      ops := s.ops.map fun o => if o.pid = p then { o with ended := true } else o
      installed := [] }
  | .endMore p => { s with
      outstanding := s.outstanding - 1
      pc := update s.pc p (.wakeup (List.finRange np))
      inOp := update s.inOp p false
      ops := s.ops.map fun o => if o.pid = p then { o with ended := true } else o }
  | .wakeup p q qs =>
    let pc := if s.pc q = .sleeping then update s.pc q .wakened else s.pc
    { s with pc := update pc p (.wakeup qs) }
  | .wakeupDone p => { s with lock := none, pc := update s.pc p .idle }
  | .endRelease p => { s with lock := none, pc := update s.pc p .commit }
  | .commitSome p => { s with pc := update s.pc p (.writeLog 0) }
  | .commitNone p => { s with pc := update s.pc p .endAcquire2 }
  | .writeLogNext p tail =>
    { s with pc := update s.pc p (.bget ROOTDEV (g.start + tail + 1) (.logTo tail)) }
  | .writeLogDone p _ =>
    { s with pc := update s.pc p (.bget ROOTDEV g.start (.head .record)) }
  | .logCopy p tail dst src => { store s dst (s.bufs src).data with
      pc := update s.pc p (.release src (.logFrom tail dst)) }
  | .headCopy p h hb => { store s hb (putHead (s.bufs hb).data s.lh) with
      pc := update s.pc p (.release hb (.head h)) }
  | .installNext p boot tail =>
    { s with pc := update s.pc p (.bget ROOTDEV (g.start + tail + 1) (.instLog boot tail)) }
  | .installDone p boot _ => { s with
      lh := []
      unpinned := 0
      pc := update s.pc p (.bget ROOTDEV g.start (.head (if boot then .boot else .erase))) }
  | .installCopy p boot tail lbuf dbuf => { store s dbuf (s.bufs lbuf).data with
      installed := s.installed ++ [blockAt s.lh tail]
      pc := update s.pc p (.bunpin boot tail lbuf dbuf) }
  | .bunpin p boot tail lbuf dbuf => { s with
      bufs := update s.bufs dbuf { s.bufs dbuf with refcnt := (s.bufs dbuf).refcnt - 1 }
      unpinned := s.unpinned + 1
      pc := update s.pc p (.release lbuf (.instLog boot tail dbuf)) }
  | .endAcquire2 p => { s with lock := some p, pc := update s.pc p .endReset }
  | .endReset p => { s with
      committing := false
      pc := update s.pc p (.wakeup (List.finRange np))
      ops := [] }
  | .readHeadCopy p b => { s with
      lh := getHead (s.bufs b).data
      pc := update s.pc p (.release b .readHead) }
  | .bootDone p => { s with booted := true, pc := update s.pc p .idle }

instance (g : Geometry) (s : State np) (a : Act np) : Decidable (guard g s a) := by
  cases a <;> unfold guard <;> infer_instance

/-- The machine: nothing moves after a panic. -/
def machine (g : Geometry) (np : Nat) : System (State np) (Act np) where
  guard s a := s.panicked = none ∧ guard g s a
  next := next g

instance (g : Geometry) (s : State np) (a : Act np) : Decidable ((machine g np).guard s a) :=
  inferInstanceAs (Decidable (_ ∧ _))

/-- A machine about to run `fsinit` on the disks `d`: `binit` has linked the buffers, the last one
    first, and nothing has been read. -/
def init [NeZero np] (d : Nat → Disk) : State np where
  bufs _ := ⟨0, 0, false, 0, none, Block.zero⟩
  lru := (List.finRange NBUF).reverse
  disk := d
  lock := none
  outstanding := 0
  committing := false
  lh := []
  booted := false
  panicked := none
  pc := update (fun _ => .idle) 0 (.bget ROOTDEV 1 .readsb)
  inOp _ := false
  ops := []
  installed := []
  unpinned := 0
  contents := d
  written := d
  dirty _ := false

/-! ### Calls that nobody interrupts -/

/-- The rest of a `bread` that finds its block cached, and of one that recycles a buffer. -/
def hitActs (p : Fin np) (bn : Nat) (k : Cont) (b : BufId) : List (Act np) :=
  [.bgetHit p ROOTDEV bn k b, .acquire p ROOTDEV bn b k, .fill p ROOTDEV bn b k]

def missActs (p : Fin np) (bn : Nat) (k : Cont) (b : BufId) : List (Act np) :=
  [.bgetRecycle p ROOTDEV bn k b, .acquire p ROOTDEV bn b k, .fill p ROOTDEV bn b k]

/-- The rest of a `brelse`. -/
def relActs (p : Fin np) (b : BufId) (k : Ret) : List (Act np) := [.release p b k, .putref p b k]

/-- `write_head`, with the header block in `hb`. -/
def headActs (g : Geometry) (p : Fin np) (h : Head) (hb : BufId) : List (Act np) :=
  hitActs p g.start (.head h) hb ++ .headCopy p h hb :: relActs p hb (.head h)

/-- `fsinit` on a disk whose log is empty. -/
def bootActs (g : Geometry) (np : Nat) [NeZero np] : List (Act np) :=
  List.flatten [missActs 0 1 .readsb 0, relActs 0 0 .readsb, missActs 0 g.start .readHead 1,
    [.readHeadCopy 0 1], relActs 0 1 .readHead, [.installDone 0 true 0], headActs g 0 .boot 1,
    [.bootDone 0]]

/-- `begin_op`. -/
def beginActs (p : Fin np) : List (Act np) := [.beginOp p, .beginAcquire p, .beginEnter p]

/-- `bread`, `log_write` and `brelse` of a block that is not cached. -/
def logActs (p : Fin np) (bn : Nat) (b : BufId) : List (Act np) :=
  .bread p ROOTDEV bn :: missActs p bn .client b ++
    .logWrite p b :: .logWriteLocked p b :: .brelse p b :: relActs p b .client

/-- `commit` of a group that logged the block `bn`, cached in `b`, with the log's first block in `lb`
    and the header in `hb`. -/
def commitActs (g : Geometry) (p : Fin np) (bn : Nat) (b lb hb : BufId) : List (Act np) :=
  List.flatten [[.endRelease p, .commitSome p, .writeLogNext p 0],
    missActs p (g.start + 1) (.logTo 0) lb, hitActs p bn (.logFrom 0 lb) b, [.logCopy p 0 lb b],
    relActs p b (.logFrom 0 lb), relActs p lb (.logTo 0), [.writeLogDone p 1],
    headActs g p .record hb,
    [.installNext p false 0], hitActs p (g.start + 1) (.instLog false 0) lb,
    hitActs p bn (.instHome false 0 lb) b, [.installCopy p false 0 lb b, .bunpin p false 0 lb b],
    relActs p lb (.instLog false 0 b), relActs p b (.instHome false 0), [.installDone p false 1],
    headActs g p .erase hb]

end Xv6.Bio
