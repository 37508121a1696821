import Xv6.Schemes.System
import Xv6.Kernel.Fs.CallSpec
import Xv6.Kernel.Fs.Contents

/-! Writers that share a file (`filewrite` in `file.c`).

    ```
            begin_op          ilock          f->off              if(n > 0)          f->off += r
      loop ─────────► begun ────────► locked ──────► writing ───────────► sizing ───────► wrote
       ▲                                             ▲     │                               │
       │   end_op                  iunlock           └─────┘                               ▼
       └─────────── unlocked ◄──────────────────────────────────────────────────────────  moved
    ```

    Any processes write to one `struct file`. A step of a process is one of the calls that `filewrite`
    makes, one round of `writei`'s loop, or one access to `f->off`; the steps of different processes
    interleave in any order. When `begin_op` admits a process is left open. -/

namespace Xv6.Fs.Shared
open Bytes Hoare

/-- Where a process is in `filewrite(f, addr, n)`, with the `n` bytes at `addr` and the number `i` of
    bytes that it has counted as written. -/
inductive Pc where
  | idle (ret : Int)
  | loop (data : List UInt8) (i : Nat)
  | begun (data : List UInt8) (i : Nat)
  | locked (data : List UInt8) (i : Nat)
  | writing (data : List UInt8) (i off tot : Nat)
  | sizing (data : List UInt8) (i off : Nat)
  | wrote (data : List UInt8) (i : Nat) (r : Option Nat)
  | moved (data : List UInt8) (i : Nat) (r : Option Nat)
  | unlocked (data : List UInt8) (i : Nat) (r : Option Nat)

variable {ι α : Type} [DecidableEq ι]

structure State (ι : Type) where
  fs : Fs.State
  outstanding : Nat
  pc : ι → Pc
  panicked : Option String

namespace State

def goto (s : State ι) (p : ι) (pc : Pc) : State ι := { s with pc := Function.update s.pc p pc }

/-- A process runs kernel code; it cannot while it would wait for a lock. -/
def exec (s : State ι) (p : ι) (m : M α) (next : α → Pc) : Option (State ι) :=
  match m s.fs with
  | .ok r => some ({ s with fs := r.2 }.goto p (next r.1))
  | .error .hang => none
  | .error (.panic msg) => some { s with panicked := some msg }

def beginOp (s : State ι) : State ι := { s with outstanding := s.outstanding + 1 }

/-- The last one out commits. -/
def endOp (s : State ι) : State ι :=
  if s.outstanding - 1 = 0 then
    { s with
      outstanding := 0
      fs := { s.fs with inlog := fun _ => false } }
  else { s with outstanding := s.outstanding - 1 }

end State

/-- `n1`, the number of bytes of the next chunk. -/
def chunkLen (data : List UInt8) (i : Nat) : Nat := min (data.length - i) writeMax

/-- `ret = (i == n ? n : -1)`. -/
def result (data : List UInt8) (i : Nat) : Int := if i = data.length then data.length else -1

/-- The start of `writei(f->ip, 1, addr + i, f->off, n1)`. -/
def enter (data : List UInt8) (i off size : Nat) : Pc :=
  if off > size ∨ (off + chunkLen data i) % 2 ^ 32 < off then .wrote data i none
  else if (off + chunkLen data i) % 2 ^ 32 > MAXFILE * BSIZE then .wrote data i none
  else .writing data i off 0

/-- After `end_op`. -/
def State.count (s : State ι) (p : ι) (data : List UInt8) (i : Nat) : Option Nat → State ι
  | none => s.goto p (.idle (result data i))
  | some r =>
    if r ≠ chunkLen data i then { s with panicked := some "short filewrite" }
    else s.goto p (.loop data (i + r))

/-- The next step of process `p`. -/
def run (sb : Superblock) (f : FileId) (s : State ι) (p : ι) : Option (State ι) :=
  let ip := (s.fs.ftable f).ip
  match s.pc p with
  | .idle _ => none
  | .loop data i =>
    if i < data.length then some (s.beginOp.goto p (.begun data i))
    else some (s.goto p (.idle (result data i)))
  | .begun data i => s.exec p (ilock sb ip) fun _ => .locked data i
  | .locked data i =>
    some (s.goto p (enter data i (s.fs.ftable f).off (s.fs.icache ip).din.size.toNat))
  | .writing data i off tot =>
    if tot < chunkLen data i then
      s.exec p (writeRound sb ip (fun j => data[i + j]?) (chunkLen data i) off tot) fun
        | some r => .writing data i r.1 r.2
        | none => .sizing data i off
    else some (s.goto p (.sizing data i off))
  | .sizing data i off =>
    s.exec p (writeiSize sb ip off (chunkLen data i)) fun _ => .wrote data i (some (chunkLen data i))
  | .wrote data i r => s.exec p (do advance f (← file f) r) fun _ => .moved data i r
  | .moved data i r => s.exec p (iunlock ip) fun _ => .unlocked data i r
  | .unlocked data i r => some (s.endOp.count p data i r)

inductive Act (ι : Type) where
  | call (p : ι) (data : List UInt8)
  | run (p : ι)

/-- A process calls `filewrite` on the file, or goes on with its call. -/
def step (sb : Superblock) (f : FileId) (s : State ι) (a : Act ι) : Option (State ι) :=
  if s.panicked ≠ none then none
  else match a with
    | .call p data =>
      match s.pc p with
      | .idle _ =>
        if (s.fs.ftable f).writable = false then some (s.goto p (.idle (-1)))
        else match (s.fs.ftable f).type with
          | .inode => some (s.goto p (.loop data 0))
          | _ => none
      | _ => none
    | .run p => run sb f s p

/-- Runs of the writers of the file `f`. -/
abbrev Run (sb : Superblock) (f : FileId) : State ι → List (Act ι) → State ι → Prop :=
  (System.ofStep (step sb f)).Run fun _ _ => True

end Xv6.Fs.Shared
