import Xv6.Schemes.Count
import Xv6.Schemes.System
import Xv6.Schemes.Update
import Xv6.Kernel.Fs.Inode

/-! The inode cache, used by many processes (`iget`, `idup`, `ilock`, `iunlock`, `iput` and `ialloc`
    of `fs.c`).

    ```
    iput:  test ──(ref = 1, valid, nlink = 0)──► trunc ─► type ─► invalid ─► drop ─► done
             └──────────────(otherwise)──────────────────────────────────────────► done
                icache.lock                  ip->lock held          no lock   icache.lock
    ```

    A step is one critical section under `icache.lock`, one acquire of an inode's sleep lock, or one
    access to the on-disk inode. Between them the processes interleave. -/

namespace Xv6.Icache
open Fs Function

/-- `struct inode`: `lock` is the holder of the sleep lock, `din` the fields copied from the disk. -/
structure Entry (np : Nat) where
  dev : Nat
  inum : Nat
  ref : Nat
  lock : Option (Fin np)
  valid : Bool
  din : Dinode

inductive PC where
  | idle
  | ilockAcquire (e : EntryId)
  | ilockLoad (e : EntryId)
  | iputTest (e : EntryId)
  | iputTrunc (e : EntryId)
  | iputType (e : EntryId)
  | iputInvalid (e : EntryId)
  | iputDrop (e : EntryId)
  | iallocScan (dev : Nat) (type : Int16) (inum : Nat)
  | iallocGet (dev inum : Nat)
  deriving DecidableEq

/-- The shared state. `out` and `dirty` are history: the references to an entry that `iget` and `idup`
    have handed out and nobody has passed to `iput`, and the entries changed since `iupdate`. -/
structure State (np : Nat) where
  entry : EntryId → Entry np
  disk : Nat → Nat → Dinode
  pc : Fin np → PC
  panicked : Option String
  out : EntryId → Nat
  dirty : EntryId → Bool

/-- The actions. Those of the first group begin a call, or use an inode that is locked. -/
inductive Act (np : Nat) where
  | idup (p : Fin np) (e : EntryId)
  | ilock (p : Fin np) (e : EntryId)
  | ilockPanic (p : Fin np) (e : EntryId)
  | iunlock (p : Fin np) (e : EntryId)
  | iunlockPanic (p : Fin np) (e : EntryId)
  | modify (p : Fin np) (e : EntryId) (d : Dinode)
  | iupdate (p : Fin np) (e : EntryId)
  | iput (p : Fin np) (e : EntryId)
  | ialloc (p : Fin np) (dev : Nat) (type : Int16)
  | igetHit (p : Fin np) (dev inum : Nat) (e : EntryId)
  | igetRecycle (p : Fin np) (dev inum : Nat) (e : EntryId)
  | igetPanic (p : Fin np) (dev inum : Nat)
  | ilockAcquire (p : Fin np) (e : EntryId)
  | ilockLoad (p : Fin np) (e : EntryId)
  | ilockNoType (p : Fin np) (e : EntryId)
  | iputFree (p : Fin np) (e : EntryId)
  | iputSleep (p : Fin np) (e : EntryId)
  | iputKeep (p : Fin np) (e : EntryId)
  | iputTrunc (p : Fin np) (e : EntryId)
  | iputType (p : Fin np) (e : EntryId)
  | iputInvalid (p : Fin np) (e : EntryId)
  | iputDrop (p : Fin np) (e : EntryId)
  | iallocSkip (p : Fin np) (dev : Nat) (type : Int16) (inum : Nat)
  | iallocTake (p : Fin np) (dev : Nat) (type : Int16) (inum : Nat)
  | iallocPanic (p : Fin np) (dev : Nat) (type : Int16) (inum : Nat)

variable {np : Nat}

/-- `iget`'s loop: the entry in use for an inode. -/
def lookup (s : State np) (dev inum : Nat) : Option EntryId :=
  (List.finRange NINODE).find? fun e =>
    decide (0 < (s.entry e).ref) && (s.entry e).dev == dev && (s.entry e).inum == inum

/-- The first empty slot, which the loop remembers. -/
def empty (s : State np) : Option EntryId :=
  (List.finRange NINODE).find? fun e => (s.entry e).ref == 0

/-- The inode an entry holds, on the disk. -/
def State.onDisk (s : State np) (e : EntryId) : Dinode := s.disk (s.entry e).dev (s.entry e).inum

/-- Somebody has the inode locked or waits for its lock. -/
def inUse (s : State np) (e : EntryId) : Prop :=
  (s.entry e).lock ≠ none ∨ ∃ p, s.pc p = .ilockAcquire e

/-- `iput`'s test: no links and no other references. -/
def last (s : State np) (e : EntryId) : Prop :=
  (s.entry e).ref = 1 ∧ (s.entry e).valid = true ∧ (s.entry e).din.nlink = 0

instance (s : State np) (e : EntryId) : Decidable (inUse s e) := inferInstanceAs (Decidable (_ ∨ _))

instance (s : State np) (e : EntryId) : Decidable (last s e) :=
  inferInstanceAs (Decidable (_ ∧ _ ∧ _))

/-- When an action may happen. Callers use an entry while somebody keeps a reference to it, and give
    no reference back that somebody still uses. Nobody but `iput` changes the type of an inode. -/
def guard (ninodes : Nat) (s : State np) : Act np → Prop
  | .idup p e => s.pc p = .idle ∧ 1 ≤ s.out e
  | .ilock p e => s.pc p = .idle ∧ 1 ≤ s.out e ∧ ¬ (s.entry e).ref < 1
  | .ilockPanic p e => s.pc p = .idle ∧ 1 ≤ s.out e ∧ (s.entry e).ref < 1
  | .iunlock p e => s.pc p = .idle ∧ (s.entry e).lock = some p ∧ ¬ (s.entry e).ref < 1
  | .iunlockPanic p e => s.pc p = .idle ∧ (s.entry e).lock = some p ∧ (s.entry e).ref < 1
  | .modify p e d => s.pc p = .idle ∧ (s.entry e).lock = some p ∧ d.type = (s.entry e).din.type
  | .iupdate p e => s.pc p = .idle ∧ (s.entry e).lock = some p
  | .iput p e => s.pc p = .idle ∧ 1 ≤ s.out e ∧ (inUse s e → 2 ≤ s.out e)
  | .ialloc p _ type => s.pc p = .idle ∧ type ≠ 0
  | .igetHit p dev inum e =>
      (s.pc p = .idle ∨ s.pc p = .iallocGet dev inum) ∧ lookup s dev inum = some e
  | .igetRecycle p dev inum e => (s.pc p = .idle ∨ s.pc p = .iallocGet dev inum) ∧
      lookup s dev inum = none ∧ empty s = some e
  | .igetPanic p dev inum => (s.pc p = .idle ∨ s.pc p = .iallocGet dev inum) ∧
      lookup s dev inum = none ∧ empty s = none
  | .ilockAcquire p e => s.pc p = .ilockAcquire e ∧ (s.entry e).lock = none
  | .ilockLoad p e => s.pc p = .ilockLoad e ∧ ((s.entry e).valid = false → (s.onDisk e).type ≠ 0)
  | .ilockNoType p e => s.pc p = .ilockLoad e ∧ (s.entry e).valid = false ∧ (s.onDisk e).type = 0
  | .iputFree p e => s.pc p = .iputTest e ∧ last s e ∧ (s.entry e).lock = none
  | .iputSleep p e => s.pc p = .iputTest e ∧ last s e ∧ (s.entry e).lock ≠ none
  | .iputKeep p e => s.pc p = .iputTest e ∧ ¬ last s e
  | .iputTrunc p e => s.pc p = .iputTrunc e
  | .iputType p e => s.pc p = .iputType e
  | .iputInvalid p e => s.pc p = .iputInvalid e
  | .iputDrop p e => s.pc p = .iputDrop e
  | .iallocSkip p dev type inum =>
      s.pc p = .iallocScan dev type inum ∧ inum < ninodes ∧ (s.disk dev inum).type ≠ 0
  | .iallocTake p dev type inum =>
      s.pc p = .iallocScan dev type inum ∧ inum < ninodes ∧ (s.disk dev inum).type = 0
  | .iallocPanic p dev type inum => s.pc p = .iallocScan dev type inum ∧ ¬ inum < ninodes

/-- Replace an entry, and the program counter of `p`. -/
def State.set (s : State np) (p : Fin np) (x : PC) (e : EntryId) (i : Entry np) : State np :=
  { s with pc := update s.pc p x, entry := update s.entry e i }

/-- Write an inode to the disk. -/
def write (disk : Nat → Nat → Dinode) (dev inum : Nat) (d : Dinode) : Nat → Nat → Dinode :=
  update disk dev (update (disk dev) inum d)

/-- Change the fields of an entry, and `iupdate`. -/
def State.store (s : State np) (p : Fin np) (x : PC) (e : EntryId) (d : Dinode) : State np :=
  { s.set p x e { s.entry e with din := d } with
    disk := write s.disk (s.entry e).dev (s.entry e).inum d
    dirty := update s.dirty e false }

/-- The effect of an action. -/
def next (s : State np) : Act np → State np
  | .idup p e => { s.set p .idle e { s.entry e with ref := (s.entry e).ref + 1 } with
      out := update s.out e (s.out e + 1) }
  | .ilock p e => { s with pc := update s.pc p (.ilockAcquire e) }
  | .ilockPanic _ _ => { s with panicked := some "ilock" }
  | .iunlock p e => s.set p .idle e { s.entry e with lock := none }
  | .iunlockPanic _ _ => { s with panicked := some "iunlock" }
  | .modify p e d => { s.set p .idle e { s.entry e with din := d } with
      dirty := update s.dirty e true }
  | .iupdate p e => s.store p .idle e (s.entry e).din
  | .iput p e => { s with
      pc := update s.pc p (.iputTest e), out := update s.out e (s.out e - 1) }
  | .ialloc p dev type => { s with pc := update s.pc p (.iallocScan dev type 1) }
  | .igetHit p _ _ e => { s.set p .idle e { s.entry e with ref := (s.entry e).ref + 1 } with
      out := update s.out e (s.out e + 1) }
  | .igetRecycle p dev inum e =>
    { s.set p .idle e { s.entry e with dev := dev, inum := inum, ref := 1, valid := false } with
      out := update s.out e (s.out e + 1) }
  | .igetPanic _ _ _ => { s with panicked := some "iget: no inodes" }
  | .ilockAcquire p e => s.set p (.ilockLoad e) e { s.entry e with lock := some p }
  | .ilockLoad p e =>
    if (s.entry e).valid then { s with pc := update s.pc p .idle }
    else { s.set p .idle e { s.entry e with valid := true, din := s.onDisk e } with
      dirty := update s.dirty e false }
  | .ilockNoType _ _ => { s with panicked := some "ilock: no type" }
  | .iputFree p e => s.set p (.iputTrunc e) e { s.entry e with lock := some p }
  -- a process may not sleep while it holds icache.lock
  | .iputSleep _ _ => { s with panicked := some "sched locks" }
  | .iputKeep p e => s.set p .idle e { s.entry e with ref := (s.entry e).ref - 1 }
  -- itrunc, which ends in an iupdate
  | .iputTrunc p e => s.store p (.iputType e) e { (s.entry e).din with size := 0, addrs := fun _ => 0 }
  | .iputType p e => s.store p (.iputInvalid e) e { (s.entry e).din with type := 0 }
  | .iputInvalid p e => s.set p (.iputDrop e) e { s.entry e with valid := false, lock := none }
  | .iputDrop p e => s.set p .idle e { s.entry e with ref := (s.entry e).ref - 1 }
  | .iallocSkip p dev type inum =>
    { s with pc := update s.pc p (.iallocScan dev type (inum + 1)) }
  | .iallocTake p dev type inum => { s with
      disk := write s.disk dev inum { Dinode.zero with type := type }
      pc := update s.pc p (.iallocGet dev inum) }
  | .iallocPanic _ _ _ _ => { s with panicked := some "ialloc: no inodes" }

instance (ninodes : Nat) (s : State np) (a : Act np) : Decidable (guard ninodes s a) := by
  cases a <;> unfold guard <;> infer_instance

/-- The machine on devices with `ninodes` inodes each: nothing moves after a panic. -/
def machine (ninodes np : Nat) : System (State np) (Act np) where
  guard s a := s.panicked = none ∧ guard ninodes s a
  next := next

instance (ninodes : Nat) (s : State np) (a : Act np) : Decidable ((machine ninodes np).guard s a) :=
  inferInstanceAs (Decidable (_ ∧ _))

/-- After `iinit`, with inodes `d` on the disks. -/
def init (d : Nat → Nat → Dinode) : State np where
  entry _ := ⟨0, 0, 0, none, false, Dinode.zero⟩
  disk := d
  pc _ := .idle
  panicked := none
  out _ := 0
  dirty _ := false

end Xv6.Icache
