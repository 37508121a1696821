import Xv6.Schemes.Hoare
import Xv6.Kernel.Fs.Layout

/-! Blocks, inodes and file contents (`fs.c`), run by one process at a time.

    Blocks are what `bread` returns: the buffer cache is transparent. A buffer that was modified and
    released without `log_write` is seen in its modified form until it is recycled. -/

namespace Xv6.Fs
open Bytes Function

/-- Open files per system, open files per process, device numbers. -/
def NFILE : Nat := 100
def NOFILE : Nat := 16
def NDEV : Nat := 10

abbrev FileId : Type := Fin NFILE
abbrev Pid : Type := Fin NPROC

instance : NeZero NFILE := ⟨by decide⟩

/-- `struct inode`; `din` are the fields copied from the disk. -/
structure Inode where
  inum : Nat
  ref : Nat
  lock : Bool
  valid : Bool
  din : Dinode

/-- The types of a `struct file`; pipes are not part of the file system. -/
inductive FdType where | none | inode | device
  deriving DecidableEq

/-- `struct file`. -/
structure File where
  type : FdType
  ref : Nat
  readable : Bool
  writable : Bool
  ip : EntryId
  off : Nat
  major : Int16
  minor : Int16

/-- The fields of `struct proc` that name files. A process without a current directory does not
    exist. -/
structure Proc where
  cwd : Option EntryId
  ofile : Fin NOFILE → Option FileId

structure State where
  /-- What the log and the disk hold. -/
  disk : Disk
  /-- The blocks of the running transaction: their buffers are pinned, and what a commit writes. -/
  inlog : Nat → Bool
  /-- Buffers of other blocks that were modified without `log_write`. -/
  unlogged : Nat → Option Block
  icache : EntryId → Inode
  ftable : FileId → File
  proc : Pid → Proc

/-- The contents of a block as `bread` returns it. -/
def State.view (s : State) : Disk := fun b => (s.unlogged b).getD (s.disk b)

/-- How a kernel stops: it panics, or a process waits for a lock that it holds itself. -/
inductive Stop where
  | panic (msg : String)
  | hang
  deriving DecidableEq

abbrev M (α : Type) : Type := StateT State (Except Stop) α

def panic {α : Type} (msg : String) : M α := throw (.panic msg)

/-! ### Buffers -/

def bread (b : Nat) : M Block := do return (← get).view b

@[simps -fullyApplied]
def State.logWrite (s : State) (b : Nat) (blk : Block) : State :=
  { s with
    disk := update s.disk b blk
    inlog := update s.inlog b true
    unlogged := update s.unlogged b none }

def logWrite (b : Nat) (blk : Block) : M Unit := modify (·.logWrite b blk)

def State.scribble (s : State) (b : Nat) (blk : Block) : State :=
  if s.inlog b then { s with disk := update s.disk b blk }
  else { s with unlogged := update s.unlogged b (some blk) }

/-- Modify a buffer and release it without `log_write`. -/
def scribble (b : Nat) (blk : Block) : M Unit := modify (·.scribble b blk)

/-- The buffer of a block is recycled. -/
def evict (b : Nat) : M Unit := modify fun s => { s with unlogged := update s.unlogged b none }

/-- Commit: no other system call is running. -/
def endOp : M Unit := modify fun s => { s with inlog := fun _ => false }

/-! ### Blocks -/

/-- Zero a block. -/
def bzero (b : Nat) : M Unit := logWrite b Block.zero

/-- Allocate a zeroed disk block. -/
def balloc (sb : Superblock) : M Nat := do
  let found ← scan (fun k => do
    let b := k * BPB
    let blk ← bread (sb.bblock b)
    match (List.range BPB).find? fun bi => decide (b + bi < sb.size) && !testBit blk bi with
    | some bi =>
      logWrite (sb.bblock b) (putBit blk bi true)
      bzero (b + bi)
      pure (some (b + bi))
    | none => pure none) (List.range ((sb.size + BPB - 1) / BPB))
  match found with
  | some b => pure b
  | none => panic "balloc: out of blocks"

/-- Free a disk block. -/
def bfree (sb : Superblock) (b : Nat) : M Unit := do
  let blk ← bread (sb.bblock b)
  if testBit blk (b % BPB) = false then panic "freeing free block"
  else logWrite (sb.bblock b) (putBit blk (b % BPB) false)

/-! ### Inodes -/

def entry (e : EntryId) : M Inode := do return (← get).icache e

@[simps -fullyApplied]
def State.setEntry (s : State) (e : EntryId) (i : Inode) : State :=
  { s with icache := update s.icache e i }

def setEntry (e : EntryId) (i : Inode) : M Unit := modify (·.setEntry e i)

/-- Assign to fields of a cached inode. -/
def setDin (e : EntryId) (f : Dinode → Dinode) : M Unit := do
  let i ← entry e
  setEntry e { i with din := f i.din }

/-- Copy a modified in-memory inode to disk. -/
def iupdate (sb : Superblock) (e : EntryId) : M Unit := do
  let i ← entry e
  let blk ← bread (sb.iblock i.inum)
  logWrite (sb.iblock i.inum) (putDinode blk (64 * (i.inum % IPB)) i.din)

/-- The entry in use for an inode. -/
def lookup (s : State) (inum : Nat) : Option EntryId :=
  (List.finRange NINODE).find? fun e => decide (0 < (s.icache e).ref) && (s.icache e).inum == inum

/-- The first empty slot. -/
def empty (s : State) : Option EntryId := (List.finRange NINODE).find? fun e => (s.icache e).ref == 0

/-- Find the inode with number `inum` and return the in-memory copy. -/
def iget (inum : Nat) : M EntryId := do
  let s ← get
  match lookup s inum with
  | some e =>
    setEntry e { s.icache e with ref := (s.icache e).ref + 1 }
    pure e
  | none =>
    match empty s with
    | some e =>
      setEntry e { s.icache e with inum := inum, ref := 1, valid := false }
      pure e
    | none => panic "iget: no inodes"

/-- Allocate an inode: mark it as allocated by giving it type `type`. -/
def ialloc (sb : Superblock) (type : Int16) : M EntryId := do
  let found ← scan (fun inum => do
    let blk ← bread (sb.iblock inum)
    if (getDinode blk (64 * (inum % IPB))).type = 0 then
      logWrite (sb.iblock inum) (putDinode blk (64 * (inum % IPB)) { Dinode.zero with type := type })
      let e ← iget inum
      pure (some e)
    else pure none) (List.range' 1 (sb.ninodes - 1))
  match found with
  | some e => pure e
  | none => panic "ialloc: no inodes"

/-- Increment the reference count. -/
def idup (e : EntryId) : M Unit := do
  let i ← entry e
  setEntry e { i with ref := i.ref + 1 }

/-- Lock the given inode; read it from disk if necessary. -/
def ilock (sb : Superblock) (e : EntryId) : M Unit := do
  let i ← entry e
  if i.ref < 1 then panic "ilock"
  else if i.lock then throw .hang
  else if i.valid then setEntry e { i with lock := true }
  else do
    let blk ← bread (sb.iblock i.inum)
    let din := getDinode blk (64 * (i.inum % IPB))
    setEntry e { i with lock := true, valid := true, din := din }
    if din.type = 0 then panic "ilock: no type" else pure ()

/-- Unlock the given inode. -/
def iunlock (e : EntryId) : M Unit := do
  let i ← entry e
  if i.lock = false ∨ i.ref < 1 then panic "iunlock"
  else setEntry e { i with lock := false }

/-! ### Inode content -/

/-- `addrs[k]`. -/
def Dinode.addr (d : Dinode) (k : Nat) : UInt32 := if h : k < NDIRECT + 1 then d.addrs ⟨k, h⟩ else 0

def Dinode.setAddr (d : Dinode) (k : Nat) (a : UInt32) : Dinode :=
  { d with addrs := fun j => if j.val = k then a else d.addrs j }

/-- `addrs[k]`, after allocating a block for it if there is none. -/
def addrAlloc (sb : Superblock) (e : EntryId) (k : Nat) : M Nat := do
  let i ← entry e
  if i.din.addr k = 0 then
    let b ← balloc sb
    setDin e (·.setAddr k (UInt32.ofNat b))
    pure b
  else pure (i.din.addr k).toNat

/-- Return the disk block address of the nth block; allocate it if there is none. -/
def bmap (sb : Superblock) (e : EntryId) (bn : Nat) : M Nat :=
  if bn < NDIRECT then addrAlloc sb e bn
  else if bn - NDIRECT < NINDIRECT then do
    -- load the indirect block, allocating if necessary
    let addr ← addrAlloc sb e NDIRECT
    let blk ← bread addr
    let a := getLE blk (4 * (bn - NDIRECT)) 4
    if a = 0 then
      let b ← balloc sb
      logWrite addr (putLE blk (4 * (bn - NDIRECT)) 4 b)
      pure b
    else pure a
  else panic "bmap: out of range"

/-- Free the indirect block and the blocks it names. -/
def itruncIndirect (sb : Superblock) (e : EntryId) : M Unit := do
  let i ← entry e
  if i.din.addr NDIRECT ≠ 0 then
    let blk ← bread (i.din.addr NDIRECT).toNat
    (List.range NINDIRECT).forM fun j => do
      if getLE blk (4 * j) 4 ≠ 0 then bfree sb (getLE blk (4 * j) 4) else pure ()
    bfree sb (i.din.addr NDIRECT).toNat
    setDin e (·.setAddr NDIRECT 0)
  else pure ()

/-- Truncate the inode: free its blocks. -/
def itrunc (sb : Superblock) (e : EntryId) : M Unit := do
  (List.range NDIRECT).forM fun k => do
    let i ← entry e
    if i.din.addr k ≠ 0 then
      bfree sb (i.din.addr k).toNat
      setDin e (·.setAddr k 0)
    else pure ()
  itruncIndirect sb e
  setDin e fun d => { d with size := 0 }
  iupdate sb e

/-- If this is the last reference to an inode without links, truncate and free it. -/
def iputFree (sb : Superblock) (e : EntryId) : M Unit := do
  let i ← entry e
  if i.ref = 1 ∧ i.valid = true ∧ i.din.nlink = 0 then
    if i.lock then throw .hang
    else do
      setEntry e { i with lock := true }
      itrunc sb e
      setDin e fun d => { d with type := 0 }
      iupdate sb e
      let i ← entry e
      setEntry e { i with valid := false, lock := false }
  else pure ()

/-- Drop a reference. If it was the last one and the inode has no links, free the inode on disk. -/
def iput (sb : Superblock) (e : EntryId) : M Unit := do
  iputFree sb e
  let i ← entry e
  setEntry e { i with ref := i.ref - 1 }

def iunlockput (sb : Superblock) (e : EntryId) : M Unit := do
  iunlock e
  iput sb e

/-- `readi`'s loop, for a kernel destination. Each round reads at least one byte. -/
def readLoop (sb : Superblock) (e : EntryId) : Nat → Nat → Nat → M (List UInt8)
  | 0, _, _ => pure []
  | fuel + 1, off, left =>
    if left = 0 then pure []
    else do
      let b ← bmap sb e (off / BSIZE)
      let blk ← bread b
      let m := min left (BSIZE - off % BSIZE)
      let rest ← readLoop sb e fuel (off + m) (left - m)
      pure ((List.range m).map (fun j => byte blk (off % BSIZE + j)) ++ rest)

/-- Read data from the inode; `none` is -1. -/
def readi (sb : Superblock) (e : EntryId) (off n : Nat) : M (Option (List UInt8)) := do
  let i ← entry e
  if off > i.din.size.toNat ∨ (off + n) % 2 ^ 32 < off then pure none
  else do
    let n := if off + n > i.din.size.toNat then i.din.size.toNat - off else n
    return some (← readLoop sb e n off n)

/-- Copy `m` bytes of a source into a block, up to the first that cannot be read. -/
def copyBytes (blk : Block) (dst : Nat) (src : Nat → Option UInt8) (pos : Nat) : Nat → Block × Bool
  | 0 => (blk, true)
  | m + 1 =>
    match src pos with
    | some v => copyBytes (setByte blk dst v) (dst + 1) src (pos + 1) m
    | none => (blk, false)

/-- `writei`'s loop: returns the offset it got to. -/
def writeLoop (sb : Superblock) (e : EntryId) (src : Nat → Option UInt8) (n : Nat) :
    Nat → Nat → Nat → M Nat
  | 0, off, _ => pure off
  | fuel + 1, off, tot =>
    if tot < n then do
      let b ← bmap sb e (off / BSIZE)
      let blk ← bread b
      let m := min (n - tot) (BSIZE - off % BSIZE)
      let r := copyBytes blk (off % BSIZE) src tot m
      if r.2 then do
        logWrite b r.1
        writeLoop sb e src n fuel (off + m) (tot + m)
      else do
        scribble b r.1
        pure off
    else pure off

/-- The end of `writei`: the size, and the inode back to disk even if the size did not change. -/
def writeiSize (sb : Superblock) (e : EntryId) (off n : Nat) : M Unit :=
  if 0 < n then do
    setDin e fun d => if off > d.size.toNat then { d with size := UInt32.ofNat off } else d
    iupdate sb e
  else pure ()

/-- Write data to the inode; `none` is -1. A source byte that cannot be read ends the loop, and the
    call still returns `n`. -/
def writei (sb : Superblock) (e : EntryId) (src : Nat → Option UInt8) (off n : Nat) :
    M (Option Nat) := do
  let i ← entry e
  if off > i.din.size.toNat ∨ (off + n) % 2 ^ 32 < off then pure none
  else if (off + n) % 2 ^ 32 > MAXFILE * BSIZE then pure none
  else do
    let off ← writeLoop sb e src n n off 0
    writeiSize sb e off n
    pure (some n)

end Xv6.Fs
