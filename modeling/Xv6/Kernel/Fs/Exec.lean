import Xv6.Kernel.Fs.Names

/-! What `exec` does to the file system (`exec.c`).

    `exec` holds the inode of the program while it loads it. Whether the memory for a segment is there
    is up to the page allocator, which is not part of this model: `mem i` says whether the `uvmalloc`
    for segment `i` succeeds. -/

namespace Xv6.Fs
open Bytes

def PGSIZE : Nat := 4096

def ELF_MAGIC : Nat := 0x464C457F

def ELF_PROG_LOAD : Nat := 1

/-- `sizeof(struct elfhdr)` and `sizeof(struct proghdr)`. -/
def elfSize : Nat := 64
def phSize : Nat := 56

/-- A little-endian field of a structure that was read from a file. -/
def field (bs : List UInt8) (off len : Nat) : Nat :=
  (List.range len).foldr (fun j acc => (bs.getD (off + j) 0).toNat + 256 * acc) 0

/-- Read exactly `n` bytes. -/
def readFull (sb : Superblock) (e : EntryId) (off n : Nat) : M (Option (List UInt8)) := do
  match ← readi sb e off n with
  | some bs => pure (if bs.length = n then some bs else none)
  | none => pure none

/-- Load a program segment, page by page; `offset` and `sz` are cut to a `uint`. -/
def loadseg (sb : Superblock) (e : EntryId) (offset sz : Nat) : M Bool := do
  let failed ← scan (fun i => do
    match ← readFull sb e ((offset + i * PGSIZE) % 2 ^ 32) (min (sz - i * PGSIZE) PGSIZE) with
    | some _ => pure none
    | none => pure (some ())) (List.range ((sz + PGSIZE - 1) / PGSIZE))
  pure failed.isNone

/-- One turn of the loop over the program headers; `some` is `goto bad`. -/
def loadHeader (sb : Superblock) (e : EntryId) (mem : Nat → Bool) (phoff i : Nat) : M (Option Unit) := do
  match ← readFull sb e ((phoff + phSize * i) % 2 ^ 32) phSize with
  | none => pure (some ())
  | some ph =>
    let vaddr := field ph 16 8
    let filesz := field ph 32 8
    let memsz := field ph 40 8
    if field ph 0 4 ≠ ELF_PROG_LOAD then pure none
    else if memsz < filesz then pure (some ())
    else if (vaddr + memsz) % 2 ^ 64 < vaddr then pure (some ())
    else if mem i = false then pure (some ())
    else if vaddr % PGSIZE ≠ 0 then pure (some ())
    else do
      if ← loadseg sb e (field ph 8 8 % 2 ^ 32) (filesz % 2 ^ 32) then pure none else pure (some ())

/-- Check the ELF header and load the program; false is `goto bad`. -/
def execLoad (sb : Superblock) (e : EntryId) (mem : Nat → Bool) : M Bool := do
  match ← readFull sb e 0 elfSize with
  | none => pure false
  | some elf =>
    if field elf 0 4 ≠ ELF_MAGIC then pure false
    else do
      let bad ← scan (loadHeader sb e mem (field elf 32 8)) (List.range (field elf 56 2))
      pure bad.isNone

/-- Loaded or not, the inode is given back and the transaction ends; what follows does not touch the
    file system. -/
def exec (sb : Superblock) (p : Pid) (path : Path) (mem : Nat → Bool) : M Unit := do
  match ← namei sb p path with
  | none => endOp
  | some ip =>
    ilock sb ip
    let _ ← execLoad sb ip mem
    iunlockput sb ip
    endOp

end Xv6.Fs
