import Xv6.Schemes.Bytes

/-! Constants of `param.h` and `fs.h`, and the disk block they size. -/

namespace Xv6

/-- Maximum number of processes. -/
def NPROC : Nat := 10

instance : NeZero NPROC := ⟨by decide⟩

/-- Device number of the file system's root disk. -/
def ROOTDEV : Nat := 0

/-- Max number of blocks any file system operation writes. -/
def MAXOPBLOCKS : Nat := 10

/-- Max data blocks in the on-disk log. -/
def LOGSIZE : Nat := MAXOPBLOCKS * 3

/-- Size of the disk block cache. -/
def NBUF : Nat := MAXOPBLOCKS * 3

/-- Size of the file system in blocks. -/
def FSSIZE : Nat := 2000

/-- Block size in bytes. -/
def BSIZE : Nat := 1024

/-- The contents of one disk block. -/
abbrev Block : Type := Bytes.Blk BSIZE

/-- A block of zero bytes. -/
def Block.zero : Block := fun _ => 0

/-- The contents of one disk. -/
abbrev Disk : Type := Nat → Block

end Xv6
