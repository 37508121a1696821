import Mathlib.Data.Fintype.Pi
import Xv6.Kernel.Param

/-! The on-disk inode (`fs.h`, `stat.h`). -/

namespace Xv6.Fs

/-- Addresses of data blocks in the inode itself. -/
def NDIRECT : Nat := 12

/-- Block numbers in an indirect block. -/
def NINDIRECT : Nat := BSIZE / 4

/-- Blocks of the largest file. -/
def MAXFILE : Nat := NDIRECT + NINDIRECT

/-- Maximum number of active inodes. -/
def NINODE : Nat := 50

/-- An index into `icache.inode`. -/
abbrev EntryId : Type := Fin NINODE

instance : NeZero NINODE := ⟨by decide⟩

/-- The inode number of the root directory. -/
def ROOTINO : Nat := 1

def T_DIR : Int16 := 1
def T_FILE : Int16 := 2
def T_DEVICE : Int16 := 3

/-- `struct dinode`; the fields of `struct inode` that copy it are the same. An inode is free if its
    type is 0. -/
@[ext]
structure Dinode where
  type : Int16
  major : Int16
  minor : Int16
  nlink : Int16
  size : UInt32
  addrs : Fin (NDIRECT + 1) → UInt32
  deriving DecidableEq

/-- An inode that `memset` cleared. -/
def Dinode.zero : Dinode := ⟨0, 0, 0, 0, 0, fun _ => 0⟩

end Xv6.Fs
