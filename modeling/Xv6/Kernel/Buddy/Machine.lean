import Mathlib.Algebra.Group.Int.Defs
import Mathlib.Algebra.Group.Nat.Defs
import Xv6.Schemes.Circular
import Xv6.Schemes.Hoare

/-! The buddy allocator (buddy.c, list.c).

    ```
    bd_base                                                    bd_end
       | bd_sizes | alloc and split arrays | blocks … | blocks … |
       0          32 * nsizes
    ```

    Addresses are relative to `bd_base`, where the array `bd_sizes` lies: the head of the free list of
    level `k` is at `32 * k`. The cell of a free block is in the block itself. -/

namespace Xv6.Buddy
open Function
open Circular (Cells)

def LEAF_SIZE : Nat := 16

def BLK_SIZE (k : Nat) : Nat := 2 ^ k * LEAF_SIZE

def MAXSIZE (nsizes : Nat) : Nat := nsizes - 1

def NBLK (nsizes k : Nat) : Nat := 2 ^ (MAXSIZE nsizes - k)

/-- Conversion to `int`. -/
def toInt (x : Int) : Int := x.bmod (2 ^ 32)

/-! ### Bits -/

def bitIsset (array : Nat → BitVec 8) (index : Nat) : Bool :=
  let b := array (index / 8)
  let m := 1#8 <<< (index % 8)
  b &&& m == m

def bitSet (array : Nat → BitVec 8) (index : Nat) : Nat → BitVec 8 :=
  let b := array (index / 8)
  let m := 1#8 <<< (index % 8)
  update array (index / 8) (b ||| m)

def bitClear (array : Nat → BitVec 8) (index : Nat) : Nat → BitVec 8 :=
  let b := array (index / 8)
  let m := 1#8 <<< (index % 8)
  update array (index / 8) (b &&& ~~~m)

/-! ### Memory -/

/-- The arrays of every level, and the list cells. -/
structure State where
  alloc : Nat → Nat → BitVec 8
  split : Nat → Nat → BitVec 8
  cells : Cells Nat

abbrev M (α : Type) : Type := StateT State (Except String) α

variable (nsizes : Nat)

/-- The arrays of level `k` have `ROUNDUP(NBLK(k), 8) / 8` bytes. -/
def checkIndex (k : Nat) (index : Int) : M Nat :=
  if k < nsizes ∧ 0 ≤ index ∧ index.toNat / 8 < (NBLK nsizes k + 7) / 8 then pure index.toNat
  else throw "access outside of bd_sizes"

/-- `bit_isset(bd_sizes[k].alloc, index)`. -/
def allocIsset (k : Nat) (index : Int) : M Bool := do
  let i ← checkIndex nsizes k index
  return bitIsset ((← get).alloc k) i

def allocSet (k : Nat) (index : Int) : M Unit := do
  let i ← checkIndex nsizes k index
  modify fun s => { s with alloc := update s.alloc k (bitSet (s.alloc k) i) }

def allocClear (k : Nat) (index : Int) : M Unit := do
  let i ← checkIndex nsizes k index
  modify fun s => { s with alloc := update s.alloc k (bitClear (s.alloc k) i) }

/-- `bit_isset(bd_sizes[k].split, index)`. There is no array for level 0; none of the accesses is to it. -/
def splitIsset (k : Nat) (index : Int) : M Bool := do
  let i ← checkIndex nsizes k index
  return bitIsset ((← get).split k) i

def splitSet (k : Nat) (index : Int) : M Unit := do
  let i ← checkIndex nsizes k index
  modify fun s => { s with split := update s.split k (bitSet (s.split k) i) }

def splitClear (k : Nat) (index : Int) : M Unit := do
  let i ← checkIndex nsizes k index
  modify fun s => { s with split := update s.split k (bitClear (s.split k) i) }

/-! ### Lists -/

/-- `&bd_sizes[k].free`. -/
def head (k : Nat) : Nat := 32 * k

def lstEmpty (lst : Nat) : M Bool := do return (← get).cells.next lst == lst

def lstRemove (e : Nat) : M Unit := modify fun s => { s with cells := s.cells.remove e }

def lstPop (lst : Nat) : M Nat := do
  let s ← get
  if s.cells.next lst = lst then throw "lst_pop"
  else do
    lstRemove (s.cells.next lst)
    pure (s.cells.next lst)

def lstPush (lst p : Nat) : M Unit := modify fun s => { s with cells := s.cells.push lst p }

/-! ### Blocks -/

/-- `size` is 0 after 60 rounds, and the loop does not end. -/
def firstkLoop (n : Nat) : Nat → Nat → Nat → M Nat
  | 0, _, _ => throw "firstk does not return"
  | fuel + 1, k, size => if size < n then firstkLoop n fuel (k + 1) (size * 2 % 2 ^ 64) else pure k

def firstk (n : Nat) : M Nat := firstkLoop n 64 0 LEAF_SIZE

def blkIndex (k p : Nat) : Int := toInt ((toInt p).tdiv (BLK_SIZE k))

def addr (k : Nat) (bi : Int) : Nat := (toInt (bi * BLK_SIZE k) % 2 ^ 64).toNat

/-- The first loop of `bd_malloc`, with `m` levels to go. -/
def findLoop : Nat → Nat → M Nat
  | 0, k => pure k
  | m + 1, k => do
    if ← lstEmpty (head k) then findLoop m (k + 1) else pure k

/-- The second loop of `bd_malloc`, with `m` levels to go. -/
def splitLoop (p : Nat) : Nat → Nat → M Unit
  | 0, _ => pure ()
  | m + 1, k => do
    let q := p + BLK_SIZE (k - 1)
    splitSet nsizes k (blkIndex k p)
    allocSet nsizes (k - 1) (blkIndex (k - 1) p)
    lstPush (head (k - 1)) q
    splitLoop p m (k - 1)

/-- `none` is 0. -/
def bdMalloc (nbytes : Nat) : M (Option Nat) := do
  let fk ← firstk nbytes
  let k ← findLoop (nsizes - fk) fk
  if nsizes ≤ k then pure none
  else do
    let p ← lstPop (head k)
    allocSet nsizes k (blkIndex k p)
    splitLoop nsizes p (k - fk) k
    pure (some p)

/-- The loop of `size`, with `m` levels to go. -/
def sizeLoop (p : Nat) : Nat → Nat → M Nat
  | 0, _ => pure 0
  | m + 1, k => do
    if ← splitIsset nsizes (k + 1) (blkIndex (k + 1) p) then pure k else sizeLoop p m (k + 1)

def size (p : Nat) : M Nat := sizeLoop nsizes p nsizes 0

/-- The loop of `bd_free`, with `m` levels to go; it takes the buddy `q` of level `k` off its list
    with `remove k q`. -/
def freeLoop (remove : Nat → Nat → M Unit) : Nat → Nat → Nat → M (Nat × Nat)
  | 0, k, p => pure (k, p)
  | m + 1, k, p => do
    let bi := blkIndex k p
    let buddy := if bi.tmod 2 = 0 then bi + 1 else bi - 1
    allocClear nsizes k bi
    if ← allocIsset nsizes k buddy then pure (k, p)
    else do
      let q := addr k buddy
      remove k q
      let p := if buddy.tmod 2 = 0 then q else p
      splitClear nsizes (k + 1) (blkIndex (k + 1) p)
      freeLoop remove m (k + 1) p

def bdFreeWith (remove : Nat → Nat → M Unit) (p : Nat) : M Unit := do
  let k ← size nsizes p
  let (k, p) ← freeLoop nsizes remove (MAXSIZE nsizes - k) k p
  lstPush (head k) p

def bdFree (p : Nat) : M Unit := bdFreeWith nsizes (fun _ q => lstRemove q) p

end Xv6.Buddy
