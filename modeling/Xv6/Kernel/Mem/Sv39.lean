import Xv6.Schemes.Hoare
import Xv6.Kernel.Mem.Vm

/-! Page tables as the hardware has them: words of 64 bits (vm.c, riscv.h, kalloc.c).

    ```
    pte:  | 0 | physical page number  | reserved | … U X W R V |
          63 62                     10 9                      0
    ```

    A page-table page is known by its physical address, and has 512 entries. Addresses and entries are
    numbers below 2^64. -/

namespace Xv6.Sv39
open Function
open Mem (PGSIZE PGROUNDDOWN MAXVA lastPage)

/-! ### Words -/

def PTE_V : Nat := 1 <<< 0
def PTE_R : Nat := 1 <<< 1
def PTE_W : Nat := 1 <<< 2
def PTE_X : Nat := 1 <<< 3
def PTE_U : Nat := 1 <<< 4

def PA2PTE (pa : Nat) : Nat := ((pa >>> 12) <<< 10) % 2 ^ 64

def PTE2PA (pte : Nat) : Nat := ((pte >>> 10) <<< 12) % 2 ^ 64

def PTE_FLAGS (pte : Nat) : Nat := pte &&& 0x3FF

def PX (level va : Nat) : Fin 512 :=
  ⟨(va >>> (12 + 9 * level)) &&& 0x1FF, Nat.lt_of_le_of_lt Nat.and_le_right (by decide)⟩

/-- `KERNBASE + 128*1024*1024`. -/
def PHYSTOP : Nat := 0x80000000 + 128 * 1024 * 1024

/-! ### Memory -/

/-- The free list of the allocator, and the words of the pages. -/
structure State where
  free : List Nat
  mem : Nat → Fin 512 → Nat

abbrev M (α : Type) : Type := StateT State (Except String) α

def load (pt : Nat) (i : Fin 512) : M Nat := do return (← get).mem pt i

def State.store (s : State) (pt : Nat) (i : Fin 512) (pte : Nat) : State :=
  { s with mem := update s.mem pt (update (s.mem pt) i pte) }

def store (pt : Nat) (i : Fin 512) (pte : Nat) : M Unit := modify (·.store pt i pte)

/-- Every byte of the page becomes `c`. -/
def State.memset (s : State) (pa c : Nat) : State :=
  { s with mem := update s.mem pa fun _ => c * 0x0101010101010101 }

def memset (pa c : Nat) : M Unit := modify (·.memset pa c)

/-- `none` is 0. -/
def kalloc : M (Option Nat) := do
  let s ← get
  match s.free with
  | [] => pure none
  | r :: rest => do
    modify fun s => { s with free := rest }
    memset r 5
    pure (some r)

/-- `kend` is the address of `end`. -/
def kfree (kend pa : Nat) : M Unit :=
  if pa % PGSIZE ≠ 0 ∨ pa < kend ∨ PHYSTOP ≤ pa then throw "kfree"
  else do
    memset pa 1
    modify fun s => { s with free := pa :: s.free }

/-! ### Page tables -/

/-- The loop of `walk`, at the page-table page `pagetable` of the given level. -/
def walkFrom (va : Nat) (alloc : Bool) : Nat → Nat → M (Option (Nat × Fin 512))
  | 0, pagetable => pure (some (pagetable, PX 0 va))
  | level + 1, pagetable => do
    let pte ← load pagetable (PX (level + 1) va)
    if pte &&& PTE_V ≠ 0 then walkFrom va alloc level (PTE2PA pte)
    else if alloc = false then pure none
    else do
      match ← kalloc with
      | none => pure none
      | some page => do
        memset page 0
        store pagetable (PX (level + 1) va) (PA2PTE page ||| PTE_V)
        walkFrom va alloc level page

/-- The address of the entry for `va`, or `none` for 0. -/
def walk (pagetable va : Nat) (alloc : Bool) : M (Option (Nat × Fin 512)) :=
  if MAXVA ≤ va then throw "walk" else walkFrom va alloc 2 pagetable

/-- The physical address of a user page, or 0. -/
def walkaddr (pagetable va : Nat) : M Nat :=
  if MAXVA ≤ va then pure 0
  else do
    match ← walk pagetable va false with
    | none => pure 0
    | some (p, i) => do
      let pte ← load p i
      if pte &&& PTE_V = 0 then pure 0
      else if pte &&& PTE_U = 0 then pure 0
      else pure (PTE2PA pte)

/-- The body of the loop of `mappages`; `false` when `walk` has no page. -/
def mapPage (pagetable a pa perm : Nat) : M Bool := do
  match ← walk pagetable a true with
  | none => pure false
  | some (p, i) => do
    let pte ← load p i
    if pte &&& PTE_V ≠ 0 then throw "remap"
    else do
      store p i (PA2PTE pa ||| perm ||| PTE_V)
      pure true

/-- The loop of `mappages`. It stops at `last` only; `walk` panics above `MAXVA`. -/
def mapLoop (pagetable perm last : Nat) : Nat → Nat → Nat → M Int
  | 0, _, _ => throw "out of fuel"
  | fuel + 1, a, pa => do
    if ← mapPage pagetable a pa perm then
      if a = last then pure 0
      else mapLoop pagetable perm last fuel ((a + PGSIZE) % 2 ^ 64) ((pa + PGSIZE) % 2 ^ 64)
    else pure (-1)

/-- There are no more rounds than pages below `MAXVA`, and one that panics. -/
def rounds : Nat := MAXVA / PGSIZE + 1

def mappages (pagetable va size pa perm : Nat) : M Int :=
  mapLoop pagetable perm (lastPage va size) rounds (PGROUNDDOWN va) pa

/-- The body of the loop of `uvmunmap`. -/
def unmapPage (kend pagetable a : Nat) (doFree : Bool) : M Unit := do
  match ← walk pagetable a false with
  | none => throw "uvmunmap: walk"
  | some (p, i) => do
    let pte ← load p i
    if pte &&& PTE_V = 0 then throw "uvmunmap: not mapped"
    else if PTE_FLAGS pte = PTE_V then throw "uvmunmap: not a leaf"
    else do
      if doFree then kfree kend (PTE2PA pte)
      store p i 0

def unmapLoop (kend pagetable last : Nat) (doFree : Bool) : Nat → Nat → M Unit
  | 0, _ => throw "out of fuel"
  | fuel + 1, a => do
    unmapPage kend pagetable a doFree
    if a = last then pure ()
    else unmapLoop kend pagetable last doFree fuel ((a + PGSIZE) % 2 ^ 64)

def uvmunmap (kend pagetable va size : Nat) (doFree : Bool) : M Unit :=
  unmapLoop kend pagetable (lastPage va size) doFree rounds (PGROUNDDOWN va)

end Xv6.Sv39
