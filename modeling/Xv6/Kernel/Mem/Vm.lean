import Xv6.Kernel.Mem.Machine

/-! Page tables of user processes (vm.c).

    ```
    va:  | PX 2 | PX 1 | PX 0 | offset |
            │      │      │
    pagetable ──► page ──► page ──► entry
    ```

    A loop of the source that goes from page to page is a recursion on the number of pages that it
    has to do. -/

namespace Xv6.Mem

def px (level va : Nat) : Fin 512 := Fin.ofNat 512 (va / 2 ^ (12 + 9 * level))

/-- The loop of `walk`: from the page-table page `pt` of the given level down to level 0. -/
def walkFrom (va : Nat) (alloc : Bool) : Nat → Frame → Kernel (Option (Frame × Fin 512))
  | 0, pt => pure (some (pt, px 0 va))
  | level + 1, pt => do
    let e ← load pt (px (level + 1) va)
    if e.v then walkFrom va alloc level e.ppn
    else if alloc then
      match ← kalloc with
      | none => pure none
      | some f => do
        clear f
        store pt (px (level + 1) va) (.ptr f)
        walkFrom va alloc level f
    else pure none

/-- The place of the entry for `va`, or `none`. -/
def walk (pt : Frame) (va : Nat) (alloc : Bool) : Kernel (Option (Frame × Fin 512)) :=
  if MAXVA ≤ va then panic "walk" else walkFrom va alloc 2 pt

/-- The physical page of `va`, or 0. -/
def walkaddr (pt : Frame) (va : Nat) : Kernel Frame :=
  if MAXVA ≤ va then pure 0
  else do
    match ← walk pt va false with
    | none => pure 0
    | some (f, i) => do
      let e ← load f i
      if e.v && e.perm.u then pure e.ppn else pure 0

/-- One round of `mappages`. -/
def mapPage (pt : Frame) (a : Nat) (pa : Frame) (perm : Perm) : Kernel Bool := do
  match ← walk pt a true with
  | none => pure false
  | some (f, i) => do
    let e ← load f i
    if e.v then panic "remap"
    else do
      store f i (.leaf pa perm)
      pure true

def mapFrom (pt : Frame) (perm : Perm) : Nat → Nat → Frame → Kernel Bool
  | 0, a, pa => mapPage pt a pa perm
  | n + 1, a, pa => do
    if ← mapPage pt a pa perm then mapFrom pt perm n (a + PGSIZE) (pa + 1) else pure false

/-- The last page of a range. A range of size 0 that starts at 0 ends at the top. -/
def lastPage (va size : Nat) : Nat := PGROUNDDOWN ((va + size + 2 ^ 64 - 1) % 2 ^ 64)

/-- `false` when there is no page for a page table. -/
def mappages (pt : Frame) (va size : Nat) (pa : Frame) (perm : Perm) : Kernel Bool :=
  mapFrom pt perm ((lastPage va size - PGROUNDDOWN va) / PGSIZE) (PGROUNDDOWN va) pa

/-- One round of `uvmunmap`. -/
def unmapPage (pt : Frame) (free : Bool) (a : Nat) : Kernel Unit := do
  match ← walk pt a false with
  | none => panic "uvmunmap: walk"
  | some (f, i) => do
    let e ← load f i
    if !e.v then panic "uvmunmap: not mapped"
    else if !(e.isLeaf || e.perm.u) then panic "uvmunmap: not a leaf"
    else do
      if free then kfree e.ppn
      store f i .zero

def unmapFrom (pt : Frame) (free : Bool) : Nat → Nat → Kernel Unit
  | 0, a => unmapPage pt free a
  | n + 1, a => do
    unmapPage pt free a
    unmapFrom pt free n (a + PGSIZE)

def uvmunmap (pt : Frame) (va size : Nat) (free : Bool) : Kernel Unit :=
  unmapFrom pt free ((lastPage va size - PGROUNDDOWN va) / PGSIZE) (PGROUNDDOWN va)

def uvmcreate : Kernel Frame := do
  match ← kalloc with
  | none => panic "uvmcreate: out of memory"
  | some f => do
    clear f
    pure f

def uvmdealloc (pt : Frame) (oldsz newsz : Nat) : Kernel Nat :=
  if oldsz ≤ newsz then pure oldsz
  else do
    if PGROUNDUP newsz < PGROUNDUP oldsz then
      uvmunmap pt (PGROUNDUP newsz) (oldsz - PGROUNDUP newsz) true
    pure newsz

/-- `PTE_W|PTE_X|PTE_R|PTE_U`. -/
def Perm.user : Perm := ⟨true, true, true, true⟩

/-- The page of the first process; without a page `memset` writes through a null pointer. -/
def uvminit (pt : Frame) : Kernel Unit := do
  match ← kalloc with
  | none => panic "kerneltrap"
  | some mem => do
    let _ ← mappages pt 0 PGSIZE mem .user
    pure ()

/-- The loop of `uvmalloc`, which has come from `oldsz` to `a`. -/
def allocFrom (pt : Frame) (oldsz newsz : Nat) : Nat → Nat → Kernel Nat
  | 0, _ => pure newsz
  | n + 1, a => do
    match ← kalloc with
    | none => do
      let _ ← uvmdealloc pt a oldsz
      pure 0
    | some mem => do
      clear mem
      if ← mappages pt a PGSIZE mem .user then allocFrom pt oldsz newsz n (a + PGSIZE)
      else do
        kfree mem
        let _ ← uvmdealloc pt a oldsz
        pure 0

/-- The number of pages that a loop from `a` to `sz` does. -/
def pagesTo (a sz : Nat) : Nat := (sz - a + (PGSIZE - 1)) / PGSIZE

/-- The new size, or 0. -/
def uvmalloc (pt : Frame) (oldsz newsz : Nat) : Kernel Nat :=
  if newsz < oldsz then pure oldsz
  else allocFrom pt (PGROUNDUP oldsz) newsz (pagesTo (PGROUNDUP oldsz) newsz) (PGROUNDUP oldsz)

/-- The loop of `freewalk` over the entries of `pt`. -/
def freeEntries (rec : Frame → Kernel Unit) (pt : Frame) : List (Fin 512) → Kernel Unit
  | [] => pure ()
  | i :: is => do
    let e ← load pt i
    if e.v && !e.isLeaf then do
      rec e.ppn
      store pt i .zero
      freeEntries rec pt is
    else if e.v then panic "freewalk: leaf"
    else freeEntries rec pt is

/-- The indices of the entries of a page-table page. -/
@[irreducible] def indices : List (Fin 512) := List.finRange 512

theorem mem_indices (i : Fin 512) : i ∈ indices := by
  unfold indices
  exact List.mem_finRange i

/-- The argument bounds the depth of the recursion. -/
def freewalk : Nat → Frame → Kernel Unit
  | 0, _ => panic "freewalk: too deep"
  | depth + 1, pt => do
    freeEntries (freewalk depth) pt indices
    kfree pt

def uvmfree (pt : Frame) (sz : Nat) : Kernel Unit := do
  uvmunmap pt 0 sz true
  freewalk 3 pt

/-- The loop of `uvmcopy`, which has come to `i`. -/
def copyFrom (old new : Frame) : Nat → Nat → Kernel Bool
  | 0, _ => pure true
  | n + 1, i => do
    match ← walk old i false with
    | none => panic "uvmcopy: pte should exist"
    | some (f, j) => do
      let e ← load f j
      if !e.v then panic "uvmcopy: page not present"
      else
        match ← kalloc with
        | none => do
          uvmunmap new 0 i true
          pure false
        | some mem => do
          if ← mappages new i PGSIZE mem e.perm then copyFrom old new n (i + PGSIZE)
          else do
            kfree mem
            uvmunmap new 0 i true
            pure false

/-- `false` for -1. -/
def uvmcopy (old new : Frame) (sz : Nat) : Kernel Bool := copyFrom old new (pagesTo 0 sz) 0

def uvmclear (pt : Frame) (va : Nat) : Kernel Unit := do
  match ← walk pt va false with
  | none => panic "uvmclear"
  | some (f, i) => do
    let e ← load f i
    store f i { e with perm := { e.perm with u := false } }

/-- The pages that `copyout` finds for `len` bytes at `dstva`; the argument bounds their number. -/
def copyoutFrom (pt : Frame) : Nat → Nat → Nat → Kernel Bool
  | 0, _, _ => pure true
  | n + 1, dstva, len =>
    if len = 0 then pure true
    else do
      let pa ← walkaddr pt (PGROUNDDOWN dstva)
      if pa = 0 then pure false
      else copyoutFrom pt n (PGROUNDDOWN dstva + PGSIZE) (len - (PGSIZE - (dstva - PGROUNDDOWN dstva)))

/-- `false` for -1. -/
def copyout (pt : Frame) (dstva len : Nat) : Kernel Bool := copyoutFrom pt len dstva len

end Xv6.Mem
