import Xv6.Kernel.Mem.Copy

/-! Address spaces over the words of memory (vm.c): pages are allocated, copied and freed.

    ```
    0 ───────────── oldsz ──uvmalloc──▶ newsz ───── TRAPFRAME ── TRAMPOLINE
    ```

    The loops of the source stop where the addresses end: `walk` panics above `MAXVA`. -/

namespace Xv6.Sv39
open Mem (PGSIZE PGROUNDUP)

/-- `PTE_W|PTE_X|PTE_R|PTE_U`. -/
def userPerm : Nat := PTE_W ||| PTE_X ||| PTE_R ||| PTE_U

def uvmdealloc (kend pagetable oldsz newsz : Nat) : M Nat :=
  if oldsz ≤ newsz then pure oldsz
  else do
    let newup := PGROUNDUP newsz
    if newup < PGROUNDUP oldsz then uvmunmap kend pagetable newup ((oldsz + 2 ^ 64 - newup) % 2 ^ 64) true
    pure newsz

/-- A new page, filled and mapped, as in the loops of `uvmalloc` and `uvmcopy`; `false` when there is no
    memory, for the page or for the table. -/
def mapNew (kend pagetable a perm : Nat) (fill : Nat → M Unit) : M Bool := do
  match ← kalloc with
  | none => pure false
  | some mem => do
    fill mem
    if (← mappages pagetable a PGSIZE mem perm) ≠ 0 then do
      kfree kend mem
      pure false
    else pure true

/-- The loop of `uvmalloc`, which has come from `oldsz` to `a`. -/
def uvmallocLoop (kend pagetable oldsz newsz : Nat) : Nat → Nat → M Nat
  | 0, _ => throw "out of fuel"
  | fuel + 1, a =>
    if newsz ≤ a then pure newsz
    else do
      if ← mapNew kend pagetable a userPerm fun mem => memset mem 0 then
        uvmallocLoop kend pagetable oldsz newsz fuel ((a + PGSIZE) % 2 ^ 64)
      else do
        let _ ← uvmdealloc kend pagetable a oldsz
        pure 0

/-- The new size, or 0. -/
def uvmalloc (kend pagetable oldsz newsz : Nat) : M Nat :=
  if newsz < oldsz then pure oldsz
  else uvmallocLoop kend pagetable (PGROUNDUP oldsz) newsz rounds (PGROUNDUP oldsz)

/-- `memmove(mem, pa, PGSIZE)`. -/
def copyPage (pa mem : Nat) : M Unit := do
  let page ← loadBytes pa PGSIZE
  memmove mem page

/-- The loop of `uvmcopy`, which has come to `i`. -/
def uvmcopyLoop (kend old new sz : Nat) : Nat → Nat → M Int
  | 0, _ => throw "out of fuel"
  | fuel + 1, i =>
    if sz ≤ i then pure 0
    else do
      match ← walk old i false with
      | none => throw "uvmcopy: pte should exist"
      | some (p, j) => do
        let pte ← load p j
        if pte &&& PTE_V = 0 then throw "uvmcopy: page not present"
        else do
          if ← mapNew kend new i (PTE_FLAGS pte) (copyPage (PTE2PA pte)) then
            uvmcopyLoop kend old new sz fuel ((i + PGSIZE) % 2 ^ 64)
          else do
            uvmunmap kend new 0 i true
            pure (-1)

def uvmcopy (kend old new sz : Nat) : M Int := uvmcopyLoop kend old new sz rounds 0

end Xv6.Sv39
