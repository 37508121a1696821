import Xv6.Kernel.Mem.Calls
import Xv6.Kernel.Mem.Uvm

/-! The memory of a process (proc.c), over the words of memory.

    ```
    0 ── user pages ── sz        TRAPFRAME ──▶ tf     TRAMPOLINE ──▶ trampoline
    ```
 -/

namespace Xv6.Sv39
open Mem (addInt)

/-- The fields of `struct proc` that say what memory a process has, and its name. The trapframe is a page
    of memory. -/
structure Proc where
  pagetable : Nat
  sz : Nat
  tf : Nat
  name : List UInt8

/-- The result, and the process; the local `sz` is a `uint`. -/
def growproc (kend : Nat) (p : Proc) (n : Int) : M (Int × Proc) := do
  let sz := p.sz % 2 ^ 32
  if 0 < n then do
    let sz := (← uvmalloc kend p.pagetable sz (addInt sz n)) % 2 ^ 32
    if sz = 0 then pure (-1, p) else pure (0, { p with sz := sz })
  else if n < 0 then do
    let sz := (← uvmdealloc kend p.pagetable sz (addInt sz n)) % 2 ^ 32
    pure (0, { p with sz := sz })
  else pure (0, { p with sz := sz })

end Xv6.Sv39
