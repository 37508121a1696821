import Mathlib.Logic.Function.Basic
import Xv6.Kernel.Proc.Machine
import Xv6.Schemes.Prog

/-! Physical pages, page tables and the allocator (kalloc.c, riscv.h, memlayout.h).

    ```
    [0 … kernel … kend)   [kend …………………………… PHYSTOP)
     trampoline            page frames: free list, page tables, user pages, trapframes
    ```

    A page frame is known by its number. Of the contents of the frames the model has the page-table
    entries. The operations of a program are those of the allocator, which it performs with
    `kmem.lock`, single reads and writes of page-table entries, and accesses to `struct proc`. -/

namespace Xv6.Mem
open Function

open Procs (Slot ProcState)

/-! ### Addresses -/

def PGSIZE : Nat := 4096

def PGROUNDUP (sz : Nat) : Nat := (sz + PGSIZE - 1) % 2 ^ 64 / PGSIZE * PGSIZE

def PGROUNDDOWN (a : Nat) : Nat := a / PGSIZE * PGSIZE

def MAXVA : Nat := 2 ^ 38

def TRAMPOLINE : Nat := MAXVA - PGSIZE

def TRAPFRAME : Nat := TRAMPOLINE - PGSIZE

/-- The number of a physical page. -/
abbrev Frame : Type := Nat

def KERNBASE : Frame := 0x80000

def PHYSTOP : Frame := 0x88000

/-- What the linker decides: the page of `trampoline`, and the first page after the kernel. -/
structure Link where
  trampoline : Frame
  kend : Frame
  base : KERNBASE ≤ trampoline
  text : trampoline < kend
  ram : kend ≤ PHYSTOP

/-! ### Page-table entries -/

instance neZero_entries : NeZero 512 := ⟨by decide⟩

structure Perm where
  r : Bool
  w : Bool
  x : Bool
  u : Bool
  deriving DecidableEq

/-- A page-table entry: `PTE_V`, the other flags and the physical page. -/
structure Pte where
  v : Bool
  perm : Perm
  ppn : Frame
  deriving DecidableEq

namespace Pte

def zero : Pte := ⟨false, ⟨false, false, false, false⟩, 0⟩

/-- An entry that points to the next page-table page. -/
def ptr (f : Frame) : Pte := ⟨true, ⟨false, false, false, false⟩, f⟩

/-- An entry that maps a page. -/
def leaf (f : Frame) (perm : Perm) : Pte := ⟨true, perm, f⟩

/-- Every byte of the entry is `b`. -/
def fill (b : Nat) : Pte :=
  ⟨b.testBit 0, ⟨b.testBit 1, b.testBit 2, b.testBit 3, b.testBit 4⟩, b * 0x0101010101010101 / 2 ^ 10⟩

/-- One of `PTE_R`, `PTE_W` and `PTE_X` is set. -/
def isLeaf (e : Pte) : Bool := e.perm.r || e.perm.w || e.perm.x

end Pte

/-! ### State -/

/-- The fields of `struct proc` that say what memory a process has. -/
structure Proc where
  state : ProcState
  parent : Option Slot
  tf : Option Frame
  pagetable : Option Frame
  sz : Nat
  deriving DecidableEq

/-- A slot that is not in use. -/
def Proc.free : Proc := ⟨.unused, none, none, none, 0⟩

structure State where
  /-- `kmem.freelist`. -/
  free : List Frame
  pte : Frame → Fin 512 → Pte
  proc : Slot → Proc

/-! ### Operations -/

inductive Op
  | kalloc
  | kfree (f : Frame)
  /-- `memset(pagetable, 0, PGSIZE)`. -/
  | clear (f : Frame)
  | load (f : Frame) (i : Fin 512)
  | store (f : Frame) (i : Fin 512) (e : Pte)
  | getProc (q : Slot)
  | setProc (q : Slot) (g : Proc → Proc)

def Op.Res : Op → Type
  | kalloc => Option Frame
  | load _ _ => Pte
  | getProc _ => Proc
  | _ => Unit

/-- Programs of the kernel. -/
abbrev Kernel (α : Type) : Type := Prog ⟨Op, Op.Res⟩ α

def kalloc : Kernel (Option Frame) := Prog.call (S := ⟨Op, Op.Res⟩) .kalloc

def kfree (f : Frame) : Kernel Unit := Prog.call (S := ⟨Op, Op.Res⟩) (.kfree f)

def clear (f : Frame) : Kernel Unit := Prog.call (S := ⟨Op, Op.Res⟩) (.clear f)

def load (f : Frame) (i : Fin 512) : Kernel Pte := Prog.call (S := ⟨Op, Op.Res⟩) (.load f i)

def store (f : Frame) (i : Fin 512) (e : Pte) : Kernel Unit :=
  Prog.call (S := ⟨Op, Op.Res⟩) (.store f i e)

def getProc (q : Slot) : Kernel Proc := Prog.call (S := ⟨Op, Op.Res⟩) (.getProc q)

def setProc (q : Slot) (g : Proc → Proc) : Kernel Unit := Prog.call (S := ⟨Op, Op.Res⟩) (.setProc q g)

def panic {α : Type} (msg : String) : Kernel α := .panic msg

namespace State

@[simps -fullyApplied]
def setPte (s : State) (f : Frame) (e : Fin 512 → Pte) : State :=
  { s with pte := update s.pte f e }

end State

/-- What the operations do: `kalloc` and `kfree` fill the page with 5 and with 1. -/
def Op.run (K : Link) : Prog.Handler ⟨Op, Op.Res⟩ State
  | .kalloc, s =>
    match s.free with
    | [] => .ok (none, s)
    | f :: rest => .ok (some f, ({ s with free := rest } : State).setPte f fun _ => .fill 5)
  | .kfree f, s =>
    if f < K.kend ∨ PHYSTOP ≤ f then .error "kfree"
    else .ok ((), ({ s with free := f :: s.free } : State).setPte f fun _ => .fill 1)
  | .clear f, s => .ok ((), s.setPte f fun _ => .zero)
  | .load f i, s => .ok (s.pte f i, s)
  | .store f i e, s => .ok ((), s.setPte f (update (s.pte f) i e))
  | .getProc q, s => .ok (s.proc q, s)
  | .setProc q g, s => .ok ((), { s with proc := update s.proc q (g (s.proc q)) })

end Xv6.Mem
