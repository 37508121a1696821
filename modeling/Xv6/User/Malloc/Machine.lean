import Xv6.Schemes.Extents
import Xv6.Schemes.Hoare
import Mathlib.Logic.Function.Basic

/-! The allocator of user programs (umalloc.c).

    ```
    base ──▶ | header | … |   | header | … |   | header | … |
      ▲                                              │
      └──────────────────────────────────────────────┘
    ```

    A header has 16 bytes: a pointer and a size, in headers. Addresses are numbers of bytes. -/

namespace Xv6.Malloc
open Extents (Extent)

structure Header where
  ptr : Nat
  size : Nat

/-- The headers in memory. `brk` is above everything that `sbrk` has returned; `got` is what it has
    returned to `morecore`, and `calls` the number of calls. -/
structure State where
  mem : Nat → Header
  freep : Nat
  brk : Nat
  calls : Nat
  got : List Extent

abbrev M (α : Type) : Type := StateT State (Except String) α

/-- The address of `base`, and what the calls of `sbrk` do: fail, or return memory some way above `brk`,
    as long as it ends below `limit`. -/
structure Env where
  base : Nat
  limit : Nat
  sbrk : Nat → Option Nat

def setPtr (a p : Nat) : M Unit :=
  modify fun s => { s with mem := Function.update s.mem a { s.mem a with ptr := p } }

def setSize (a n : Nat) : M Unit :=
  modify fun s => { s with mem := Function.update s.mem a { s.mem a with size := n % 2 ^ 32 } }

def ptr (a : Nat) : M Nat := do return ((← get).mem a).ptr

def size (a : Nat) : M Nat := do return ((← get).mem a).size

/-! ### `free` -/

/-- The loop of `free`. -/
def searchLoop (bp : Nat) : Nat → Nat → M Nat
  | 0, _ => throw "out of fuel"
  | fuel + 1, p => do
    let next ← ptr p
    if bp > p ∧ bp < next then pure p
    else if p ≥ next ∧ (bp > p ∨ bp < next) then pure p
    else searchLoop bp fuel next

/-- `bp` is joined to the block after it, or points to it. -/
def joinNext (p bp : Nat) : M Unit := do
  if bp + 16 * (← size bp) = (← ptr p) then
    setSize bp ((← size bp) + (← size (← ptr p)))
    setPtr bp (← ptr (← ptr p))
  else
    setPtr bp (← ptr p)

/-- `bp` is joined to the block before it, or is pointed to by it. -/
def joinPrev (p bp : Nat) : M Unit := do
  if p + 16 * (← size p) = bp then
    setSize p ((← size p) + (← size bp))
    setPtr p (← ptr bp)
  else
    setPtr p bp

def free (fuel ap : Nat) : M Unit := do
  let bp := ap - 16
  let p ← searchLoop bp fuel (← get).freep
  joinNext p bp
  joinPrev p bp
  modify fun s => { s with freep := p }

/-! ### `malloc` -/

variable (e : Env)

/-- `none` is -1. -/
def sbrk (n : Nat) : M (Option Nat) := do
  let s ← get
  modify fun s => { s with calls := s.calls + 1 }
  match e.sbrk s.calls with
  | none => pure none
  | some gap =>
    if s.brk + gap + n ≤ e.limit then do
      modify fun s => { s with brk := s.brk + gap + n }
      pure (some (s.brk + gap))
    else pure none

section With
variable (sbrk : Nat → M (Option Nat))

/-- `none` is 0. -/
def morecoreWith (fuel nu : Nat) : M (Option Nat) := do
  let nu := if nu < 4096 then 4096 else nu
  match ← sbrk (nu * 16) with
  | none => pure none
  | some p => do
    modify fun s => { s with got := ⟨p, nu * 16⟩ :: s.got }
    setSize p nu
    free fuel (p + 16)
    return some (← get).freep

/-- A block that is large enough: all of it, or the end of it. -/
def take (nunits prevp p : Nat) : M Nat := do
  if (← size p) = nunits then
    setPtr prevp (← ptr p)
    modify fun s => { s with freep := prevp }
    pure (p + 16)
  else do
    setSize p ((← size p) - nunits)
    let p := p + 16 * (← size p)
    setSize p nunits
    modify fun s => { s with freep := prevp }
    pure (p + 16)

/-- The loop of `malloc`; the loop of `free` has the same fuel. -/
def mallocLoopWith (nunits : Nat) : Nat → Nat → Nat → M (Option Nat)
  | 0, _, _ => throw "out of fuel"
  | fuel + 1, prevp, p => do
    if (← size p) ≥ nunits then return some (← take nunits prevp p)
    else if p = (← get).freep then
      match ← morecoreWith sbrk fuel nunits with
      | none => pure none
      | some p => do mallocLoopWith nunits fuel p (← ptr p)
    else do mallocLoopWith nunits fuel p (← ptr p)

/-- `none` is 0. -/
def mallocWith (base fuel nbytes : Nat) : M (Option Nat) := do
  let nunits := ((nbytes + 16 - 1) / 16 + 1) % 2 ^ 32
  if (← get).freep = 0 then
    modify fun s => { s with freep := base }
    setPtr base base
    setSize base 0
  let prevp := (← get).freep
  mallocLoopWith sbrk nunits fuel prevp (← ptr prevp)

end With

abbrev morecore : Nat → Nat → M (Option Nat) := morecoreWith (sbrk e)

abbrev mallocLoop : Nat → Nat → Nat → Nat → M (Option Nat) := mallocLoopWith (sbrk e)

abbrev malloc : Nat → Nat → M (Option Nat) := mallocWith (sbrk e) e.base

end Xv6.Malloc
