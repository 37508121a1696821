import Xv6.Schemes.Packed
import Xv6.Kernel.Mem.Sv39

/-! Copies between the kernel and user memory (vm.c).

    ```
    user     va ──────┬───────────────┬──── va + len
             page     │     page      │  page
             ▼        ▼               ▼
    memory   pa0+off  pa0             pa0
    ```

    The pages of memory are words; a byte is a part of a word. A buffer of the kernel is the list of its
    bytes where it is read, and a function from offsets to bytes where it is written. -/

namespace Xv6.Sv39
open Mem (PGSIZE PGROUNDDOWN)

/-- A byte of physical memory. -/
def State.byte (s : State) (a : Nat) : UInt8 := Packed.byte s.mem a

/-- The bytes from an address on. -/
def State.bytes (s : State) (a n : Nat) : List UInt8 := (List.range n).map fun i => s.byte (a + i)

def State.write (s : State) (a : Nat) (bs : List UInt8) : State := { s with mem := Packed.write s.mem a bs }

/-- The bytes come from a buffer of the kernel. -/
def memmove (a : Nat) (bs : List UInt8) : M Unit := modify (·.write a bs)

def loadByte (a : Nat) : M UInt8 := do return (← get).byte a

def loadBytes (a n : Nat) : M (List UInt8) := do return (← get).bytes a n

/-! ### `copyout` -/

/-- The loop of `copyout`; `src` are the bytes that are left. -/
def copyoutLoop (pagetable : Nat) : Nat → Nat → List UInt8 → M Int
  | 0, _, _ => throw "out of fuel"
  | fuel + 1, dstva, src =>
    if src.length = 0 then pure 0
    else do
      let va0 := PGROUNDDOWN dstva
      let pa0 ← walkaddr pagetable va0
      if pa0 = 0 then pure (-1)
      else do
        let n := min (PGSIZE - (dstva - va0)) src.length
        memmove (pa0 + (dstva - va0)) (src.take n)
        copyoutLoop pagetable fuel ((va0 + PGSIZE) % 2 ^ 64) (src.drop n)

/-- There are no more rounds than pages below `MAXVA`, and one that fails. -/
def copyout (pagetable dstva : Nat) (src : List UInt8) : M Int := copyoutLoop pagetable rounds dstva src

/-! ### `copyin` -/

/-- The buffer with `bs` at offset `k`. -/
def place (dst : Nat → UInt8) (k : Nat) (bs : List UInt8) (i : Nat) : UInt8 :=
  if k ≤ i then bs.getD (i - k) (dst i) else dst i

/-- The loop of `copyin`, which has come to offset `k` of the buffer. -/
def copyinLoop (pagetable : Nat) : Nat → (Nat → UInt8) → Nat → Nat → Nat → M (Int × (Nat → UInt8))
  | 0, _, _, _, _ => throw "out of fuel"
  | fuel + 1, dst, k, srcva, len =>
    if len = 0 then pure (0, dst)
    else do
      let va0 := PGROUNDDOWN srcva
      let pa0 ← walkaddr pagetable va0
      if pa0 = 0 then pure (-1, dst)
      else do
        let n := min (PGSIZE - (srcva - va0)) len
        let bs ← loadBytes (pa0 + (srcva - va0)) n
        copyinLoop pagetable fuel (place dst k bs) (k + n) ((va0 + PGSIZE) % 2 ^ 64) (len - n)

/-- The result, and the buffer. -/
def copyin (pagetable : Nat) (dst : Nat → UInt8) (srcva len : Nat) : M (Int × (Nat → UInt8)) :=
  copyinLoop pagetable rounds dst 0 srcva len

/-! ### `copyinstr` -/

/-- The inner loop of `copyinstr`, over `n` bytes from `p` on: `got_null`, the buffer, and its offset. -/
def strLoop : Nat → Nat → (Nat → UInt8) → Nat → M (Bool × (Nat → UInt8) × Nat)
  | 0, _, dst, k => pure (false, dst, k)
  | n + 1, p, dst, k => do
    let c ← loadByte p
    if c = 0 then pure (true, Function.update dst k 0, k)
    else strLoop n (p + 1) (Function.update dst k c) (k + 1)

/-- The loop of `copyinstr`; as many bytes as `dst` has moved on, `max` has become smaller. -/
def copyinstrLoop (pagetable : Nat) : Nat → (Nat → UInt8) → Nat → Nat → Nat → M (Int × (Nat → UInt8))
  | 0, _, _, _, _ => throw "out of fuel"
  | fuel + 1, dst, k, srcva, max =>
    if max = 0 then pure (-1, dst)
    else do
      let va0 := PGROUNDDOWN srcva
      let pa0 ← walkaddr pagetable va0
      if pa0 = 0 then pure (-1, dst)
      else do
        let n := min (PGSIZE - (srcva - va0)) max
        let (gotNull, dst, k') ← strLoop n (pa0 + (srcva - va0)) dst k
        if gotNull then pure (0, dst)
        else copyinstrLoop pagetable fuel dst k' ((va0 + PGSIZE) % 2 ^ 64) (max - (k' - k))

/-- The result, and the buffer. -/
def copyinstr (pagetable : Nat) (dst : Nat → UInt8) (srcva max : Nat) : M (Int × (Nat → UInt8)) :=
  copyinstrLoop pagetable rounds dst 0 srcva max

end Xv6.Sv39
