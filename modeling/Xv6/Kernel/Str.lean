import Mathlib.Algebra.Group.Nat.Defs
import Xv6.User.Ulib

/-! Copies in the kernel (`string.c`).

    ```
    src    src + n            src    src + n               src    src + n
     ├────────┤                ├────────┤                   ├────────┤
          ├────────┤                        ├────────┤   ├────────┤
         dst                               dst          dst
      from the end              from the start          from the start
    ```

    The kernel goes down only where the destination begins inside the source, the user library wherever it
    does not begin before it. The kernel's `n` is a `uint`, that of the user library an `int`. -/

namespace Xv6.Str
open Ulib (Mem bytes copyUp copyDown moved copyUp_eq copyDown_eq memmove_eq moved_inside moved_outside
  rounds_eq rounds_eq_zero)

/-- `memmove` of the kernel; the sum in its test is of 64 bits. -/
def memmove (b : Mem) (dst src n : Nat) : Mem :=
  let n := n % 2 ^ 32
  if src < dst ∧ dst < (src + n) % 2 ^ 64 then copyDown b dst src n else copyUp b dst src n

variable {b : Mem} {dst src n : Nat}

theorem memmove_moved (hn : n < 2 ^ 32) (hsrc : src + n < 2 ^ 64) : memmove b dst src n = moved b dst src n := by
  simp only [memmove, Nat.mod_eq_of_lt hn, Nat.mod_eq_of_lt hsrc]
  split
  · rename_i hinside
    exact copyDown_eq (Nat.le_of_lt hinside.1)
  · rename_i hnot
    exact copyUp_eq (by omega)

theorem moved_zero : moved b dst src 0 = b := funext fun _ => if_neg (by omega)

/-- The kernel copies all of the bytes at once, however the regions lie, and so does the user library where
    the count is an `int`; it copies nothing where the count has become negative. -/
theorem memmove_simultaneous (b : Mem) (dst src n : Nat) (hn : n < 2 ^ 32) (hsrc : src + n < 2 ^ 64) :
    (∀ i < n, memmove b dst src n (dst + i) = b (src + i)) ∧
      (∀ a, a < dst ∨ dst + n ≤ a → memmove b dst src n a = b a) ∧
      (n < 2 ^ 31 → (∀ i < n, Ulib.memmove b dst src n (dst + i) = b (src + i)) ∧
        (∀ a, a < dst ∨ dst + n ≤ a → Ulib.memmove b dst src n a = b a) ∧
        memmove b dst src n = Ulib.memmove b dst src n) ∧
      (2 ^ 31 ≤ n → Ulib.memmove b dst src n = b) := by
  rw [memmove_moved hn hsrc, memmove_eq]
  refine ⟨fun _ => moved_inside, fun _ => moved_outside, fun hint => ?_, fun hneg => ?_⟩
  · rw [rounds_eq hint]
    exact ⟨fun _ => moved_inside, fun _ => moved_outside, rfl⟩
  · rw [rounds_eq_zero hneg hn, moved_zero]

/-- Five bytes are moved up by two. -/
theorem memmove_simultaneous_overlap :
    bytes (memmove UInt8.ofNat 5 3 5) 3 7 = [3, 4, 3, 4, 5, 6, 7] ∧
      memmove UInt8.ofNat 5 3 5 = Ulib.memmove UInt8.ofNat 5 3 5 :=
  ⟨by decide, ((memmove_simultaneous UInt8.ofNat 5 3 5 (by decide) (by decide)).2.2.1 (by decide)).2.2⟩

/-- Half of the largest `uint` is a negative `int`. -/
theorem memmove_differ : memmove UInt8.ofNat 0 1 (2 ^ 31) 0 = 1 ∧ Ulib.memmove UInt8.ofNat 0 1 (2 ^ 31) 0 = 0 := by
  rw [memmove_moved (by decide) (by decide), memmove_eq, rounds_eq_zero (by decide) (by decide)]
  exact ⟨rfl, rfl⟩

end Xv6.Str
