import Mathlib.Algebra.GroupWithZero.Nat
import Mathlib.Data.List.Basic
import Mathlib.Logic.Function.Basic
import Mathlib.Tactic.Common

/-! The user library (`ulib.c`): strings and copies in memory.

    ```
         p                 p + |s|
    … | s₀ | s₁ | … | sₙ | 0 | …        str p = s
    ```

    A loop over a string is given the number of bytes it may look at; the strings here end before. -/

namespace Xv6.Ulib
open Function

/-- Memory by address. -/
abbrev Mem : Type := Nat → UInt8

/-- A string, without the terminating zero. -/
abbrev Str : Type := List UInt8

/-- `n` bytes at `p`. -/
def bytes (b : Mem) (p : Nat) : Nat → List UInt8
  | 0 => []
  | n + 1 => b p :: bytes b (p + 1) n

/-- The string at `p`, which ends in the `n` bytes at `p`. -/
def str (b : Mem) (p : Nat) : Nat → Str
  | 0 => []
  | n + 1 => if b p = 0 then [] else b p :: str b (p + 1) n

/-- `strchr` of the string at `p`, which ends in the `n` bytes at `p`. -/
def strchr (b : Mem) (c : UInt8) (p : Nat) : Nat → Option Nat
  | 0 => none
  | n + 1 => if b p = 0 then none else if b p = c then some p else strchr b c (p + 1) n

/-- What a `read` leaves in memory. -/
def store (b : Mem) (p : Nat) (xs : List UInt8) : Mem :=
  fun a => if p ≤ a ∧ a < p + xs.length then xs.getD (a - p) 0 else b a

/-- `while(n-- > 0) *dst++ = *src++;` -/
def copyUp (b : Mem) (dst src : Nat) : Nat → Mem
  | 0 => b
  | n + 1 => copyUp (update b dst (b src)) (dst + 1) (src + 1) n

/-- `while(n-- > 0) *--dst = *--src;`, with `dst` and `src` after `dst += n` and `src += n`. -/
def copyDown (b : Mem) (dst src : Nat) : Nat → Mem
  | 0 => b
  | n + 1 => copyDown (update b (dst + n) (b (src + n))) dst src n

/-- How often `while(n-- > 0)` goes round for an `int n`, which is negative from `2 ^ 31` on. -/
def rounds (n : Nat) : Nat := if n % 2 ^ 32 < 2 ^ 31 then n % 2 ^ 32 else 0

def memmove (b : Mem) (dst src n : Nat) : Mem :=
  if dst < src then copyUp b dst src (rounds n) else copyDown b dst src (rounds n)

variable {b b' : Mem} {c : UInt8} {p q n m dst src : Nat} {s s' : Str}

/-! ### Bytes -/

@[simp] theorem length_bytes : (bytes b p n).length = n := by
  induction n generalizing p with
  | zero => rfl
  | succ n ih => rw [bytes, List.length_cons, ih]

theorem bytes_add : bytes b p (n + m) = bytes b p n ++ bytes b (p + n) m := by
  induction n generalizing p with
  | zero => simp [bytes]
  | succ n ih =>
    rw [Nat.add_right_comm, bytes, bytes, ih, List.cons_append, Nat.add_assoc, Nat.add_comm 1]

theorem bytes_congr (h : ∀ i < n, b (p + i) = b' (q + i)) : bytes b p n = bytes b' q n := by
  induction n generalizing p q with
  | zero => rfl
  | succ n ih =>
    rw [bytes, bytes, show b p = b' q from h 0 (by omega)]
    congr 1
    refine ih fun i hi => ?_
    simpa only [Nat.add_assoc, Nat.add_comm 1] using h (i + 1) (by omega)

/-- A store outside of the bytes. -/
theorem bytes_update (h : q < p ∨ p + n ≤ q) : bytes (update b q c) p n = bytes b p n :=
  bytes_congr fun i hi => update_of_ne (by omega) _ _

/-- The bytes of two strings in a row. -/
theorem bytes_append (h : bytes b p n = s ++ s') :
    n = s.length + s'.length ∧ bytes b p s.length = s ∧ bytes b (p + s.length) s'.length = s' := by
  have hn : n = s.length + s'.length := by rw [← List.length_append, ← h, length_bytes]
  subst hn
  rw [bytes_add] at h
  obtain ⟨h₁, h₂⟩ := List.append_inj h length_bytes
  exact ⟨rfl, h₁, h₂⟩

theorem getElem_bytes {i : Nat} (h : i < (bytes b p n).length) : (bytes b p n)[i] = b (p + i) := by
  induction n generalizing p i with
  | zero => simp at h
  | succ n ih =>
    cases i with
    | zero => rfl
    | succ i => exact (ih _).trans (by rw [Nat.add_assoc, Nat.add_comm 1])

theorem bytes_store (b : Mem) (p : Nat) (xs : List UInt8) : bytes (store b p xs) p xs.length = xs := by
  refine List.ext_getElem length_bytes fun i hi hi' => ?_
  rw [getElem_bytes, store, if_pos (by omega), Nat.add_sub_cancel_left]
  simp [hi']

/-! ### Strings -/

theorem str_eq (hs : bytes b p s.length = s) (h0 : 0 ∉ s) (hend : b (p + s.length) = 0) (hn : s.length < n) :
    str b p n = s := by
  induction s generalizing p n with
  | nil =>
    obtain ⟨n, rfl⟩ : ∃ k, n = k + 1 := ⟨n - 1, by simp at hn; omega⟩
    exact if_pos hend
  | cons x s ih =>
    obtain ⟨n, rfl⟩ : ∃ k, n = k + 1 := ⟨n - 1, by simp at hn; omega⟩
    obtain ⟨hx, hs⟩ := List.cons_eq_cons.mp hs
    rw [List.mem_cons, not_or] at h0
    rw [str, hx, if_neg (Ne.symm h0.1), ih hs h0.2 (by rwa [Nat.add_assoc, Nat.add_comm 1])
      (Nat.lt_of_succ_lt_succ hn)]

theorem strchr_none (hs : bytes b p s.length = s) (hc : c ∉ s) (hend : b (p + s.length) = 0) :
    strchr b c p n = none := by
  induction n generalizing p s with
  | zero => rfl
  | succ n ih =>
    cases s with
    | nil => exact if_pos hend
    | cons x s =>
      obtain ⟨hx, hs⟩ := List.cons_eq_cons.mp hs
      rw [List.mem_cons, not_or] at hc
      rw [strchr, hx, if_neg (Ne.symm hc.1), ih hs hc.2 (by rwa [Nat.add_assoc, Nat.add_comm 1]), ite_self]

theorem strchr_some (hs : bytes b p (s.length + 1) = s ++ [c]) (h0 : 0 ∉ s ++ [c]) (hc : c ∉ s)
    (hn : s.length < n) :
    strchr b c p n = some (p + s.length) := by
  induction s generalizing p n with
  | nil =>
    obtain ⟨n, rfl⟩ : ∃ k, n = k + 1 := ⟨n - 1, by simp at hn; omega⟩
    have hx : b p = c := (List.cons_eq_cons.mp hs).1
    have h0 : c ≠ 0 := by simpa [eq_comm] using h0
    rw [strchr, hx, if_neg h0, if_pos rfl]
    rfl
  | cons x s ih =>
    obtain ⟨n, rfl⟩ : ∃ k, n = k + 1 := ⟨n - 1, by simp at hn; omega⟩
    obtain ⟨hx, hs⟩ := List.cons_eq_cons.mp hs
    rw [List.mem_cons, not_or] at hc
    rw [List.cons_append, List.mem_cons, not_or] at h0
    rw [strchr, hx, if_neg (Ne.symm h0.1), if_neg (Ne.symm hc.1), ih hs h0.2 hc.2 (Nat.lt_of_succ_lt_succ hn),
      List.length_cons, Nat.add_assoc, Nat.add_comm 1]

/-! ### Copies -/

/-- All of the bytes at once. -/
def moved (b : Mem) (dst src n : Nat) : Mem := fun a => if dst ≤ a ∧ a < dst + n then b (src + (a - dst)) else b a

theorem moved_inside {i : Nat} (hi : i < n) : moved b dst src n (dst + i) = b (src + i) := by
  rw [moved, if_pos (by omega), Nat.add_sub_cancel_left]

theorem moved_outside {a : Nat} (ha : a < dst ∨ dst + n ≤ a) : moved b dst src n a = b a := if_neg (by omega)

/-- The loop reads each byte of the source before it is overwritten. -/
theorem copyUp_eq (h : dst ≤ src ∨ src + n ≤ dst) : copyUp b dst src n = moved b dst src n := by
  induction n generalizing b dst src with
  | zero =>
    funext a
    exact (if_neg (by omega)).symm
  | succ n ih =>
    rw [copyUp, ih (by omega)]
    funext a
    simp only [moved, update_apply]
    grind

theorem copyDown_eq (h : src ≤ dst) : copyDown b dst src n = moved b dst src n := by
  induction n generalizing b with
  | zero =>
    funext a
    exact (if_neg (by omega)).symm
  | succ n ih =>
    rw [copyDown, ih]
    funext a
    simp only [moved, update_apply]
    grind

theorem memmove_eq (b : Mem) (dst src n : Nat) : memmove b dst src n = moved b dst src (rounds n) := by
  rw [memmove]
  split
  · exact copyUp_eq (by omega)
  · exact copyDown_eq (by omega)

theorem rounds_eq (h : n < 2 ^ 31) : rounds n = n := by
  rw [rounds, Nat.mod_eq_of_lt (by omega), if_pos h]

theorem rounds_eq_zero (h : 2 ^ 31 ≤ n) (hn : n < 2 ^ 32) : rounds n = 0 := by
  rw [rounds, Nat.mod_eq_of_lt hn, if_neg (by omega)]

theorem bytes_memmove (h : n < 2 ^ 31) : bytes (memmove b dst src n) dst n = bytes b src n := by
  rw [memmove_eq, rounds_eq h]
  exact bytes_congr fun i hi => moved_inside hi

end Xv6.Ulib
