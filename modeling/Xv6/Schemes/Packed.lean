import Mathlib.Data.Nat.Basic
import Mathlib.Logic.Function.Basic
import Mathlib.Tactic.Ring

/-! Bytes in a memory of words.

    ```
    address  a = page + 8 · word + pos
                  │        │       │
    memory        m page   word ─▶ | 7 | 6 | … | 1 | 0 |
    ```

    The memory is a function from pages, known by their addresses, to `n` words; the bytes of a word are
    its digits to the base 256. A byte that is stored is read back, and no other byte sees the store. -/

namespace Xv6.Packed
open Function

/-! ### A word -/

/-- The byte at a position. -/
def get (w k : Nat) : UInt8 := UInt8.ofNat (w / 256 ^ k)

/-- The word with another byte at a position. -/
def put (w k : Nat) (b : UInt8) : Nat := w / 256 ^ (k + 1) * 256 ^ (k + 1) + b.toNat * 256 ^ k + w % 256 ^ k

theorem put_div (w k : Nat) (b : UInt8) : put w k b / 256 ^ k = w / 256 ^ (k + 1) * 256 + b.toNat := by
  have hpos : 0 < 256 ^ k := Nat.pow_pos (by decide)
  have heq : put w k b = w % 256 ^ k + 256 ^ k * (w / 256 ^ (k + 1) * 256 + b.toNat) := by
    unfold put
    ring
  rw [heq, Nat.add_mul_div_left _ _ hpos, Nat.div_eq_of_lt (Nat.mod_lt _ hpos), Nat.zero_add]

theorem put_mod (w k : Nat) (b : UInt8) : put w k b % 256 ^ k = w % 256 ^ k := by
  have heq : put w k b = w % 256 ^ k + 256 ^ k * (w / 256 ^ (k + 1) * 256 + b.toNat) := by
    unfold put
    ring
  rw [heq, Nat.add_mul_mod_self_left, Nat.mod_mod]

theorem get_put_self (w k : Nat) (b : UInt8) : get (put w k b) k = b := by
  rw [get, put_div]
  apply UInt8.toNat_inj.mp
  rw [UInt8.toNat_ofNat']
  have := b.toNat_lt
  omega

/-- The lower digits depend on the remainder only. -/
theorem get_mod {j k : Nat} (w : Nat) (h : j < k) : get w j = get (w % 256 ^ k) j := by
  have hdvd : 256 ^ (j + 1) ∣ 256 ^ k := Nat.pow_dvd_pow 256 h
  have hdigit : ∀ v, v / 256 ^ j % 256 = v % 256 ^ (j + 1) / 256 ^ j := fun v => by
    rw [pow_succ, Nat.mod_mul_right_div_self]
  apply UInt8.toNat_inj.mp
  rw [get, get, UInt8.toNat_ofNat', UInt8.toNat_ofNat', hdigit, hdigit, Nat.mod_mod_of_dvd _ hdvd]

theorem get_put_of_ne {j k : Nat} (w : Nat) (b : UInt8) (h : j ≠ k) : get (put w k b) j = get w j := by
  rcases Nat.lt_or_gt_of_ne h with hlt | hgt
  · rw [get_mod _ hlt, put_mod, ← get_mod _ hlt]
  · obtain ⟨d, rfl⟩ : ∃ d, j = k + 1 + d := ⟨j - (k + 1), by omega⟩
    have hhigh : put w k b / 256 ^ (k + 1) = w / 256 ^ (k + 1) := by
      have := b.toNat_lt
      rw [pow_succ, ← Nat.div_div_eq_div_mul, put_div, ← pow_succ]
      omega
    rw [get, get, pow_add, ← Nat.div_div_eq_div_mul, hhigh, Nat.div_div_eq_div_mul]

/-! ### The memory -/

section Memory

variable {n : Nat} [NeZero n] {m : Nat → Fin n → Nat} {a x f : Nat} {b : UInt8} {bs : List UInt8}

/-- The page of an address. -/
def page (n a : Nat) : Nat := a / (8 * n) * (8 * n)

theorem word_lt (a : Nat) : a % (8 * n) / 8 < n := by
  have hpos : 0 < n := Nat.pos_of_ne_zero (NeZero.ne n)
  exact Nat.div_lt_of_lt_mul (Nat.mod_lt _ (by omega))

/-- The index of the word of an address in its page. -/
def word (n : Nat) [NeZero n] (a : Nat) : Fin n := ⟨a % (8 * n) / 8, word_lt a⟩

def byte (m : Nat → Fin n → Nat) (a : Nat) : UInt8 := get (m (page n a) (word n a)) (a % 8)

/-- Store one byte. -/
def setByte (m : Nat → Fin n → Nat) (a : Nat) (b : UInt8) : Nat → Fin n → Nat :=
  update m (page n a) (update (m (page n a)) (word n a) (put (m (page n a) (word n a)) (a % 8) b))

/-- Store bytes one after the other. -/
def write (m : Nat → Fin n → Nat) (a : Nat) : List UInt8 → Nat → Fin n → Nat
  | [] => m
  | b :: bs => write (setByte m a b) (a + 1) bs

/-- Page, word and position determine the address. -/
theorem address_inj (hp : page n x = page n a) (hw : word n x = word n a) (hk : x % 8 = a % 8) : x = a := by
  have hsplit : ∀ y : Nat, y = page n y + (8 * (word n y).val + y % 8) := fun y => by
    have hmod : y % (8 * n) % 8 = y % 8 := Nat.mod_mod_of_dvd y (Nat.dvd_mul_right 8 n)
    have hdiv : 8 * (y % (8 * n) / 8) + y % 8 = y % (8 * n) := by
      rw [← hmod]
      exact Nat.div_add_mod _ 8
    show y = y / (8 * n) * (8 * n) + (8 * (y % (8 * n) / 8) + y % 8)
    rw [hdiv, Nat.mul_comm]
    exact (Nat.div_add_mod y (8 * n)).symm
  rw [hsplit x, hsplit a, hp, hw, hk]

theorem byte_setByte_self : byte (setByte m a b) a = b := by
  rw [byte, setByte, update_self, update_self, get_put_self]

theorem byte_setByte_of_ne (h : x ≠ a) : byte (setByte m a b) x = byte m x := by
  unfold byte setByte
  by_cases hp : page n x = page n a
  · rw [hp, update_self]
    by_cases hw : word n x = word n a
    · rw [hw, update_self, get_put_of_ne _ _ fun hk => h (address_inj hp hw hk)]
    · rw [update_of_ne hw]
  · rw [update_of_ne hp]

theorem setByte_of_ne (h : f ≠ page n a) : setByte m a b f = m f := update_of_ne h _ _

/-- The other bytes stay. -/
theorem byte_write_of_notMem (h : x < a ∨ a + bs.length ≤ x) : byte (write m a bs) x = byte m x := by
  induction bs generalizing m a with
  | nil => rfl
  | cons c bs ih =>
    rw [List.length_cons] at h
    rw [write, ih (by omega), byte_setByte_of_ne (by omega)]

/-- What is written is read back. -/
theorem byte_write_mem {i : Nat} (h : i < bs.length) : byte (write m a bs) (a + i) = bs[i] := by
  induction bs generalizing m a i with
  | nil => exact absurd h (Nat.not_lt_zero i)
  | cons c bs ih =>
    cases i with
    | zero =>
      have hlow : a < a + 1 ∨ a + 1 + bs.length ≤ a := .inl (Nat.lt_succ_self a)
      rw [Nat.add_zero, write, byte_write_of_notMem hlow, byte_setByte_self, List.getElem_cons_zero]
    | succ i =>
      rw [write, List.getElem_cons_succ, ← ih (m := setByte m a c) (a := a + 1) (Nat.lt_of_succ_lt_succ h),
        Nat.add_assoc, Nat.add_comm 1]

/-- The other pages stay. -/
theorem write_of_ne (h : ∀ i, i < bs.length → f ≠ page n (a + i)) : write m a bs f = m f := by
  induction bs generalizing m a with
  | nil => rfl
  | cons c bs ih =>
    have hhead : f ≠ page n a := h 0 (Nat.succ_pos _)
    rw [write, ih fun i hi => ?_, setByte_of_ne hhead]
    rw [Nat.add_assoc, Nat.add_comm 1]
    exact h (i + 1) (Nat.succ_lt_succ hi)

end Memory

end Xv6.Packed
