import Mathlib.Data.List.Basic
import Mathlib.Data.Nat.ModEq
import Mathlib.Logic.Function.Basic

/-! Rings of cells with counters that wrap.

    Elements are put in and taken out at positions that are counted from the beginning; position `j` has
    the cell `j % N`. While no more than `N` elements are in the ring, every one has a cell of its own.
    Counters of 16 or 32 bits stand for the positions as long as these are compared within one turn. -/

namespace Xv6.Ring
open Function

variable {α : Type*} {N : Nat} {data : Nat → α} {l : List α} {h : Nat}

/-- Positions less than one turn apart have different cells. -/
theorem mod_ne {a b : Nat} (hab : a < b) (hb : b < a + N) : a % N ≠ b % N := by
  intro heq
  have hdvd : N ∣ b - a := (Nat.modEq_iff_dvd' hab.le).mp heq
  have hle := Nat.le_of_dvd (by omega) hdvd
  omega

/-- The cells hold the elements of `l` from position `h` on. -/
structure Holds (N : Nat) (data : Nat → α) (l : List α) (h : Nat) : Prop where
  le : h ≤ l.length
  fits : l.length ≤ h + N
  cell : ∀ j x, h ≤ j → l[j]? = some x → data (j % N) = x

namespace Holds

theorem nil : Holds N data [] 0 := ⟨Nat.le_refl 0, Nat.zero_le _, fun _ _ _ hx => by cases hx⟩

/-- The next free cell may be written before the element counts. -/
theorem set (hr : Holds N data l h) (hroom : l.length < h + N) (x : α) :
    Holds N (update data (l.length % N) x) l h := by
  refine ⟨hr.le, hr.fits, fun j y hj hy => ?_⟩
  obtain ⟨hlt, _⟩ := List.getElem?_eq_some_iff.mp hy
  rw [update_of_ne (mod_ne hlt (by omega))]
  exact hr.cell j y hj hy

theorem extend (hr : Holds N data l h) (hroom : l.length < h + N) {x : α} (hx : data (l.length % N) = x) :
    Holds N data (l ++ [x]) h := by
  refine ⟨?_, ?_, fun j y hj hy => ?_⟩
  · rw [List.length_append]
    exact Nat.le_trans hr.le (Nat.le_add_right _ _)
  · rw [List.length_append]
    exact hroom
  · rcases Nat.lt_or_ge j l.length with hlt | hge
    · rw [List.getElem?_append_left hlt] at hy
      exact hr.cell j y hj hy
    · rw [List.getElem?_append_right hge, List.getElem?_singleton] at hy
      split at hy
      · rw [show j = l.length by omega, hx]
        exact Option.some.inj hy
      · cases hy

theorem push (hr : Holds N data l h) (hroom : l.length < h + N) (x : α) :
    Holds N (update data (l.length % N) x) (l ++ [x]) h :=
  (hr.set hroom x).extend hroom (update_self ..)

theorem pop (hr : Holds N data l h) (hne : h < l.length) :
    l[h]? = some (data (h % N)) ∧ Holds N data l (h + 1) := by
  have hget : l[h]? = some l[h] := List.getElem?_eq_getElem hne
  refine ⟨?_, hne, Nat.le_trans hr.fits (by omega), fun j x hj => hr.cell j x (by omega)⟩
  rw [hr.cell h _ (Nat.le_refl h) hget, hget]

/-- The elements put in last may be given up. -/
theorem shrink {l' : List α} (hr : Holds N data (l ++ l') h) (hle : h ≤ l.length) : Holds N data l h := by
  have hfits := hr.fits
  rw [List.length_append] at hfits
  refine ⟨hle, by omega, fun j x hj hx => hr.cell j x hj ?_⟩
  obtain ⟨hlt, _⟩ := List.getElem?_eq_some_iff.mp hx
  rwa [List.getElem?_append_left hlt]

end Holds

/-! ### Counters -/

theorem toNat_mod (hN : N ∣ 2 ^ 32) (n : Nat) : (UInt32.ofNat n).toNat % N = n % N := by
  rw [UInt32.toNat_ofNat']
  exact Nat.mod_mod_of_dvd n hN

/-- The distance of two counters is that of the positions. -/
theorem toNat_sub {a b : Nat} (hab : a ≤ b) (hb : b < a + 2 ^ 32) :
    (UInt32.ofNat b - UInt32.ofNat a).toNat = b - a := by
  rw [UInt32.toNat_sub, UInt32.toNat_ofNat', UInt32.toNat_ofNat']
  omega

theorem ofNat_eq_add_iff {a b k : Nat} (hab : a ≤ b) (hb : b < a + 2 ^ 32) (hk : k < 2 ^ 32) :
    UInt32.ofNat b = UInt32.ofNat a + UInt32.ofNat k ↔ b = a + k := by
  constructor
  · intro heq
    have h := congrArg UInt32.toNat heq
    rw [UInt32.toNat_add, UInt32.toNat_ofNat', UInt32.toNat_ofNat', UInt32.toNat_ofNat'] at h
    omega
  · rintro rfl
    exact UInt32.ofNat_add a k

theorem ofNat_eq_iff {a b : Nat} (hab : a ≤ b) (hb : b < a + 2 ^ 32) :
    UInt32.ofNat a = UInt32.ofNat b ↔ a = b := by
  have h := ofNat_eq_add_iff (k := 0) hab hb (by decide)
  rw [show UInt32.ofNat 0 = 0 from rfl, UInt32.add_zero, Nat.add_zero] at h
  exact ⟨fun heq => (h.mp heq.symm).symm, fun heq => (h.mpr heq.symm).symm⟩

end Xv6.Ring
