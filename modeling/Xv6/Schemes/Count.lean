import Mathlib.Data.Fintype.Card

/-! How many entries of a finite table satisfy a test.

    A table is changed one entry at a time; a count then changes by what the old and the new entry
    are worth. -/

namespace Xv6.Count
open Function

variable {ι α : Type} [Fintype ι]

/-- The number of entries of `f` that pass `test`. -/
def count (f : ι → α) (test : α → Bool) : Nat := (Finset.univ.filter fun i => test (f i) = true).card

/-- Replacing one entry takes out what the old one was worth and puts in what the new one is. -/
theorem count_update [DecidableEq ι] (f : ι → α) (test : α → Bool) (i : ι) (x : α) :
    count (update f i x) test + (test (f i)).toNat = count f test + (test x).toNat := by
  have hrest : ∀ y, (Finset.univ.filter fun j => test (update f i y j) = true).erase i =
      (Finset.univ.filter fun j => test (f j) = true).erase i := by
    intro y
    ext j
    by_cases hj : j = i
    · simp [hj]
    · simp [hj]
  have hsplit : ∀ y, count (update f i y) test =
      ((Finset.univ.filter fun j => test (f j) = true).erase i).card + (test y).toNat := by
    intro y
    unfold count
    rw [← hrest y]
    cases hy : test y
    · rw [Finset.erase_eq_of_notMem (by simp [hy]), Bool.toNat_false, Nat.add_zero]
    · exact (Finset.card_erase_add_one (by simp [hy])).symm
  have hself := hsplit (f i)
  rw [update_eq_self] at hself
  rw [hsplit x, hself]
  omega

theorem count_le (f : ι → α) (test : α → Bool) : count f test ≤ Fintype.card ι :=
  Finset.card_le_univ _

variable {f : ι → α} {test : α → Bool}

theorem count_pos {i : ι} (hi : test (f i) = true) :
    0 < count f test :=
  Finset.card_pos.mpr ⟨i, by simpa using hi⟩

theorem exists_of_count_pos (h : 0 < count f test) : ∃ i, test (f i) = true := by
  obtain ⟨i, hi⟩ := Finset.card_pos.mp h
  exact ⟨i, by simpa using hi⟩

theorem count_eq_zero (h : count f test = 0) (i : ι) :
    test (f i) = false := by
  cases hi : test (f i)
  · rfl
  · have := count_pos hi
    omega

end Xv6.Count
