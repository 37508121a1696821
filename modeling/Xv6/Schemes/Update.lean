import Mathlib.Logic.Function.Basic

/-! Tables changed at one place. -/

namespace Xv6.Update
open Function

variable {ι κ α β : Type} [DecidableEq ι] [DecidableEq κ]

/-- An entry is the new one, or one of those before. -/
@[elab_as_elim]
theorem update_rec {P : α → Prop} {f : ι → α} {i j : ι} {x : α} (hi : j = i → P x) (h : j ≠ i → P (f j)) :
    P (update f i x j) := by
  by_cases hj : j = i
  · subst hj; simpa using hi rfl
  · simpa [hj] using h hj

/-- What the new entry shares with the old one, all entries keep. -/
theorem proj_update (π : α → β) {f : ι → α} {i : ι} {x : α} (hπ : π x = π (f i)) (j : ι) :
    π (update f i x j) = π (f j) :=
  update_rec (fun hj => hj ▸ hπ) fun _ => rfl

/-- A table of tables, changed in one row at one place. -/
theorem update_update (f : ι → κ → α) (i : ι) (k : κ) (x : α) (j : ι) (l : κ) :
    update f i (update (f i) k x) j l = if j = i ∧ l = k then x else f j l := by
  by_cases hj : j = i
  · subst hj
    by_cases hl : l = k
    · subst hl; simp
    · simp [hl]
  · simp [hj]

end Xv6.Update
