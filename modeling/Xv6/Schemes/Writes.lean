import Mathlib.Logic.Function.Basic

/-! Sequences of writes to a store.

    A store maps keys to values and a write replaces the value of one key. `apply` performs a list
    of writes, first to last. A crash cuts the list after some prefix, so the lemmas say what a
    prefix can have changed, and that performing the whole list over a store that already saw
    a prefix of it is the same as performing it once. -/

namespace Xv6.Writes
open Function

variable {κ α : Type} [DecidableEq κ]

/-- Perform the writes in order. -/
def apply (d : κ → α) : List (κ × α) → κ → α
  | [] => d
  | w :: ws => apply (update d w.1 w.2) ws

@[simp] theorem apply_nil (d : κ → α) : apply d [] = d := rfl

theorem apply_cons (d : κ → α) (w : κ × α) (ws : List (κ × α)) :
    apply d (w :: ws) = apply (update d w.1 w.2) ws := rfl

theorem apply_append (d : κ → α) (ws vs : List (κ × α)) :
    apply d (ws ++ vs) = apply (apply d ws) vs := by
  induction ws generalizing d with
  | nil => rfl
  | cons w ws ih => exact ih _

@[simp] theorem apply_singleton (d : κ → α) (w : κ × α) :
    apply d [w] = update d w.1 w.2 := rfl

/-- A key that no write names keeps its value. -/
theorem apply_of_forall_ne (d : κ → α) {ws : List (κ × α)} {k : κ} (h : ∀ w ∈ ws, w.1 ≠ k) :
    apply d ws k = d k := by
  induction ws generalizing d with
  | nil => rfl
  | cons w ws ih =>
    rw [apply_cons, ih _ fun v hv => h v (List.mem_cons_of_mem _ hv)]
    exact update_of_ne (h w List.mem_cons_self).symm _ _

/-- The result at a key depends on the old store only if no write names the key. -/
theorem apply_congr {d e : κ → α} {ws : List (κ × α)} {k : κ}
    (h : (∀ w ∈ ws, w.1 ≠ k) → d k = e k) : apply d ws k = apply e ws k := by
  induction ws generalizing d e with
  | nil => exact h (by simp)
  | cons w ws ih =>
    refine ih fun hws => ?_
    by_cases hk : k = w.1
    · subst hk; simp
    · rw [update_of_ne hk, update_of_ne hk]
      refine h fun v hv => ?_
      rcases List.mem_cons.mp hv with rfl | hv
      · exact Ne.symm hk
      · exact hws v hv

/-- A key that is written, always with one value, ends with that value. -/
theorem apply_of_mem (d : κ → α) {ws : List (κ × α)} {w : κ × α} (hw : w ∈ ws)
    (h : ∀ v ∈ ws, v.1 = w.1 → v.2 = w.2) : apply d ws w.1 = w.2 := by
  induction ws generalizing d with
  | nil => simp at hw
  | cons v ws ih =>
    rw [apply_cons]
    by_cases hmem : ∃ u ∈ ws, u.1 = w.1
    · obtain ⟨u, hu, huw⟩ := hmem
      have hval := h u (List.mem_cons_of_mem _ hu) huw
      have huw' : u = w := Prod.ext huw hval
      exact ih _ (huw' ▸ hu) fun v hv => h v (List.mem_cons_of_mem _ hv)
    · have hv : v = w := by
        rcases List.mem_cons.mp hw with rfl | hw
        · rfl
        · exact absurd ⟨w, hw, rfl⟩ hmem
      rw [apply_of_forall_ne _ fun u hu huw => hmem ⟨u, hu, huw⟩, hv, update_self]

/-- Redo: the whole list, performed over a store that saw a prefix of it, gives what one
    uninterrupted pass gives. -/
theorem apply_take_redo (d : κ → α) (ws : List (κ × α)) (m : Nat) :
    apply (apply d (ws.take m)) ws = apply d ws := by
  funext k
  refine apply_congr fun h => apply_of_forall_ne d fun w hw => h w (List.mem_of_mem_take hw)

end Xv6.Writes
