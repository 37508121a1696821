import Mathlib.Algebra.BigOperators.Group.Finset.Basic
import Mathlib.Algebra.BigOperators.Group.Finset.Piecewise
import Mathlib.Algebra.Order.BigOperators.Group.Finset
import Mathlib.Algebra.GroupWithZero.Nat
import Mathlib.Data.List.Basic

/-! Sequences that several sources contribute to.

    ```
    (p, a) (q, b) (p, c) (q, d)        of p:  a c
                                       of q:  b d
    ```

    An item is tagged with its source. What holds of the weights of every source's items holds of
    the weight of the whole sequence. -/

namespace Xv6.Shuffle

variable {ι α : Type} [DecidableEq ι]

/-- The items of one source, in order. -/
def of (p : ι) (xs : List (ι × α)) : List α := (xs.filter (·.1 = p)).map (·.2)

variable {p q : ι} {a : α} {xs ys : List (ι × α)}

@[simp] theorem of_nil : of p ([] : List (ι × α)) = [] := rfl

theorem of_cons : of p ((q, a) :: xs) = if q = p then a :: of p xs else of p xs := by
  by_cases hq : q = p
  · simp [of, hq]
  · simp [of, hq]

@[simp] theorem of_append : of p (xs ++ ys) = of p xs ++ of p ys := by simp [of]

theorem of_snoc_self : of p (xs ++ [(p, a)]) = of p xs ++ [a] := by simp [of]

theorem of_snoc_of_ne (h : q ≠ p) : of p (xs ++ [(q, a)]) = of p xs := by simp [of, h]

/-! ### Weights -/

variable (w : α → Nat)

/-- The weight of a list of items. -/
def weight (as : List α) : Nat := (as.map w).sum

@[simp] theorem weight_nil : weight w [] = 0 := rfl

@[simp] theorem weight_append (as bs : List α) : weight w (as ++ bs) = weight w as + weight w bs := by
  simp [weight]

theorem weight_eq_sum {S : Finset ι} (hS : ∀ x ∈ xs, x.1 ∈ S) :
    weight w (xs.map (·.2)) = ∑ p ∈ S, weight w (of p xs) := by
  induction xs with
  | nil => simp
  | cons x xs ih =>
    obtain ⟨q, a⟩ := x
    have hq : q ∈ S := hS (q, a) List.mem_cons_self
    have hsplit : ∀ p, weight w (of p ((q, a) :: xs)) = (if q = p then w a else 0) + weight w (of p xs) := by
      intro p
      rw [of_cons]
      by_cases hp : q = p
      · simp [hp, weight]
      · simp [hp]
    simp only [hsplit, Finset.sum_add_distrib, ← ih fun x hx => hS x (List.mem_cons_of_mem _ hx)]
    simp [weight, hq]

/-- No source contributes less, and one contributes `k` more. -/
theorem weight_add_le {k : Nat} (hle : ∀ q, weight w (of q xs) ≤ weight w (of q ys))
    (hp : weight w (of p xs) + k ≤ weight w (of p ys)) :
    weight w (xs.map (·.2)) + k ≤ weight w (ys.map (·.2)) := by
  let S : Finset ι := insert p ((xs ++ ys).map (·.1)).toFinset
  have hxs : ∀ x ∈ xs, x.1 ∈ S := fun x hx => by
    simp only [S, Finset.mem_insert, List.mem_toFinset, List.mem_map]
    exact .inr ⟨x, List.mem_append_left _ hx, rfl⟩
  have hys : ∀ x ∈ ys, x.1 ∈ S := fun x hx => by
    simp only [S, Finset.mem_insert, List.mem_toFinset, List.mem_map]
    exact .inr ⟨x, List.mem_append_right _ hx, rfl⟩
  have hmem : p ∈ S := Finset.mem_insert_self _ _
  rw [weight_eq_sum w hxs, weight_eq_sum w hys, ← Finset.add_sum_erase S _ hmem,
    ← Finset.add_sum_erase S _ hmem]
  have hrest := Finset.sum_le_sum fun q (_ : q ∈ S.erase p) => hle q
  omega

end Xv6.Shuffle
