import Mathlib.Algebra.GroupWithZero.Nat
import Mathlib.Data.List.Basic

/-! Guarded transition systems and their runs.

    An action has a guard, which says when it may happen, and an effect. A run performs a list of
    actions one after another; a discipline restricts which actions its environment takes in which
    states. A property that holds at the start and is kept by every disciplined step holds at the
    end of every disciplined run. -/

namespace Xv6

/-- Runs with one and with two processes name them by numerals. -/
instance neZero_one : NeZero 1 := ⟨Nat.one_ne_zero⟩
instance neZero_two : NeZero 2 := ⟨by decide⟩

/-- Actions `α` over states `σ`. -/
structure System (σ α : Type) where
  guard : σ → α → Prop
  next : σ → α → σ

namespace System

variable {σ α : Type} (M : System σ α)

/-- `M.Run ok s as t`: the actions `as`, each enabled and allowed by the discipline `ok` when its
    turn comes, lead from `s` to `t`. -/
inductive Run (ok : σ → α → Prop) : σ → List α → σ → Prop
  | nil (s : σ) : Run ok s [] s
  | snoc {s t : σ} {as : List α} {a : α} (h : Run ok s as t) (hg : M.guard t a) (hok : ok t a) :
      Run ok s (as ++ [a]) (M.next t a)

variable {M} {ok : σ → α → Prop} {s t : σ} {as : List α}

/-- The invariant rule. -/
theorem Run.invariant {I : σ → Prop}
    (hstep : ∀ s a, I s → M.guard s a → ok s a → I (M.next s a))
    (hrun : M.Run ok s as t) (h0 : I s) : I t := by
  induction hrun with
  | nil => exact h0
  | snoc _ hg hok ih => exact hstep _ _ ih hg hok

/-- A run under a stricter discipline is a run under a looser one. -/
theorem Run.mono {ok' : σ → α → Prop} (himp : ∀ s a, ok s a → ok' s a) (hrun : M.Run ok s as t) :
    M.Run ok' s as t := by
  induction hrun with
  | nil => exact .nil _
  | snoc _ hg hok ih => exact .snoc ih hg (himp _ _ hok)

/-- Perform a list of actions, where the guards and the discipline can be decided. -/
def exec (M : System σ α) (ok : σ → α → Prop) [∀ s a, Decidable (M.guard s a)]
    [∀ s a, Decidable (ok s a)] (s : σ) : List α → Option σ
  | [] => some s
  | a :: as => if M.guard s a ∧ ok s a then exec M ok (M.next s a) as else none

theorem Run.cons {a : α} (hg : M.guard s a) (hok : ok s a) (hrun : M.Run ok (M.next s a) as t) :
    M.Run ok s (a :: as) t := by
  induction hrun with
  | nil => exact .snoc (.nil s) hg hok
  | snoc _ hg' hok' ih => exact .snoc ih hg' hok'

theorem run_of_exec [∀ s a, Decidable (M.guard s a)] [∀ s a, Decidable (ok s a)] :
    ∀ {as : List α} {s t : σ}, M.exec ok s as = some t → M.Run ok s as t
  | [], s, t, h => by
    rw [exec, Option.some.injEq] at h
    exact h ▸ .nil s
  | a :: as, s, t, h => by
    rw [exec] at h
    split at h
    · rename_i hga
      exact Run.cons hga.1 hga.2 (run_of_exec h)
    · simp at h

/-- The system of a partial step function. -/
def ofStep (f : σ → α → Option σ) : System σ α where
  guard s a := (f s a).isSome = true
  next s a := (f s a).getD s

instance (f : σ → α → Option σ) (s : σ) (a : α) : Decidable ((ofStep f).guard s a) :=
  inferInstanceAs (Decidable ((f s a).isSome = true))

/-- The invariant rule for a step function. -/
theorem Run.step_invariant {f : σ → α → Option σ} {I : σ → Prop}
    (hstep : ∀ s a t, I s → ok s a → f s a = some t → I t) (hrun : (ofStep f).Run ok s as t)
    (h0 : I s) : I t := by
  refine hrun.invariant (fun s a hs hg hok => ?_) h0
  obtain ⟨t, ht⟩ := Option.isSome_iff_exists.mp hg
  have hnext : (ofStep f).next s a = t := by simp [ofStep, ht]
  exact hnext ▸ hstep s a t hs hok ht

theorem run_exec (M : System σ α) (ok : σ → α → Prop) [∀ s a, Decidable (M.guard s a)]
    [∀ s a, Decidable (ok s a)] (s : σ) (as : List α) (h : (M.exec ok s as).isSome = true) :
    M.Run ok s as ((M.exec ok s as).get h) :=
  run_of_exec (Option.some_get h).symm

end System

end Xv6
