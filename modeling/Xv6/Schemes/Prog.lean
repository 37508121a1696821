import Mathlib.Logic.Basic

/-! Programs made of atomic operations.

    A program is a tree: it returns, panics, or performs an operation and goes on with the answer.

    ```
    op o k ──── answer r ────► k r ──── … ────► ret a
    ```

    A handler runs the operations on a state. A specification says of each operation which views of
    the state it needs and what view it leaves; `wp` extends it to programs. If every operation
    that its specification admits runs, and leads from a state that fits the view to one that fits
    the new view, then so does every program. -/

namespace Xv6

/-- Operations, and the types of their answers. -/
structure Sig where
  Op : Type
  Res : Op → Type

inductive Prog (S : Sig) (α : Type) : Type
  | ret (a : α)
  | panic (msg : String)
  | op (o : S.Op) (k : S.Res o → Prog S α)

namespace Prog

variable {S : Sig} {α β : Type}

def bind : Prog S α → (α → Prog S β) → Prog S β
  | ret a, f => f a
  | panic msg, _ => panic msg
  | op o k, f => op o fun r => (k r).bind f

instance : Monad (Prog S) where
  pure := ret
  bind := bind

/-- An operation on its own. -/
def call (o : S.Op) : Prog S (S.Res o) := op o ret

/-! ### Runs -/

variable {σ V : Type}

/-- What the operations do. -/
abbrev Handler (S : Sig) (σ : Type) : Type := (o : S.Op) → σ → Except String (S.Res o × σ)

def run (h : Handler S σ) : Prog S α → σ → Except String (α × σ)
  | ret a, s => .ok (a, s)
  | panic msg, _ => .error msg
  | op o k, s =>
    match h o s with
    | .ok r => (k r.1).run h r.2
    | .error msg => .error msg

/-! ### Specifications -/

/-- What an operation needs of a view, for a postcondition on its answer and the view it leaves. -/
abbrev Spec (S : Sig) (V : Type) : Type := (o : S.Op) → (S.Res o → V → Prop) → V → Prop

/-- From the view `v` the program panics with a message in `E` or returns with `Q`. -/
def wp (W : Spec S V) (E : String → Prop) : Prog S α → (α → V → Prop) → V → Prop
  | ret a, Q, v => Q a v
  | panic msg, _, _ => E msg
  | op o k, Q, v => W o (fun r => (k r).wp W E Q) v

variable {W : Spec S V} {E : String → Prop} {Q Q' : α → V → Prop} {v : V} {x : Prog S α}

@[simp] theorem wp_pure (a : α) : wp W E (pure a) Q v ↔ Q a v := Iff.rfl

@[simp] theorem wp_panic (msg : String) : wp W E (panic msg) Q v ↔ E msg := Iff.rfl

@[simp] theorem wp_call {o : S.Op} {Q : S.Res o → V → Prop} : wp W E (call o) Q v ↔ W o Q v := Iff.rfl

theorem wp_bind_eq (x : Prog S α) (f : α → Prog S β) (Q : β → V → Prop) :
    wp W E (x.bind f) Q = wp W E x fun a => wp W E (f a) Q := by
  induction x with
  | ret a => rfl
  | panic msg => rfl
  | op o k ih =>
    funext v
    exact congrArg (W o · v) (funext ih)

@[simp] theorem wp_bind {f : α → Prog S β} {Q : β → V → Prop} :
    wp W E (x >>= f) Q v ↔ wp W E x (fun a => wp W E (f a) Q) v := by
  rw [← wp_bind_eq x f Q]
  exact Iff.rfl

theorem wp_ite {c : Prop} [Decidable c] {y : Prog S α} (hx : c → wp W E x Q v) (hy : ¬ c → wp W E y Q v) :
    wp W E (if c then x else y) Q v := by
  by_cases hc : c
  · rw [if_pos hc]; exact hx hc
  · rw [if_neg hc]; exact hy hc

/-- A specification asks for no more when the postcondition is weaker. -/
def Spec.Mono (W : Spec S V) : Prop :=
  ∀ o (Q Q' : S.Res o → V → Prop) v, (∀ r v, Q r v → Q' r v) → W o Q v → W o Q' v

theorem wp.mono (hW : Spec.Mono W) (h : wp W E x Q v) (hQ : ∀ a v, Q a v → Q' a v) : wp W E x Q' v := by
  induction x generalizing v with
  | ret a => exact hQ _ _ h
  | panic msg => exact h
  | op o k ih => exact hW o _ _ v (fun r v' hr => ih r hr) h

/-- The operations run as they are specified, on states that fit the view. -/
def Sound (W : Spec S V) (h : Handler S σ) (Fits : V → σ → Prop) : Prop :=
  ∀ o (Q : S.Res o → V → Prop) v s, Fits v s → W o Q v →
    ∃ r t v', h o s = .ok (r, t) ∧ Fits v' t ∧ Q r v'

/-- And so do the programs. -/
theorem Sound.run {h : Handler S σ} {Fits : V → σ → Prop} (hs : Sound W h Fits) {s : σ} (hfit : Fits v s)
    (hwp : wp W E x Q v) :
    (∃ a t v', x.run h s = .ok (a, t) ∧ Fits v' t ∧ Q a v') ∨ ∃ msg, x.run h s = .error msg ∧ E msg := by
  induction x generalizing v s with
  | ret a => exact .inl ⟨a, s, v, rfl, hfit, hwp⟩
  | panic msg => exact .inr ⟨msg, rfl, hwp⟩
  | op o k ih =>
    obtain ⟨r, t, v', hr, hfit', hk⟩ := hs o _ v s hfit hwp
    have hrun : (op o k).run h s = (k r).run h t := by
      simp only [Prog.run, hr]
    rw [hrun]
    exact ih r hfit' hk

end Prog

end Xv6
