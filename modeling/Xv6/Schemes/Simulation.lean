import Xv6.Schemes.Hoare
import Xv6.Schemes.Prog

/-! A program made of atomic operations is followed by one on another state.

    ```
    s ──── x.run ────► a, s'
    │ R                │ Q  │ R
    t ───── y ───────► b, t'
    ```

    Where `x` returns, `y` returns. -/

namespace Xv6.Prog

variable {S : Sig} {σ τ ε α β γ δ : Type} {h : Handler S σ} {R : τ → σ → Prop}

theorem of_run_bind {x : Prog S α} {f : α → Prog S β} {s : σ} {r : β × σ} (hrun : (x >>= f).run h s = .ok r) :
    ∃ a s', x.run h s = .ok (a, s') ∧ (f a).run h s' = .ok r := by
  induction x generalizing s with
  | ret a => exact ⟨a, s, rfl, hrun⟩
  | panic msg => cases hrun
  | op o k ih =>
    have hrun : (op o fun q => (k q).bind f).run h s = .ok r := hrun
    rw [Prog.run] at hrun
    cases ho : h o s with
    | error msg =>
      rw [ho] at hrun
      cases hrun
    | ok q =>
      rw [ho] at hrun
      obtain ⟨a, s', hk, hf⟩ := ih q.1 hrun
      exact ⟨a, s', by rw [Prog.run, ho]; exact hk, hf⟩

def Follows (h : Handler S σ) (R : τ → σ → Prop) (x : Prog S α) (y : StateT τ (Except ε) β) (Q : α → β → Prop) : Prop :=
  ∀ s t a s', R t s → x.run h s = .ok (a, s') → ∃ b t', y t = .ok (b, t') ∧ R t' s' ∧ Q a b

namespace Follows

variable {x x' : Prog S α} {y y' : StateT τ (Except ε) β} {Q Q' : α → β → Prop}

theorem pure {a : α} {b : β} (hQ : Q a b) : Follows h R (Pure.pure a) (Pure.pure b : StateT τ (Except ε) β) Q := by
  intro s t a' s' hR hrun
  cases hrun
  exact ⟨b, t, rfl, hR, hQ⟩

theorem call {o : S.Op} {Q : S.Res o → β → Prop}
    (ho : ∀ s t r s', R t s → h o s = .ok (r, s') → ∃ b t', y t = .ok (b, t') ∧ R t' s' ∧ Q r b) :
    Follows h R (call o) y Q := by
  intro s t r s' hR hrun
  refine ho s t r s' hR ?_
  rw [Prog.call, Prog.run] at hrun
  cases hos : h o s with
  | error msg =>
    rw [hos] at hrun
    cases hrun
  | ok q =>
    rw [hos] at hrun
    exact hrun

theorem panic {msg : String} : Follows h R (.panic msg) y Q := nofun

theorem bind {Q' : γ → δ → Prop} {f : α → Prog S γ} {g : β → StateT τ (Except ε) δ} (hx : Follows h R x y Q)
    (hf : ∀ a b, Q a b → Follows h R (f a) (g b) Q') : Follows h R (x >>= f) (y >>= g) Q' := by
  intro s t c s' hR hrun
  obtain ⟨a, u, hxrun, hfrun⟩ := of_run_bind hrun
  obtain ⟨b, t', hy, hR', hQ⟩ := hx s t a u hR hxrun
  rw [Hoare.bind_ok hy]
  exact hf a b hQ u t' c s' hR' hfrun

theorem ite {c c' : Prop} [Decidable c] [Decidable c'] (hc : c ↔ c') (hx : c → Follows h R x y Q)
    (hx' : ¬ c → Follows h R x' y' Q) : Follows h R (if c then x else x') (if c' then y else y') Q := by
  by_cases hc₀ : c
  · rw [if_pos hc₀, if_pos (hc.mp hc₀)]
    exact hx hc₀
  · rw [if_neg hc₀, if_neg (mt hc.mpr hc₀)]
    exact hx' hc₀

theorem mono (hx : Follows h R x y Q) (hQ : ∀ a b, Q a b → Q' a b) : Follows h R x y Q' := by
  intro s t a s' hR hrun
  obtain ⟨b, t', hy, hR', hb⟩ := hx s t a s' hR hrun
  exact ⟨b, t', hy, hR', hQ a b hb⟩

end Follows

end Xv6.Prog
