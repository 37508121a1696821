import Mathlib.Data.List.Range

/-! Postconditions of stateful programs that may stop.

    A program runs on a state and returns, or stops with an error. `wp E m Q s`: run from `s` it
    returns with `Q`, or stops with an error in `E`. Straight-line code is executed by the simp set;
    the loops are lists of iterations and have invariants: `scan` leaves its list at the first
    iteration that has a result, `forM` runs through it. -/

namespace Xv6

/-- Run `f` on the elements of a list up to the first one that has a result. -/
def scan {m : Type → Type} [Monad m] {ι β : Type} (f : ι → m (Option β)) : List ι → m (Option β)
  | [] => pure none
  | x :: xs => do
    match ← f x with
    | some b => pure (some b)
    | none => scan f xs

namespace Hoare

variable {σ ε α β ι : Type} {E : ε → Prop} {m : StateT σ (Except ε) α} {Q Q' : α → σ → Prop} {s : σ}

def wp (E : ε → Prop) (m : StateT σ (Except ε) α) (Q : α → σ → Prop) (s : σ) : Prop :=
  match m s with
  | .ok r => Q r.1 r.2
  | .error e => E e

theorem wp.mono (h : wp E m Q s) (hQ : ∀ a t, Q a t → Q' a t) : wp E m Q' s := by
  unfold wp at h ⊢
  cases hm : m s with
  | ok r => rw [hm] at h; exact hQ _ _ h
  | error e => rw [hm] at h; exact h

/-- Two specifications of one program hold together. -/
theorem wp.and {E' : ε → Prop} (h : wp E m Q s) (h' : wp E' m Q' s) :
    wp E m (fun a t => Q a t ∧ Q' a t) s := by
  unfold wp at h h' ⊢
  cases hm : m s with
  | ok r => rw [hm] at h h'; exact ⟨h, h'⟩
  | error e => rw [hm] at h; exact h

/-- A program that does not stop returns. -/
theorem wp.returns (h : wp (fun _ => False) m Q s) : ∃ a t, m s = .ok (a, t) ∧ Q a t := by
  unfold wp at h
  cases hm : m s with
  | ok r => rw [hm] at h; exact ⟨r.1, r.2, rfl, h⟩
  | error e => rw [hm] at h; exact h.elim

theorem wp_of_eq {a : α} {t : σ} (h : m s = .ok (a, t)) (hQ : Q a t) : wp E m Q s := by
  unfold wp
  rw [h]
  exact hQ

theorem bind_ok {f : α → StateT σ (Except ε) β} {a : α} {t : σ} (h : m s = .ok (a, t)) : (m >>= f) s = f a t := by
  show Except.bind (m s) (fun x => f x.1 x.2) = f a t
  rw [h]
  rfl

/-- A sequence returns only if both parts do. -/
theorem of_bind_ok {f : α → StateT σ (Except ε) β} {x : β × σ} (h : (m >>= f) s = .ok x) :
    ∃ a t, m s = .ok (a, t) ∧ f a t = .ok x := by
  have hrun : Except.bind (m s) (fun y => f y.1 y.2) = .ok x := h
  cases hm : m s with
  | error e =>
    rw [hm] at hrun
    cases hrun
  | ok y =>
    rw [hm] at hrun
    exact ⟨y.1, y.2, rfl, hrun⟩

/-- `m'` returns what `m` returns, as a loop with more fuel does. -/
def Extends (m m' : StateT σ (Except ε) α) : Prop := ∀ s x, m s = .ok x → m' s = .ok x

theorem Extends.refl (m : StateT σ (Except ε) α) : Extends m m := fun _ _ h => h

theorem Extends.bind {m' : StateT σ (Except ε) α} {f f' : α → StateT σ (Except ε) β} (h : Extends m m')
    (hf : ∀ a, Extends (f a) (f' a)) : Extends (m >>= f) (m' >>= f') := fun s x hx => by
  obtain ⟨a, t, hm, hrun⟩ := of_bind_ok hx
  rw [bind_ok (h s (a, t) hm)]
  exact hf a t x hrun

theorem Extends.ite {c : Prop} [Decidable c] {m₁ m₁' m₂ m₂' : StateT σ (Except ε) α} (h₁ : Extends m₁ m₁')
    (h₂ : Extends m₂ m₂') : Extends (if c then m₁ else m₂) (if c then m₁' else m₂') := by
  split
  · exact h₁
  · exact h₂

/-- Fuel does not matter to a result. -/
theorem Extends.of_le {m : Nat → StateT σ (Except ε) α} (h : ∀ n, Extends (m n) (m (n + 1))) {n n' : Nat} (hn : n ≤ n') :
    Extends (m n) (m n') := by
  induction hn with
  | refl => exact .refl _
  | step _ ih => exact fun s x hx => h _ s x (ih s x hx)

@[simp] theorem wp_pure (a : α) : wp E (pure a) Q s ↔ Q a s := Iff.rfl

@[simp] theorem wp_get {Q : σ → σ → Prop} : wp E get Q s ↔ Q s s := Iff.rfl

@[simp] theorem wp_modify {f : σ → σ} {Q : PUnit → σ → Prop} :
    wp E (modify f) Q s ↔ Q ⟨⟩ (f s) := Iff.rfl

@[simp] theorem wp_bind {Q : β → σ → Prop} {f : α → StateT σ (Except ε) β} :
    wp E (m >>= f) Q s ↔ wp E m (fun a => wp E (f a) Q) s := by
  have hrun : (m >>= f) s = Except.bind (m s) fun r => f r.1 r.2 := rfl
  unfold wp
  rw [hrun]
  cases m s <;> exact Iff.rfl

/-- A program and what comes after it. -/
theorem wp.seq {Q' : β → σ → Prop} {f : α → StateT σ (Except ε) β} (h : wp E m Q s)
    (hf : ∀ a t, Q a t → wp E (f a) Q' t) : wp E (m >>= f) Q' s :=
  wp_bind.mpr (h.mono hf)

theorem wp_ite {c : Prop} [Decidable c] {n : StateT σ (Except ε) α} (hm : c → wp E m Q s)
    (hn : ¬ c → wp E n Q s) : wp E (if c then m else n) Q s := by
  by_cases hc : c
  · rw [if_pos hc]; exact hm hc
  · rw [if_neg hc]; exact hn hc

/-- A search with an invariant that the iterations without a result keep. -/
theorem wp_scan {f : ι → StateT σ (Except ε) (Option β)} {Q : β → σ → Prop} {I : σ → Prop}
    (xs : List ι) (h : ∀ x ∈ xs, ∀ s, I s → wp E (f x) (fun r t => r.elim (I t) (Q · t)) s)
    (hs : I s) : wp E (scan f xs) (fun r t => r.elim (I t) (Q · t)) s := by
  induction xs generalizing s with
  | nil => exact hs
  | cons x xs ih =>
    refine wp_bind.mpr ((h x List.mem_cons_self s hs).mono fun r t ht => ?_)
    cases r with
    | some b => exact ht
    | none => exact ih (fun y hy => h y (List.mem_cons_of_mem x hy)) ht

/-- A search whose iterations without a result change nothing: without a result at all, every
    iteration was tried in vain. -/
theorem wp_scan_all {f : ι → StateT σ (Except ε) (Option β)} {Q : β → σ → Prop} {B : ι → Prop}
    (xs : List ι) (h : ∀ x ∈ xs, wp E (f x) (fun r t => r.elim (t = s ∧ B x) (Q · t)) s) :
    wp E (scan f xs) (fun r t => r.elim (t = s ∧ ∀ x ∈ xs, B x) (Q · t)) s := by
  induction xs with
  | nil => exact ⟨rfl, nofun⟩
  | cons x xs ih =>
    refine wp_bind.mpr ((h x List.mem_cons_self).mono fun r t ht => ?_)
    cases r with
    | some b => exact ht
    | none =>
      obtain ⟨rfl, hx⟩ := ht
      refine (ih fun y hy => h y (List.mem_cons_of_mem x hy)).mono fun r u hu => ?_
      cases r with
      | some b => exact hu
      | none => exact ⟨hu.1, List.forall_mem_cons.mpr ⟨hx, hu.2⟩⟩

/-- A loop with an invariant that knows which iterations are left. -/
theorem wp_forM {f : ι → StateT σ (Except ε) PUnit} {I : List ι → σ → Prop} (xs : List ι)
    (h : ∀ x ys s, I (x :: ys) s → wp E (f x) (fun _ => I ys) s) (hs : I xs s) :
    wp E (xs.forM f) (fun _ => I []) s := by
  induction xs generalizing s with
  | nil => exact hs
  | cons x xs ih => exact wp_bind.mpr ((h x xs s hs).mono fun _ t ht => ih ht)

end Hoare

end Xv6
