import Mathlib.Data.List.Infix
import Mathlib.Logic.Function.Basic

/-! Radix trees in memory.

    ```
    root ─i─▶ node ─j─▶ node ─k─▶ entry
    ```

    The memory has the entries of every node, and `next` reads an entry as a pointer to a node. A path of
    indices leads from the root to a node. As long as different paths lead to different nodes, an entry
    can be changed without a change anywhere else in the tree. -/

namespace Xv6.Radix
open Function

variable {α ι β : Type} {next : β → Option α} {m : α → ι → β} {r a b f : α} {p q : List ι} {i j : ι} {e z : β} {d : Nat}

/-- The node at the end of a path. -/
def node (next : β → Option α) (m : α → ι → β) (r : α) (p : List ι) : Option α :=
  p.foldl (fun o i => o.bind fun a => next (m a i)) (some r)

@[simp] theorem node_concat : node next m r (p ++ [i]) = (node next m r p).bind fun a => next (m a i) := by
  simp [node]

/-- The entry at an index of the node at the end of a path. -/
def entry (next : β → Option α) (m : α → ι → β) (r : α) (p : List ι) (i : ι) : Option β :=
  (node next m r p).map (m · i)

/-- Different paths of length at most `d` lead to different nodes. -/
def Separate (next : β → Option α) (m : α → ι → β) (r : α) (d : Nat) : Prop :=
  ∀ p q a, p.length ≤ d → q.length ≤ d → node next m r p = some a → node next m r q = some a → p = q

/-- The node is not in the tree down to depth `d`. -/
def Outside (next : β → Option α) (m : α → ι → β) (r : α) (d : Nat) (f : α) : Prop :=
  ∀ p, p.length ≤ d → node next m r p ≠ some f

/-- Below an entry that is no pointer there is nothing. -/
theorem node_none_above (hp : node next m r p = none) (hpq : p <+: q) : node next m r q = none := by
  obtain ⟨l, rfl⟩ := hpq
  induction l using List.reverseRecOn with
  | nil => rwa [List.append_nil]
  | append_singleton l j ih => rw [← List.append_assoc, node_concat, ih, Option.bind_none]

/-- What a tree does not reach does not matter to it. -/
theorem node_congr {m' : α → ι → β}
    (h : ∀ p a i, p.length < d → node next m r p = some a → next (m' a i) = next (m a i)) (hq : q.length ≤ d) :
    node next m' r q = node next m r q := by
  induction q using List.reverseRecOn with
  | nil => rfl
  | append_singleton q j ih =>
    rw [List.length_append, List.length_singleton] at hq
    rw [node_concat, node_concat, ih (by omega)]
    cases hn : node next m r q with
    | none => rfl
    | some b => exact h q b j (by omega) hn

variable [DecidableEq α]

/-- A node outside the tree is overwritten. -/
theorem node_update (hf : Outside next m r d f) (x : ι → β) (hq : q.length ≤ d) :
    node next (update m f x) r q = node next m r q := by
  refine node_congr (fun p a i hp ha => ?_) hq
  have hne : a ≠ f := fun heq => hf p hp.le (heq ▸ ha)
  rw [update_of_ne hne]

theorem not_prefix_self : ¬ p ++ [i] <+: p := fun h => by
  have := h.length_le
  rw [List.length_append, List.length_singleton] at this
  omega

variable [DecidableEq ι]

/-- An entry is changed. -/
def set (m : α → ι → β) (a : α) (i : ι) (e : β) : α → ι → β := update m a (update (m a) i e)

theorem set_self : set m a i e a i = e := by simp [set]

theorem set_of_ne (h : b ≠ a ∨ j ≠ i) : set m a i e b j = m b j := by
  by_cases hb : b = a
  · subst hb
    simp [set, h.resolve_left (· rfl)]
  · simp [set, hb]

/-- Nothing changes but what is reached through the entry. -/
theorem node_set_other (h : Separate next m r d) (ha : node next m r p = some a) (hp : p.length ≤ d) (e : β)
    (hq : q.length ≤ d) (hne : ¬ p ++ [i] <+: q) : node next (set m a i e) r q = node next m r q := by
  induction q using List.reverseRecOn with
  | nil => rfl
  | append_singleton q j ih =>
    rw [List.length_append, List.length_singleton] at hq
    rw [node_concat, node_concat, ih (by omega) fun hpre => hne (hpre.trans (List.prefix_append _ _))]
    cases hb : node next m r q with
    | none => rfl
    | some b =>
      rw [Option.bind_some, Option.bind_some, set_of_ne]
      by_contra hc
      rw [not_or, not_ne_iff, not_ne_iff] at hc
      obtain ⟨rfl, rfl⟩ := hc
      exact hne (by rw [h p q _ hp (by omega) ha hb])

/-! ### A new entry at the bottom -/

section Leaf

variable (h : Separate next m r d) (ha : node next m r p = some a) (hp : p.length = d)

include h ha hp

theorem node_leaf (hq : q.length ≤ d) : node next (set m a i e) r q = node next m r q :=
  node_set_other h ha hp.le e hq fun hpre => by
    have := hpre.length_le
    simp at this
    omega

theorem Separate.leaf : Separate next (set m a i e) r d := by
  intro q q' b hq hq' hb hb'
  rw [node_leaf h ha hp hq] at hb
  rw [node_leaf h ha hp hq'] at hb'
  exact h q q' b hq hq' hb hb'

theorem entry_leaf (hq : q.length ≤ d) :
    entry next (set m a i e) r q j = if q = p ∧ j = i then some e else entry next m r q j := by
  unfold entry
  rw [node_leaf h ha hp hq]
  split
  · rename_i heq
    obtain ⟨rfl, rfl⟩ := heq
    rw [ha, Option.map_some, set_self]
  · rename_i hne
    cases hb : node next m r q with
    | none => rfl
    | some b =>
      rw [Option.map_some, Option.map_some, set_of_ne]
      by_contra hc
      rw [not_or, not_ne_iff, not_ne_iff] at hc
      obtain ⟨rfl, rfl⟩ := hc
      exact hne ⟨h q p _ hq hp.le hb ha, rfl⟩

end Leaf

/-! ### A new node -/

/-- The node `f` gets the entries `z`, and the entry `i` of `a` becomes a pointer to it. -/
def link (m : α → ι → β) (a : α) (i : ι) (e : β) (f : α) (z : β) : α → ι → β :=
  set (update m f fun _ => z) a i e

section Link

variable (h : Separate next m r d) (ha : node next m r p = some a) (hp : p.length < d) (hf : Outside next m r d f)
  (hnone : next (m a i) = none) (hz : next z = none) (he : next e = some f)

include h ha hp hf hnone hz he

theorem node_link (hq : q.length ≤ d) :
    node next (link m a i e f z) r q = if q = p ++ [i] then some f else node next m r q := by
  have hsep : Separate next (update m f fun _ => z) r d := fun q q' b hq hq' hb hb' => by
    rw [node_update hf _ hq] at hb
    rw [node_update hf _ hq'] at hb'
    exact h q q' b hq hq' hb hb'
  have ha' : node next (update m f fun _ => z) r p = some a := by rwa [node_update hf _ hp.le]
  have hself : node next (link m a i e f z) r (p ++ [i]) = some f := by
    rw [node_concat, link, node_set_other hsep ha' hp.le e hp.le not_prefix_self, ha', Option.bind_some, set_self, he]
  have hfa : f ≠ a := fun heq => hf p hp.le (heq ▸ ha)
  by_cases hpre : p ++ [i] <+: q
  · obtain ⟨l, rfl⟩ := hpre
    cases l with
    | nil => rw [List.append_nil, if_pos rfl, hself]
    | cons j l =>
      have hlong : ¬ p ++ [i] ++ j :: l = p ++ [i] := by simp
      have hold : node next m r (p ++ [i]) = none := by rw [node_concat, ha, Option.bind_some, hnone]
      rw [if_neg hlong, node_none_above hold (List.prefix_append _ _)]
      refine node_none_above (p := p ++ [i] ++ [j]) ?_ ⟨l, by simp⟩
      rw [node_concat, hself, Option.bind_some, link, set_of_ne (.inl hfa), update_self, hz]
  · have hne : q ≠ p ++ [i] := fun heq => hpre (heq ▸ List.prefix_refl _)
    rw [if_neg hne, link, node_set_other hsep ha' hp.le e hq hpre, node_update hf _ hq]

theorem Separate.link : Separate next (link m a i e f z) r d := by
  intro q q' b hq hq' hb hb'
  rw [node_link h ha hp hf hnone hz he hq] at hb
  rw [node_link h ha hp hf hnone hz he hq'] at hb'
  split at hb
  · split at hb'
    · rename_i heq heq'
      rw [heq, heq']
    · exact absurd (hb ▸ hb') (hf q' hq')
  · split at hb'
    · exact absurd (hb' ▸ hb) (hf q hq)
    · exact h q q' b hq hq' hb hb'

/-- The entries at the bottom are as before, but for those of the new node. -/
theorem entry_link (hq : q.length = d) :
    entry next (Radix.link m a i e f z) r q j = if q = p ++ [i] then some z else entry next m r q j := by
  have hfa : f ≠ a := fun heq => hf p hp.le (heq ▸ ha)
  unfold entry
  rw [node_link h ha hp hf hnone hz he hq.le]
  split
  · rw [Option.map_some, Radix.link, set_of_ne (.inl hfa), update_self]
  · cases hb : node next m r q with
    | none => rfl
    | some b =>
      have hba : b ≠ a := fun heq => by
        have := h q p _ hq.le hp.le hb (heq ▸ ha)
        rw [this] at hq
        omega
      have hbf : b ≠ f := fun heq => hf q hq.le (heq ▸ hb)
      rw [Option.map_some, Option.map_some, Radix.link, set_of_ne (.inl hba), update_of_ne hbf]

end Link

end Xv6.Radix
