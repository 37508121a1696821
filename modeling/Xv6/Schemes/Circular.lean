import Mathlib.Data.List.Nodup
import Mathlib.Logic.Function.Basic

/-! Doubly linked lists through cells.

    ```
       ┌────────────── next ─────────────┐
       ▼                                 │
      head ──▶ a ──▶ b ──▶ … ──▶ z ──────┘
    ```

    A circular list starts and ends at its head. -/

namespace Xv6.Circular

variable {α : Type} {x y z e p h a : α} {l l₁ l₂ : List α}

/-- The two pointers of every cell. -/
structure Cells (α : Type) where
  next : α → α
  prev : α → α

/-- The pointers lead from `x` through `l` to `z`, and back. -/
def Linked (c : Cells α) : α → List α → α → Prop
  | x, [], z => c.next x = z ∧ c.prev z = x
  | x, y :: l, z => (c.next x = y ∧ c.prev y = x) ∧ Linked c y l z

variable {c c' : Cells α}

/-- Only the pointers between the cells of the list matter. -/
theorem Linked.congr (hc : Linked c x l z) (hnext : ∀ a ∈ x :: l, c'.next a = c.next a)
    (hprev : ∀ a ∈ l ++ [z], c'.prev a = c.prev a) : Linked c' x l z := by
  induction l generalizing x with
  | nil =>
    exact ⟨(hnext x List.mem_cons_self).trans hc.1, (hprev z List.mem_cons_self).trans hc.2⟩
  | cons y l ih =>
    obtain ⟨⟨h₁, h₂⟩, hl⟩ := hc
    refine ⟨⟨(hnext x List.mem_cons_self).trans h₁, (hprev y List.mem_cons_self).trans h₂⟩, ih hl ?_ ?_⟩
    · exact fun a ha => hnext a (List.mem_cons_of_mem _ ha)
    · exact fun a ha => hprev a (List.mem_cons_of_mem _ ha)

theorem Linked.next_mem (hc : Linked c x (l₁ ++ e :: l₂) z) : c.next e ∈ l₂ ++ [z] := by
  induction l₁ generalizing x with
  | nil =>
    cases l₂ with
    | nil => exact hc.2.1 ▸ List.mem_cons_self
    | cons y l => exact hc.2.1.1 ▸ List.mem_cons_self
  | cons a l₁ ih => exact ih hc.2

theorem Linked.prev_mem (hc : Linked c x (l₁ ++ e :: l₂) z) : c.prev e ∈ x :: l₁ := by
  induction l₁ generalizing x with
  | nil => exact hc.1.2 ▸ List.mem_cons_self
  | cons a l₁ ih => exact List.mem_cons_of_mem _ (ih hc.2)

/-- A circular list is empty when its head points to itself. -/
theorem Linked.next_head (hc : Linked c h l h) (hh : h ∉ l) : c.next h = h ↔ l = [] := by
  cases l with
  | nil => exact ⟨fun _ => rfl, fun _ => hc.1⟩
  | cons y l => exact ⟨fun heq => absurd (heq ▸ hc.1.1 ▸ List.mem_cons_self) hh, fun heq => by cases heq⟩

/-- The pointers determine the list. -/
theorem Linked.unique (hc : Linked c x l h) (hc' : Linked c x l₁ h) (hh : h ∉ l) (hh₁ : h ∉ l₁) : l = l₁ := by
  induction l generalizing x l₁ with
  | nil =>
    cases l₁ with
    | nil => rfl
    | cons y l₁ => exact absurd (hc.1.symm.trans hc'.1.1 ▸ List.mem_cons_self) hh₁
  | cons y l ih =>
    cases l₁ with
    | nil => exact absurd (hc'.1.symm.trans hc.1.1 ▸ List.mem_cons_self) hh
    | cons y₁ l₁ =>
      obtain rfl : y = y₁ := hc.1.1.symm.trans hc'.1.1
      rw [ih hc.2 hc'.2 (fun hin => hh (List.mem_cons_of_mem _ hin)) fun hin => hh₁ (List.mem_cons_of_mem _ hin)]

variable [DecidableEq α]

/-! ### Removal -/

/-- `e` is taken out of the list it is on. -/
def Cells.remove (c : Cells α) (e : α) : Cells α :=
  let c := { c with next := Function.update c.next (c.prev e) (c.next e) }
  { c with prev := Function.update c.prev (c.next e) (c.prev e) }

theorem Cells.remove_next (ha : a ≠ c.prev e) : (c.remove e).next a = c.next a := Function.update_of_ne ha _ _

theorem Cells.remove_next_prev : (c.remove e).next (c.prev e) = c.next e := Function.update_self _ _ _

/-- The first assignment does not change the cell of `e`. -/
theorem Cells.removed_next : Function.update c.next (c.prev e) (c.next e) e = c.next e := by
  by_cases heq : e = c.prev e
  · rw [← heq, Function.update_self]
  · rw [Function.update_of_ne heq]

theorem Cells.remove_prev (ha : a ≠ c.next e) : (c.remove e).prev a = c.prev a := by
  show Function.update c.prev (Function.update c.next (c.prev e) (c.next e) e) (c.prev e) a = _
  rw [removed_next, Function.update_of_ne ha]

theorem Cells.remove_prev_next : (c.remove e).prev (c.next e) = c.prev e := by
  show Function.update c.prev (Function.update c.next (c.prev e) (c.next e) e) (c.prev e) (c.next e) = _
  rw [removed_next, Function.update_self]

theorem Linked.remove (hc : Linked c x (l₁ ++ e :: l₂) z) (hx : (x :: (l₁ ++ e :: l₂)).Nodup)
    (hz : (l₁ ++ e :: l₂ ++ [z]).Nodup) : Linked (c.remove e) x (l₁ ++ l₂) z := by
  induction l₁ generalizing x with
  | nil =>
    obtain ⟨⟨-, rfl⟩, hl⟩ := hc
    cases l₂ with
    | nil =>
      obtain ⟨rfl, -⟩ := hl
      exact ⟨Cells.remove_next_prev, Cells.remove_prev_next⟩
    | cons y l =>
      obtain ⟨⟨rfl, -⟩, hl⟩ := hl
      refine ⟨⟨Cells.remove_next_prev, Cells.remove_prev_next⟩, hl.congr (fun a ha => ?_) fun a ha => ?_⟩
      · refine Cells.remove_next fun heq => ?_
        exact (List.nodup_cons.mp hx).1 (List.mem_cons_of_mem _ (heq ▸ ha))
      · refine Cells.remove_prev fun heq => ?_
        exact (List.nodup_cons.mp (List.nodup_cons.mp hz).2).1 (heq ▸ ha)
  | cons a l₁ ih =>
    have hpre := Linked.prev_mem hc.2
    have hnext := Linked.next_mem hc.2
    obtain ⟨⟨hnx, hback⟩, hl⟩ := hc
    refine ⟨⟨(Cells.remove_next fun heq => ?_).trans hnx, (Cells.remove_prev fun heq => ?_).trans hback⟩,
      ih hl (List.nodup_cons.mp hx).2 (List.nodup_cons.mp hz).2⟩
    · exact (List.nodup_cons.mp hx).1 (heq ▸ List.mem_append_left (e :: l₂) hpre)
    · have hmem : a ∈ l₁ ++ e :: l₂ ++ [z] := by
        rw [heq, List.append_assoc, List.cons_append]
        exact List.mem_append_right _ (List.mem_cons_of_mem _ hnext)
      exact (List.nodup_cons.mp hz).1 hmem

/-! ### Insertion -/

/-- `p` becomes the first cell of the list with head `h`. -/
def Cells.push (c : Cells α) (h p : α) : Cells α :=
  let c := { c with next := Function.update c.next p (c.next h) }
  let c := { c with prev := Function.update c.prev p h }
  let c := { c with prev := Function.update c.prev (c.next h) p }
  { c with next := Function.update c.next h p }

theorem Cells.push_next (hp : a ≠ p) (hh : a ≠ h) : (c.push h p).next a = c.next a := by
  simp [push, hp, hh]

theorem Cells.push_prev (hh : h ≠ p) (hp : a ≠ p) (hn : a ≠ c.next h) : (c.push h p).prev a = c.prev a := by
  simp [push, hh, hp, hn]

theorem Linked.push (hc : Linked c h l z) (hh : h ∉ l) (hl : (l ++ [z]).Nodup) (hp : p ∉ h :: l) (hpz : p ≠ z) :
    Linked (c.push h p) h (p :: l) z := by
  obtain ⟨hph, hpl⟩ : p ≠ h ∧ p ∉ l := by simpa using hp
  have hback : (c.push h p).prev (c.next h) = p := by simp [Cells.push, hph.symm]
  have hhead : (c.push h p).next h = p := by simp [Cells.push]
  have hnext : (c.push h p).next p = c.next h := by simp [Cells.push, hph]
  have hprev : p ≠ c.next h → (c.push h p).prev p = h := fun hne => by simp [Cells.push, hph.symm, hne]
  cases l with
  | nil =>
    obtain ⟨rfl, -⟩ := hc
    exact ⟨⟨hhead, hprev hpz⟩, hnext, hback⟩
  | cons y l =>
    obtain ⟨⟨rfl, -⟩, hc⟩ := hc
    refine ⟨⟨hhead, hprev fun heq => hpl (heq ▸ List.mem_cons_self)⟩, ⟨hnext, hback⟩,
      hc.congr (fun a ha => ?_) fun a ha => ?_⟩
    · exact Cells.push_next (fun heq => hpl (heq ▸ ha)) fun heq => hh (heq ▸ ha)
    · refine Cells.push_prev hph.symm (fun heq => ?_) fun heq => (List.nodup_cons.mp hl).1 (heq ▸ ha)
      rcases List.mem_append.mp ha with ha | ha
      · exact hpl (heq ▸ List.mem_cons_of_mem _ ha)
      · exact hpz (heq ▸ List.mem_singleton.mp ha)

/-! ### Several lists -/

/-- The first `n` of the heads have circular lists, and no cell is on two of them. -/
structure Lists (c : Cells α) (n : Nat) (head : Nat → α) (L : Nat → List α) : Prop where
  linked : ∀ k, k < n → Linked c (head k) (L k) (head k)
  nodup : ∀ k, k < n → (head k :: L k).Nodup
  apart : ∀ k k', k < n → k' < n → k ≠ k' → (head k :: L k).Disjoint (head k' :: L k')

namespace Lists

variable {n k : Nat} {head : Nat → α} {L : Nat → List α}

omit [DecidableEq α] in
theorem nodup_end (hl : (h :: l).Nodup) : (l ++ [h]).Nodup := by
  rw [List.nodup_cons] at hl
  rw [List.nodup_append]
  refine ⟨hl.2, List.nodup_singleton h, fun a ha b hb => ?_⟩
  rw [List.mem_singleton.mp hb]
  exact fun heq => hl.1 (heq ▸ ha)

omit [DecidableEq α] in
/-- Cells of no list may change. -/
theorem congr (h : Lists c n head L) (hc : ∀ k, k < n → ∀ a ∈ head k :: L k, c'.next a = c.next a ∧ c'.prev a = c.prev a) :
    Lists c' n head L := by
  refine ⟨fun k hk => (h.linked k hk).congr (fun a ha => (hc k hk a ha).1) fun a ha => (hc k hk a ?_).2, h.nodup, h.apart⟩
  rwa [List.mem_append, List.mem_singleton, or_comm, ← List.mem_cons] at ha

omit [DecidableEq α] in
theorem next_head (h : Lists c n head L) (hk : k < n) : c.next (head k) = head k ↔ L k = [] :=
  (h.linked k hk).next_head (List.nodup_cons.mp (h.nodup k hk)).1

omit [DecidableEq α] in
/-- One list changes, and the cells of the others do not. -/
theorem update (h : Lists c n head L) (hk : k < n) (hl : Linked c' (head k) l (head k)) (hnodup : (head k :: l).Nodup)
    (hother : ∀ k', k' < n → k' ≠ k → ∀ a ∈ head k' :: L k', a ∉ l ∧ c'.next a = c.next a ∧ c'.prev a = c.prev a) :
    Lists c' n head (Function.update L k l) := by
  have hne : ∀ k', k' < n → k' ≠ k → (head k' :: L k').Disjoint (head k :: l) := fun k' hk' hkk a ha hal => by
    rcases List.mem_cons.mp hal with rfl | hal
    · exact h.apart k' k hk' hk hkk ha List.mem_cons_self
    · exact (hother k' hk' hkk a ha).1 hal
  refine ⟨fun k' hk' => ?_, fun k' hk' => ?_, fun k₁ k₂ hk₁ hk₂ hkk => ?_⟩
  · by_cases hkk : k' = k
    · subst hkk
      rwa [Function.update_self]
    · rw [Function.update_of_ne hkk]
      refine (h.linked k' hk').congr (fun a ha => (hother k' hk' hkk a ha).2.1) fun a ha => (hother k' hk' hkk a ?_).2.2
      rwa [List.mem_append, List.mem_singleton, or_comm, ← List.mem_cons] at ha
  · by_cases hkk : k' = k
    · subst hkk
      rwa [Function.update_self]
    · rw [Function.update_of_ne hkk]
      exact h.nodup k' hk'
  · by_cases h₁ : k₁ = k
    · subst h₁
      rw [Function.update_self, Function.update_of_ne hkk.symm]
      exact fun a ha ha' => hne k₂ hk₂ hkk.symm ha' ha
    · rw [Function.update_of_ne h₁]
      by_cases h₂ : k₂ = k
      · subst h₂
        rw [Function.update_self]
        exact hne k₁ hk₁ h₁
      · rw [Function.update_of_ne h₂]
        exact h.apart k₁ k₂ hk₁ hk₂ hkk

theorem remove (h : Lists c n head L) (hk : k < n) (he : e ∈ L k) :
    Lists (c.remove e) n head (Function.update L k ((L k).erase e)) := by
  obtain ⟨l₁, l₂, hl⟩ := List.append_of_mem he
  have hlinked := hl ▸ h.linked k hk
  have hnodup := h.nodup k hk
  have herase : (L k).erase e = l₁ ++ l₂ := by
    have hnot : e ∉ l₁ := fun hin => by
      rw [hl, List.nodup_cons, List.nodup_append] at hnodup
      exact hnodup.2.2.2 e hin e List.mem_cons_self rfl
    rw [hl, List.erase_append_right _ hnot, List.erase_cons_head]
  have hsub : (l₁ ++ l₂).Sublist (L k) := by
    rw [hl]
    exact List.Sublist.append_left (List.sublist_cons_self e l₂) l₁
  rw [herase]
  refine h.update hk (hlinked.remove (hl ▸ hnodup) (hl ▸ nodup_end hnodup)) (hnodup.sublist (hsub.cons_cons _))
    fun k' hk' hkk a ha => ?_
  have hdis : ∀ b, b ∈ head k :: L k → a ≠ b := fun b hb heq => h.apart k' k hk' hk hkk ha (heq ▸ hb)
  have hprev : c.prev e ∈ head k :: L k := by
    rcases List.mem_cons.mp hlinked.prev_mem with hp | hp
    · exact hp ▸ List.mem_cons_self
    · exact List.mem_cons_of_mem _ (hl ▸ List.mem_append_left _ hp)
  have hnext : c.next e ∈ head k :: L k := by
    rcases List.mem_append.mp hlinked.next_mem with hn | hn
    · exact List.mem_cons_of_mem _ (hl ▸ List.mem_append_right _ (List.mem_cons_of_mem _ hn))
    · exact List.mem_singleton.mp hn ▸ List.mem_cons_self
  exact ⟨fun hin => hdis a (List.mem_cons_of_mem _ (hsub.subset hin)) rfl, Cells.remove_next (hdis _ hprev),
    Cells.remove_prev (hdis _ hnext)⟩

theorem push (h : Lists c n head L) (hk : k < n) (hp : ∀ k', k' < n → p ∉ head k' :: L k') :
    Lists (c.push (head k) p) n head (Function.update L k (p :: L k)) := by
  have hlinked := h.linked k hk
  have hnodup := h.nodup k hk
  obtain ⟨hph, hpl⟩ : p ≠ head k ∧ p ∉ L k := by simpa using hp k hk
  have hnext : c.next (head k) ∈ head k :: L k := by
    cases hl : L k with
    | nil =>
      rw [hl] at hlinked
      rw [hlinked.1]
      exact List.mem_cons_self
    | cons y l =>
      rw [hl] at hlinked
      rw [hlinked.1.1]
      exact List.mem_cons_of_mem _ List.mem_cons_self
  refine h.update hk (hlinked.push (List.nodup_cons.mp hnodup).1 (nodup_end hnodup) (hp k hk) hph) ?_
    fun k' hk' hkk a ha => ?_
  · rw [List.nodup_cons] at hnodup ⊢
    exact ⟨by simpa using ⟨hph.symm, hnodup.1⟩, List.nodup_cons.mpr ⟨hpl, hnodup.2⟩⟩
  · have hdis : ∀ b, b ∈ head k :: L k → a ≠ b := fun b hb heq => h.apart k' k hk' hk hkk ha (heq ▸ hb)
    have hap : a ≠ p := fun heq => hp k' hk' (heq ▸ ha)
    refine ⟨fun hin => ?_, Cells.push_next hap (hdis _ List.mem_cons_self), Cells.push_prev hph.symm hap (hdis _ hnext)⟩
    rcases List.mem_cons.mp hin with rfl | hin
    · exact hap rfl
    · exact hdis a (List.mem_cons_of_mem _ hin) rfl

end Lists

end Xv6.Circular
