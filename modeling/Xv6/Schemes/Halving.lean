import Mathlib.Algebra.Order.Ring.Nat

/-! Memory divided by halving.

    ```
    level 2   |               0               |      inner
    level 1   |       0       |       1       |      inner, leaf
    level 0   |   0   |   1   |                      leaves
    ```

    Block `i` of level `k` has `2 ^ k` units and starts at unit `i * 2 ^ k`. A block that is divided is
    an inner one; the leaves are used or free, and two halves of one block are never both free. -/

namespace Xv6.Halving

/-- The other half of the block above. -/
def buddy (i : Nat) : Nat := if i % 2 = 0 then i + 1 else i - 1

theorem buddy_div (i : Nat) : buddy i / 2 = i / 2 := by
  unfold buddy
  split <;> omega

theorem buddy_ne (i : Nat) : buddy i ≠ i := by
  unfold buddy
  split <;> omega

theorem eq_or_buddy {i j : Nat} (h : j / 2 = i / 2) : j = i ∨ j = buddy i := by
  unfold buddy
  split <;> omega

theorem buddy_buddy (i : Nat) : buddy (buddy i) = i := by
  unfold buddy
  split <;> split <;> omega

theorem buddy_of_even {i : Nat} (h : buddy i % 2 = 0) : buddy i = 2 * (i / 2) := by
  have := buddy_div i
  omega

theorem eq_of_buddy_odd {i : Nat} (h : buddy i % 2 = 1) : i = 2 * (i / 2) := by
  have := buddy_div i
  have := buddy_ne i
  omega

/-- A block exists when the one above it is divided. -/
def Leaf (M : Nat) (inner : Nat → Nat → Prop) (k i : Nat) : Prop :=
  k ≤ M ∧ i < 2 ^ (M - k) ∧ (k < M → inner (k + 1) (i / 2)) ∧ ¬ inner k i

/-- A division of `2 ^ M` units. -/
structure Division (M : Nat) where
  inner : Nat → Nat → Prop
  used : Nat → Nat → Prop
  range : ∀ k i, inner k i → 0 < k ∧ k ≤ M ∧ i < 2 ^ (M - k)
  up : ∀ k i, k < M → inner k i → inner (k + 1) (i / 2)
  leaf : ∀ k i, used k i → Leaf M inner k i
  buddies : ∀ k i, k < M → Leaf M inner k i → used k i ∨ inner k (buddy i) ∨ used k (buddy i)

namespace Division

variable {M k k' i j d x : Nat} (D : Division M)

def Free (k i : Nat) : Prop := Leaf M D.inner k i ∧ ¬ D.used k i

/-! ### The leaves -/

theorem inner_up (hi : D.inner k i) (hd : k + d ≤ M) : D.inner (k + d) (i / 2 ^ d) := by
  induction d with
  | zero => simpa using hi
  | succ d ih =>
    rw [Nat.pow_succ, ← Nat.div_div_eq_div_mul]
    exact D.up (k + d) _ (by omega) (ih (by omega))

/-- Above a leaf everything is divided. -/
theorem inner_of_leaf (h : Leaf M D.inner k (x / 2 ^ k)) (hk : k < k') (hk' : k' ≤ M) : D.inner k' (x / 2 ^ k') := by
  obtain ⟨-, -, hup, -⟩ := h
  have hin := D.inner_up (hup (by omega)) (d := k' - (k + 1)) (by omega)
  rw [Nat.div_div_eq_div_mul x, ← Nat.pow_succ, Nat.div_div_eq_div_mul, ← Nat.pow_add] at hin
  rwa [show k + 1 + (k' - (k + 1)) = k' by omega] at hin

/-- Different leaves have no unit in common. -/
theorem leaf_unique (h : Leaf M D.inner k (x / 2 ^ k)) (h' : Leaf M D.inner k' (x / 2 ^ k')) : k = k' := by
  rcases Nat.lt_trichotomy k k' with hlt | heq | hgt
  · exact absurd (D.inner_of_leaf h hlt h'.1) h'.2.2.2
  · exact heq
  · exact absurd (D.inner_of_leaf h' hgt h.1) h.2.2.2

theorem index_lt (hx : x < 2 ^ M) (hk : k ≤ M) : x / 2 ^ k < 2 ^ (M - k) := by
  rw [Nat.div_lt_iff_lt_mul (Nat.two_pow_pos k), ← Nat.pow_add, Nat.sub_add_cancel hk]
  exact hx

/-- The leaves cover all units. -/
theorem leaf_exists (hx : x < 2 ^ M) : ∃ k, Leaf M D.inner k (x / 2 ^ k) := by
  have hdown : ∀ k, k ≤ M → (k < M → D.inner (k + 1) (x / 2 ^ (k + 1))) → ∃ k', Leaf M D.inner k' (x / 2 ^ k') := by
    intro k
    induction k with
    | zero =>
      intro hk hup
      refine ⟨0, hk, index_lt hx hk, fun h => ?_, fun hin => absurd (D.range 0 _ hin).1 (by omega)⟩
      rw [Nat.div_div_eq_div_mul, ← Nat.pow_succ]
      exact hup h
    | succ k ih =>
      intro hk hup
      by_cases hin : D.inner (k + 1) (x / 2 ^ (k + 1))
      · exact ih (by omega) fun _ => hin
      · refine ⟨k + 1, hk, index_lt hx hk, fun h => ?_, hin⟩
        rw [Nat.div_div_eq_div_mul, ← Nat.pow_succ]
        exact hup h
  exact hdown M (Nat.le_refl M) fun h => absurd h (by omega)

/-- A block is divided when there is a used one inside of it: the free parts are as large as they can be. -/
theorem inner_iff : D.inner k i ↔ k ≤ M ∧ ∃ k' j, k' < k ∧ D.used k' j ∧ j / 2 ^ (k - k') = i := by
  constructor
  · intro h
    refine ⟨(D.range k i h).2.1, ?_⟩
    induction k generalizing i with
    | zero => exact absurd (D.range 0 i h).1 (by omega)
    | succ k ih =>
      have hbelow : ∀ j, D.inner k j → j / 2 = i → ∃ k' j, k' < k + 1 ∧ D.used k' j ∧ j / 2 ^ (k + 1 - k') = i := by
        intro j hj hji
        obtain ⟨k', b, hk', hu, hb⟩ := ih hj
        refine ⟨k', b, by omega, hu, ?_⟩
        rw [show k + 1 - k' = k - k' + 1 by omega, Nat.pow_succ, ← Nat.div_div_eq_div_mul, hb, hji]
      have hused : ∀ j, D.used k j → j / 2 = i → ∃ k' j, k' < k + 1 ∧ D.used k' j ∧ j / 2 ^ (k + 1 - k') = i :=
        fun j hu hji => ⟨k, j, by omega, hu, by rw [Nat.add_sub_cancel_left, Nat.pow_one, hji]⟩
      obtain ⟨-, hM, hi⟩ := D.range _ _ h
      have hhalf : 2 * i / 2 = i := by omega
      by_cases hin : D.inner k (2 * i)
      · exact hbelow _ hin hhalf
      · have hlt : 2 * i < 2 ^ (M - k) := by
          rw [show M - k = M - (k + 1) + 1 by omega, Nat.pow_succ]
          omega
        -- the first half is a leaf, and not both halves are free
        rcases D.buddies k (2 * i) (by omega) ⟨by omega, hlt, fun _ => hhalf.symm ▸ h, hin⟩ with hu | hin' | hu
        · exact hused _ hu hhalf
        · exact hbelow _ hin' (by rw [buddy_div, hhalf])
        · exact hused _ hu (by rw [buddy_div, hhalf])
  · rintro ⟨hk, k', j, hk', hu, rfl⟩
    have h := D.inner_up ((D.leaf _ _ hu).2.2.1 (by omega)) (d := k - (k' + 1)) (by omega)
    rwa [Nat.div_div_eq_div_mul, ← Nat.pow_succ', show (k - (k' + 1)).succ = k - k' by omega,
      show k' + 1 + (k - (k' + 1)) = k by omega] at h

/-- The used blocks determine the free ones. -/
theorem free_congr {D D' : Division M} (h : ∀ k i, D.used k i ↔ D'.used k i) (k i : Nat) : D.Free k i ↔ D'.Free k i := by
  have hinner : ∀ k i, D.inner k i ↔ D'.inner k i := fun k i => by simp only [inner_iff, h]
  simp only [Free, Leaf, hinner, h]

/-! ### Changes -/

variable {D}

theorem Free.not_inner (h : D.Free k i) : ¬ D.inner k i := h.1.2.2.2

/-- A free leaf becomes a used one. -/
def take (D : Division M) (k i : Nat) (h : D.Free k i) : Division M where
  inner := D.inner
  used a b := D.used a b ∨ a = k ∧ b = i
  range := D.range
  up := D.up
  leaf a b hu := by
    rcases hu with hu | ⟨rfl, rfl⟩
    · exact D.leaf a b hu
    · exact h.1
  buddies a b ha hl := (D.buddies a b ha hl).imp .inl (.imp_right .inl)

theorem free_take (h : D.Free k i) : (D.take k i h).Free k' j ↔ D.Free k' j ∧ ¬ (k' = k ∧ j = i) := by
  unfold Free take
  rw [not_or, and_assoc]

/-- A used leaf becomes a free one, when the other half is not free. -/
def give (D : Division M) (k i : Nat) (hb : k < M → D.inner k (buddy i) ∨ D.used k (buddy i)) : Division M where
  inner := D.inner
  used a b := D.used a b ∧ ¬ (a = k ∧ b = i)
  range := D.range
  up := D.up
  leaf a b hu := D.leaf a b hu.1
  buddies a b ha hl := by
    by_cases hi : a = k ∧ b = i
    · obtain ⟨rfl, rfl⟩ := hi
      exact .inr ((hb ha).imp_right fun hu => ⟨hu, fun heq => buddy_ne b heq.2⟩)
    · by_cases hbi : a = k ∧ b = buddy i
      · obtain ⟨rfl, rfl⟩ := hbi
        exact .inl ⟨(hb ha).resolve_left hl.2.2.2, hi⟩
      · have hne : ¬ (a = k ∧ buddy b = i) := fun ⟨h₁, h₂⟩ => hbi ⟨h₁, by rw [← h₂, buddy_buddy]⟩
        exact (D.buddies a b ha hl).imp (⟨·, hi⟩) (.imp_right (⟨·, hne⟩))

theorem free_give (hu : D.used k i) (hb : k < M → D.inner k (buddy i) ∨ D.used k (buddy i)) :
    (D.give k i hb).Free k' j ↔ D.Free k' j ∨ k' = k ∧ j = i := by
  constructor
  · rintro ⟨hl, hnot⟩
    by_cases hj : k' = k ∧ j = i
    · exact .inr hj
    · exact .inl ⟨hl, fun hu' => hnot ⟨hu', hj⟩⟩
  · rintro (hf | ⟨rfl, rfl⟩)
    · exact ⟨hf.1, fun hu' => hf.2 hu'.1⟩
    · exact ⟨D.leaf _ _ hu, fun hu' => hu'.2 ⟨rfl, rfl⟩⟩

/-- A used leaf is divided: its first half is used, and the second one is free. -/
def divide (D : Division M) (k i : Nat) (h : D.used (k + 1) i) : Division M where
  inner a b := D.inner a b ∨ a = k + 1 ∧ b = i
  used a b := D.used a b ∧ ¬ (a = k + 1 ∧ b = i) ∨ a = k ∧ b = 2 * i
  range a b hin := by
    rcases hin with hin | ⟨rfl, rfl⟩
    · exact D.range a b hin
    · obtain ⟨hk, hi, -⟩ := D.leaf _ _ h
      exact ⟨Nat.succ_pos k, hk, hi⟩
  up a b ha hin := by
    rcases hin with hin | ⟨rfl, rfl⟩
    · exact .inl (D.up a b ha hin)
    · exact .inl ((D.leaf _ _ h).2.2.1 ha)
  leaf a b hu := by
    obtain ⟨hk, hi, -, hnot⟩ := D.leaf _ _ h
    rcases hu with ⟨hu, hne⟩ | ⟨rfl, rfl⟩
    · obtain ⟨h₁, h₂, h₃, h₄⟩ := D.leaf a b hu
      exact ⟨h₁, h₂, fun ha => .inl (h₃ ha), fun hin => hin.elim h₄ hne⟩
    · refine ⟨by omega, ?_, fun _ => .inr ⟨rfl, by omega⟩, fun hin => ?_⟩
      · rw [show M - a = M - (a + 1) + 1 by omega, Nat.pow_succ]
        omega
      · rcases hin with hin | ⟨heq, -⟩
        · have := D.up a _ (by omega) hin
          rw [show 2 * i / 2 = i by omega] at this
          exact hnot this
        · omega
  buddies a b ha hl := by
    obtain ⟨h₁, h₂, h₃, h₄⟩ := hl
    rcases h₃ ha with hin | ⟨heq, rfl⟩
    · rcases D.buddies a b ha ⟨h₁, h₂, fun _ => hin, fun h => h₄ (.inl h)⟩ with hu | hin' | hu
      · exact .inl (.inl ⟨hu, fun heq => h₄ (.inr heq)⟩)
      · exact .inr (.inl (.inl hin'))
      · by_cases heq : a = k + 1 ∧ buddy b = i
        · exact .inr (.inl (.inr heq))
        · exact .inr (.inr (.inl ⟨hu, heq⟩))
    · obtain rfl : a = k := by omega
      rcases eq_or_buddy (show b / 2 = 2 * (b / 2) / 2 by omega) with hb | hb
      · exact .inl (.inr ⟨rfl, hb⟩)
      · rw [hb, buddy_buddy]
        exact .inr (.inr (.inr ⟨rfl, by rw [← hb]⟩))

theorem free_divide (h : D.used (k + 1) i) :
    (D.divide k i h).Free k' j ↔ D.Free k' j ∨ k' = k ∧ j = 2 * i + 1 := by
  obtain ⟨hk, hi, -, hnot⟩ := D.leaf _ _ h
  -- below the leaf there was nothing
  have hbelow : ∀ j, j / 2 = i → ¬ D.inner k j ∧ ¬ Leaf M D.inner k j := fun j hj =>
    ⟨fun hin => hnot (hj ▸ D.up k j (by omega) hin), fun hl => hnot (hj ▸ hl.2.2.1 (by omega))⟩
  constructor
  · rintro ⟨⟨h₁, h₂, h₃, h₄⟩, hused⟩
    have hne : ¬ (k' = k + 1 ∧ j = i) := fun heq => h₄ (.inr heq)
    by_cases hchild : k' = k ∧ j / 2 = i
    · obtain ⟨rfl, hj⟩ := hchild
      have : j ≠ 2 * i := fun heq => hused (.inr ⟨rfl, heq⟩)
      exact .inr ⟨rfl, by omega⟩
    · refine .inl ⟨⟨h₁, h₂, fun hlt => (h₃ hlt).resolve_right fun ⟨h₅, h₆⟩ => hchild ⟨by omega, h₆⟩,
        fun hin => h₄ (.inl hin)⟩, fun hu => hused (.inl ⟨hu, hne⟩)⟩
  · rintro (⟨⟨h₁, h₂, h₃, h₄⟩, hused⟩ | ⟨rfl, rfl⟩)
    · refine ⟨⟨h₁, h₂, fun hlt => .inl (h₃ hlt), ?_⟩, ?_⟩
      · rintro (hin | ⟨rfl, rfl⟩)
        · exact h₄ hin
        · exact hused h
      · rintro (hu | ⟨rfl, rfl⟩)
        · exact hused hu.1
        · exact (hbelow _ (by omega)).2 ⟨h₁, h₂, h₃, h₄⟩
    · refine ⟨⟨by omega, ?_, fun _ => .inr ⟨rfl, by omega⟩, ?_⟩, ?_⟩
      · rw [show M - k' = M - (k' + 1) + 1 by omega, Nat.pow_succ]
        omega
      · rintro (hin | ⟨heq, -⟩)
        · exact (hbelow _ (by omega)).1 hin
        · omega
      · rintro (hu | ⟨-, heq⟩)
        · exact (hbelow _ (by omega)).2 (D.leaf _ _ hu.1)
        · omega

/-- A used leaf and the free other half become one used leaf. -/
def unite (D : Division M) (k i : Nat) (hu : D.used k i) (hf : D.Free k (buddy i)) (hk : k < M) : Division M where
  inner a b := D.inner a b ∧ ¬ (a = k + 1 ∧ b = i / 2)
  used a b := D.used a b ∧ ¬ (a = k ∧ b = i) ∨ a = k + 1 ∧ b = i / 2
  range a b hin := D.range a b hin.1
  up a b ha hin := by
    refine ⟨D.up a b ha hin.1, fun ⟨hak, hbi⟩ => ?_⟩
    obtain rfl : a = k := by omega
    rcases eq_or_buddy hbi with rfl | rfl
    · exact (D.leaf _ _ hu).2.2.2 hin.1
    · exact hf.not_inner hin.1
  leaf a b hu' := by
    rcases hu' with ⟨hu', hne⟩ | ⟨rfl, rfl⟩
    · obtain ⟨h₁, h₂, h₃, h₄⟩ := D.leaf a b hu'
      refine ⟨h₁, h₂, fun ha => ⟨h₃ ha, fun ⟨hak, hbi⟩ => ?_⟩, fun hin => h₄ hin.1⟩
      obtain rfl : a = k := by omega
      rcases eq_or_buddy hbi with rfl | rfl
      · exact hne ⟨rfl, rfl⟩
      · exact hf.2 hu'
    · have hin := (D.leaf _ _ hu).2.2.1 hk
      obtain ⟨-, hle, hlt⟩ := D.range _ _ hin
      exact ⟨hle, hlt, fun ha => ⟨D.up _ _ ha hin, by omega⟩, fun h => h.2 ⟨rfl, rfl⟩⟩
  buddies a b ha hl := by
    obtain ⟨h₁, h₂, h₃, h₄⟩ := hl
    obtain ⟨hin, hne⟩ := h₃ ha
    by_cases hab : a = k + 1 ∧ b = i / 2
    · exact .inl (.inr hab)
    · have hother : ∀ c, c / 2 = b / 2 → ¬ (a = k ∧ c = i) := fun c hc ⟨h₅, h₆⟩ => hne ⟨by omega, by rw [← hc, h₆]⟩
      have h₅ := hother b rfl
      have h₆ := hother (buddy b) (buddy_div b)
      rcases D.buddies a b ha ⟨h₁, h₂, fun _ => hin, fun h => h₄ ⟨h, hab⟩⟩ with hb | hb | hb
      · exact .inl (.inl ⟨hb, h₅⟩)
      · by_cases hbi : a = k + 1 ∧ buddy b = i / 2
        · exact .inr (.inr (.inr hbi))
        · exact .inr (.inl ⟨hb, hbi⟩)
      · exact .inr (.inr (.inl ⟨hb, h₆⟩))

theorem free_unite (hu : D.used k i) (hf : D.Free k (buddy i)) (hk : k < M) :
    (D.unite k i hu hf hk).Free k' j ↔ D.Free k' j ∧ ¬ (k' = k ∧ j = buddy i) := by
  have hin := (D.leaf _ _ hu).2.2.1 hk
  constructor
  · rintro ⟨⟨h₁, h₂, h₃, h₄⟩, hnot⟩
    have hne : ¬ (k' = k + 1 ∧ j = i / 2) := fun h => hnot (.inr h)
    have hsib : ¬ (k' = k ∧ j / 2 = i / 2) := fun ⟨h₅, h₆⟩ => (h₃ (by omega)).2 ⟨by omega, h₆⟩
    refine ⟨⟨⟨h₁, h₂, fun h => (h₃ h).1, fun h => h₄ ⟨h, hne⟩⟩, fun h => hnot (.inl ⟨h, fun h' => ?_⟩)⟩, fun h => ?_⟩
    · exact hsib ⟨h'.1, by rw [h'.2]⟩
    · exact hsib ⟨h.1, by rw [h.2, buddy_div]⟩
  · rintro ⟨⟨⟨h₁, h₂, h₃, h₄⟩, hnot⟩, hne⟩
    refine ⟨⟨h₁, h₂, fun h => ⟨h₃ h, fun ⟨h₅, h₆⟩ => ?_⟩, fun h => h₄ h.1⟩, ?_⟩
    · obtain rfl : k' = k := by omega
      rcases eq_or_buddy h₆ with rfl | rfl
      · exact hnot hu
      · exact hne ⟨rfl, rfl⟩
    · rintro (h | ⟨rfl, rfl⟩)
      · exact hnot h.1
      · exact h₄ hin

end Division

end Xv6.Halving
