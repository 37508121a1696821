import Mathlib.Algebra.BigOperators.Group.List.Basic
import Mathlib.Algebra.Order.Ring.Nat

/-! Sorted lists of extents with gaps between them.

    ```
    |== a ==|      |= b =|   |==== c ====|        gapped
    |== a ==|======|= b =|   |==== c ====|        glue [a] (glue [x] [b, c])
    ```

    `glue` puts two lists together, and joins the two extents at the seam when they touch. -/

namespace Xv6.Extents

structure Extent where
  start : Nat
  len : Nat
  deriving DecidableEq

namespace Extent

def stop (b : Extent) : Nat := b.start + b.len

def Has (b : Extent) (x : Nat) : Prop := b.start ≤ x ∧ x < b.stop

def Apart (b c : Extent) : Prop := b.stop ≤ c.start ∨ c.stop ≤ b.start

end Extent

variable {b c : Extent} {l r : List Extent} {x : Nat}

def Covers (l : List Extent) (x : Nat) : Prop := ∃ b ∈ l, b.Has x

def Gapped (l : List Extent) : Prop := l.Pairwise fun b c => b.stop < c.start

/-- The length of all extents together. -/
def total (l : List Extent) : Nat := (l.map Extent.len).sum

@[simp] theorem total_nil : total [] = 0 := rfl

@[simp] theorem total_cons (b : Extent) (l : List Extent) : total (b :: l) = b.len + total l := by simp [total]

@[simp] theorem total_append (l r : List Extent) : total (l ++ r) = total l + total r := by simp [total]

theorem le_total (hb : b ∈ l) : b.len ≤ total l := by
  obtain ⟨l, r, rfl⟩ := List.append_of_mem hb
  rw [total_append, total_cons]
  omega

@[simp] theorem covers_nil : ¬ Covers [] x := fun ⟨_, hb, _⟩ => absurd hb List.not_mem_nil

@[simp] theorem covers_cons : Covers (b :: l) x ↔ b.Has x ∨ Covers l x := by simp [Covers]

@[simp] theorem covers_append : Covers (l ++ r) x ↔ Covers l x ∨ Covers r x := by
  simp only [Covers, List.mem_append, or_and_right, exists_or]

/-! ### Joining -/

def glue : List Extent → List Extent → List Extent
  | [], r => r
  | [c], [] => [c]
  | [c], b :: r => if c.stop = b.start then ⟨c.start, c.len + b.len⟩ :: r else c :: b :: r
  | c :: d :: l, r => c :: glue (d :: l) r

/-- The seam is at the end of the first list. -/
theorem glue_concat (l : List Extent) (c b : Extent) (r : List Extent) :
    glue (l ++ [c]) (b :: r) = l ++ if c.stop = b.start then ⟨c.start, c.len + b.len⟩ :: r else c :: b :: r := by
  induction l with
  | nil => rfl
  | cons d l ih =>
    cases l with
    | nil => rfl
    | cons d' l => exact congrArg (d :: ·) ih

/-- What an extent of a glued list is made of. -/
theorem mem_glue (hb : b ∈ glue l r) :
    (∃ c ∈ l ++ r, b.start = c.start ∧ c.len ≤ b.len) ∧ ∃ c ∈ l ++ r, b.stop = c.stop := by
  fun_induction glue l r with
  | case1 | case2 | case4 => exact ⟨⟨b, hb, rfl, le_rfl⟩, b, hb, rfl⟩
  | case3 c d r heq =>
    rcases List.mem_cons.mp hb with rfl | hb
    · refine ⟨⟨c, List.mem_cons_self, rfl, Nat.le_add_right _ _⟩, d, by simp, ?_⟩
      unfold Extent.stop at *
      simp only
      omega
    · exact ⟨⟨b, by simp [hb], rfl, le_rfl⟩, b, by simp [hb], rfl⟩
  | case5 c d l r ih =>
    rcases List.mem_cons.mp hb with rfl | hb
    · exact ⟨⟨b, List.mem_cons_self, rfl, le_rfl⟩, b, List.mem_cons_self, rfl⟩
    · obtain ⟨⟨e, he, h₁⟩, f, hf, h₂⟩ := ih hb
      exact ⟨⟨e, List.mem_cons_of_mem _ he, h₁⟩, f, List.mem_cons_of_mem _ hf, h₂⟩

theorem covers_glue : Covers (glue l r) x ↔ Covers l x ∨ Covers r x := by
  fun_induction glue l r with
  | case1 r => simp
  | case2 c => simp
  | case3 c b r heq =>
    have hjoin : Extent.Has ⟨c.start, c.len + b.len⟩ x ↔ c.Has x ∨ b.Has x := by
      unfold Extent.Has Extent.stop at *
      simp only
      omega
    simp only [covers_cons, hjoin, covers_nil, or_false, or_assoc]
  | case4 c b r hne => simp
  | case5 c d l r ih =>
    rw [covers_cons (b := c), covers_cons (b := c), ih, or_assoc]

theorem total_glue (l r : List Extent) : total (glue l r) = total l + total r := by
  fun_induction glue l r with
  | case1 r => simp
  | case2 c => simp
  | case3 c b r heq => simp [Nat.add_assoc]
  | case4 c b r hne => simp
  | case5 c d l r ih => rw [total_cons, ih, total_cons c, Nat.add_assoc]

theorem length_glue (l r : List Extent) : (glue l r).length ≤ l.length + r.length := by
  fun_induction glue l r with
  | case1 r => simp
  | case2 c => simp
  | case3 c b r heq => simp
  | case4 c b r hne => simp only [List.length_cons, List.length_nil]; omega
  | case5 c d l r ih => simp only [List.length_cons] at *; omega

/-- Nothing gets smaller. -/
theorem exists_glue (hb : b ∈ l ++ r) : ∃ c ∈ glue l r, b.len ≤ c.len := by
  fun_induction glue l r with
  | case1 r | case2 c => exact ⟨b, hb, le_rfl⟩
  | case3 c d r heq =>
    simp only [List.singleton_append, List.mem_cons] at hb
    rcases hb with rfl | rfl | hb
    · exact ⟨_, List.mem_cons_self, Nat.le_add_right _ _⟩
    · exact ⟨_, List.mem_cons_self, Nat.le_add_left _ _⟩
    · exact ⟨b, List.mem_cons_of_mem _ hb, le_rfl⟩
  | case4 c d r hne => exact ⟨b, hb, le_rfl⟩
  | case5 c d l r ih =>
    rcases List.mem_cons.mp hb with rfl | hb
    · exact ⟨b, List.mem_cons_self, le_rfl⟩
    · obtain ⟨e, he, hle⟩ := ih hb
      exact ⟨e, List.mem_cons_of_mem _ he, hle⟩

theorem Gapped.glue (hl : Gapped l) (hr : Gapped r) (hlr : ∀ b ∈ l, ∀ c ∈ r, b.stop ≤ c.start) : Gapped (glue l r) := by
  fun_induction Extents.glue l r with
  | case1 r => exact hr
  | case2 c => exact hl
  | case3 c b r heq =>
    obtain ⟨hb, hr⟩ := List.pairwise_cons.mp hr
    refine List.pairwise_cons.mpr ⟨fun d hd => ?_, hr⟩
    have := hb d hd
    unfold Extent.stop at *
    simp only
    omega
  | case4 c b r hne =>
    refine List.pairwise_cons.mpr ⟨fun d hd => ?_, hr⟩
    have hcb := hlr c List.mem_cons_self b List.mem_cons_self
    rcases List.mem_cons.mp hd with rfl | hd
    · omega
    · have := (List.pairwise_cons.mp hr).1 d hd
      unfold Extent.stop at *
      omega
  | case5 c d l r ih =>
    obtain ⟨hc, hl⟩ := List.pairwise_cons.mp hl
    refine List.pairwise_cons.mpr ⟨fun e he => ?_, ih hl hr fun b hb => hlr b (List.mem_cons_of_mem _ hb)⟩
    obtain ⟨⟨f, hf, hstart, -⟩, -⟩ := mem_glue he
    rw [hstart]
    rcases List.mem_append.mp hf with hf | hf
    · exact hc f hf
    · have h₁ := hc d List.mem_cons_self
      have h₂ := hlr d (by simp) f hf
      unfold Extent.stop at *
      omega

/-! ### Insertion -/

/-- `b` between `l` and `r`, joined to what it touches. -/
def place (l : List Extent) (b : Extent) (r : List Extent) : List Extent := glue l (glue [b] r)

theorem covers_place : Covers (place l b r) x ↔ Covers (l ++ r) x ∨ b.Has x := by
  rw [place, covers_glue, covers_glue, covers_cons, covers_append, or_iff_left covers_nil, or_assoc, or_comm (a := b.Has x)]

theorem total_place (l : List Extent) (b : Extent) (r : List Extent) : total (place l b r) = total (l ++ r) + b.len := by
  rw [place, total_glue, total_glue, total_append, total_cons, total_nil]
  omega

theorem length_place (l : List Extent) (b : Extent) (r : List Extent) : (place l b r).length ≤ (l ++ r).length + 1 := by
  have h₁ := length_glue l (glue [b] r)
  have h₂ := length_glue [b] r
  rw [List.length_singleton] at h₂
  rw [place, List.length_append]
  omega

theorem exists_place (l : List Extent) (b : Extent) (r : List Extent) : ∃ c ∈ place l b r, b.len ≤ c.len := by
  obtain ⟨d, hd, hle⟩ := exists_glue (b := b) (l := [b]) (r := r) (by simp)
  obtain ⟨c, hc, hle'⟩ := exists_glue (l := l) (List.mem_append_right l hd)
  exact ⟨c, hc, hle.trans hle'⟩

theorem mem_place (hc : c ∈ place l b r) : ∃ d ∈ b :: (l ++ r), c.start = d.start ∧ d.len ≤ c.len := by
  obtain ⟨⟨d, hd, heq, hle⟩, -⟩ := mem_glue hc
  rcases List.mem_append.mp hd with hd | hd
  · exact ⟨d, by simp [hd], heq, hle⟩
  · obtain ⟨⟨e, he, heq', hle'⟩, -⟩ := mem_glue hd
    refine ⟨e, ?_, heq.trans heq', hle'.trans hle⟩
    rcases List.mem_cons.mp he with rfl | he
    · exact List.mem_cons_self
    · exact List.mem_cons_of_mem _ (List.mem_append_right l he)

section Place

variable (h : Gapped (l ++ r)) (hl : ∀ c ∈ l, c.stop ≤ b.start) (hr : ∀ c ∈ r, b.stop ≤ c.start)

include h hr in
theorem gapped_glue_singleton : Gapped (glue [b] r) :=
  Gapped.glue (List.pairwise_singleton _ _) (List.pairwise_append.mp h).2.1 (by simpa using hr)

include h hl in
theorem le_glue_singleton : ∀ c ∈ l, ∀ d ∈ glue [b] r, c.stop ≤ d.start := fun c hc d hd => by
  obtain ⟨⟨e, he, heq, -⟩, -⟩ := mem_glue hd
  rw [heq]
  rcases List.mem_cons.mp he with rfl | he
  · exact hl c hc
  · exact ((List.pairwise_append.mp h).2.2 c hc e he).le

include h hl hr in
theorem Gapped.place : Gapped (place l b r) :=
  Gapped.glue (List.pairwise_append.mp h).1 (gapped_glue_singleton h hr) (le_glue_singleton h hl)

end Place

end Xv6.Extents
