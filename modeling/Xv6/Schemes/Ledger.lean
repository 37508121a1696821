import Mathlib.Data.List.Nodup
import Mathlib.Logic.Function.Basic

/-! Resources with at most one owner each.

    ```
    free ──alloc──▶ pending ──attach──▶ owned
      ▲                │  ▲                │
      └──────free──────┘  └────release─────┘
    ```

    A resource is in use iff an owner names it or it is pending: allocated and not yet owned, or
    disowned and not yet freed. -/

namespace Xv6.Ledger

variable {ι β : Type}

/-- The use marks are exact for the owners and the pending resources. -/
structure Exact (own : ι → Option β) (used : β → Prop) (pending : List β) : Prop where
  used_iff : ∀ b, used b ↔ (∃ x, own x = some b) ∨ b ∈ pending
  once : ∀ {x y b}, own x = some b → own y = some b → x = y
  unowned : ∀ {b}, b ∈ pending → ∀ x, own x ≠ some b
  nodup : pending.Nodup

namespace Exact

variable {own own' : ι → Option β} {used used' : β → Prop} {b : β} {ps : List β}

theorem congr (h : Exact own used ps) (hown : ∀ x, own' x = own x) (hused : ∀ c, used' c ↔ used c) :
    Exact own' used' ps := by
  obtain rfl : own' = own := funext hown
  obtain rfl : used' = used := funext fun c => propext (hused c)
  exact h

theorem alloc (h : Exact own used ps) (hb : ¬ used b) (hused : ∀ c, used' c ↔ used c ∨ c = b) :
    Exact own used' (b :: ps) where
  used_iff c := by
    rw [hused, h.used_iff, List.mem_cons]
    tauto
  once := h.once
  unowned {c} hc x hx := by
    rcases List.mem_cons.mp hc with rfl | hc
    · exact hb ((h.used_iff c).mpr (.inl ⟨x, hx⟩))
    · exact h.unowned hc x hx
  nodup := List.nodup_cons.mpr ⟨fun hmem => hb ((h.used_iff b).mpr (.inr hmem)), h.nodup⟩

theorem free (h : Exact own used (b :: ps)) (hused : ∀ c, used' c ↔ used c ∧ c ≠ b) :
    Exact own used' ps where
  used_iff c := by
    rw [hused, h.used_iff, List.mem_cons]
    constructor
    · rintro ⟨hx | rfl | hc, hne⟩
      · exact .inl hx
      · exact absurd rfl hne
      · exact .inr hc
    · rintro (⟨x, hx⟩ | hc)
      · exact ⟨.inl ⟨x, hx⟩, fun hcb => h.unowned List.mem_cons_self x (hcb ▸ hx)⟩
      · exact ⟨.inr (.inr hc), fun hcb => (List.nodup_cons.mp h.nodup).1 (hcb ▸ hc)⟩
  once := h.once
  unowned hc := h.unowned (List.mem_cons_of_mem b hc)
  nodup := (List.nodup_cons.mp h.nodup).2

/-- A pending resource gets its owner. -/
theorem attach (h : Exact own used (b :: ps)) {x : ι} (hx : own x = none) (hself : own' x = some b)
    (hother : ∀ y, y ≠ x → own' y = own y) : Exact own' used ps where
  used_iff c := by
    rw [h.used_iff, List.mem_cons]
    constructor
    · rintro (⟨y, hy⟩ | rfl | hc)
      · have hyx : y ≠ x := by rintro rfl; rw [hx] at hy; cases hy
        exact .inl ⟨y, by rw [hother y hyx, hy]⟩
      · exact .inl ⟨x, hself⟩
      · exact .inr hc
    · rintro (⟨y, hy⟩ | hc)
      · by_cases hyx : y = x
        · subst hyx
          rw [hself] at hy
          exact .inr (.inl (Option.some.inj hy).symm)
        · exact .inl ⟨y, by rw [← hother y hyx, hy]⟩
      · exact .inr (.inr hc)
  once {y z c} hy hz := by
    have hfresh : ∀ w, w ≠ x → own' w ≠ some b := fun w hw hwb =>
      h.unowned List.mem_cons_self w (by rw [← hother w hw, hwb])
    by_cases hyx : y = x
    · by_cases hzx : z = x
      · rw [hyx, hzx]
      · rw [hyx, hself] at hy
        exact absurd (hy ▸ hz) (hfresh z hzx)
    · by_cases hzx : z = x
      · rw [hzx, hself] at hz
        exact absurd (hz ▸ hy) (hfresh y hyx)
      · exact h.once ((hother y hyx).symm.trans hy) ((hother z hzx).symm.trans hz)
  unowned {c} hc y hy := by
    by_cases hyx : y = x
    · rw [hyx, hself] at hy
      exact (List.nodup_cons.mp h.nodup).1 (Option.some.inj hy ▸ hc)
    · exact h.unowned (List.mem_cons_of_mem b hc) y (by rw [← hother y hyx, hy])
  nodup := (List.nodup_cons.mp h.nodup).2

/-- Some owners give up what they own. -/
theorem release (h : Exact own used []) {xs : List ι} (hxs : xs.Nodup)
    (hgone : ∀ x ∈ xs, own' x = none) (hother : ∀ y, y ∉ xs → own' y = own y) :
    Exact own' used (xs.filterMap own) where
  used_iff c := by
    rw [h.used_iff, List.mem_filterMap]
    constructor
    · rintro (⟨x, hx⟩ | hc)
      · by_cases hmem : x ∈ xs
        · exact .inr ⟨x, hmem, hx⟩
        · exact .inl ⟨x, by rw [hother x hmem, hx]⟩
      · cases hc
    · rintro (⟨x, hx⟩ | ⟨x, -, hx⟩)
      · by_cases hmem : x ∈ xs
        · rw [hgone x hmem] at hx
          cases hx
        · exact .inl ⟨x, by rw [← hother x hmem, hx]⟩
      · exact .inl ⟨x, hx⟩
  once {y z c} hy hz := by
    have hkept : ∀ w d, own' w = some d → own w = some d := by
      intro w d hw
      by_cases hmem : w ∈ xs
      · rw [hgone w hmem] at hw; cases hw
      · rw [← hother w hmem, hw]
    exact h.once (hkept y c hy) (hkept z c hz)
  unowned {c} hc y hy := by
    obtain ⟨x, hmem, hx⟩ := List.mem_filterMap.mp hc
    by_cases hmem' : y ∈ xs
    · rw [hgone y hmem'] at hy; cases hy
    · rw [hother y hmem'] at hy
      exact hmem' (h.once hx hy ▸ hmem)
  nodup := List.Nodup.filterMap (fun x y c hx hy => h.once hx hy) hxs

end Exact

end Xv6.Ledger
