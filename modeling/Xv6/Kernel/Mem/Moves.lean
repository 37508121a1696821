import Xv6.Kernel.Mem.View

/-! The changes that keep a view good. -/

namespace Xv6.Mem

open View Function
open Procs (Slot)

variable {K : Link} {v w : View} {f g R : Frame} {i : Fin 512} {l b n : Nat} {e e' : Fin 512 → Pte}
  {x : Pte} {q : Slot}

namespace Trees

/-- The nodes are the same. -/
theorem congr (h : Trees v)
    (hnode : ∀ {g R l b e}, w.cell g = some (.node R l b e) ↔ v.cell g = some (.node R l b e))
    (hs : ∀ f i, v.stale ≠ some (.entry f i)) (hs' : ∀ f i, w.stale ≠ some (.entry f i)) : Trees w where
  level hf := h.level (hnode.mp hf)
  down hf hv _ := by
    obtain ⟨hleaf, hsp | ⟨e', he'⟩⟩ := h.down (hnode.mp hf) hv (hs _ _)
    · exact ⟨hleaf, .inl hsp⟩
    · exact ⟨hleaf, .inr ⟨e', hnode.mpr he'⟩⟩
  up hf hl := by
    obtain ⟨g, e', hg, hv, hppn, -, hsp⟩ := h.up (hnode.mp hf) hl
    exact ⟨g, e', hnode.mpr hg, hv, hppn, hs' _ _, hsp⟩

/-- The entry `i` of the node `f` becomes `x`. A frame that was not a node may become the one that `x`
    points to, with no valid entries. -/
theorem patch (h : Trees v) (hs : ∀ g j, v.stale = some (.entry g j) → g = f ∧ j = i) (hstale : w.stale = none)
    (hf : v.cell f = some (.node R (l + 1) b e)) (hcf : w.cell f = some (.node R (l + 1) b (update e i x)))
    (hcell : ∀ k, k ≠ f → w.cell k = v.cell k ∨ Plain (v.cell k) ∧
      ∃ e', w.cell k = some (.node R l (512 * b + i) e') ∧ ∀ j, (e' j).v = false)
    (hx : x.v = true → (x.isLeaf = true ↔ l = 0) ∧
      (Special l (512 * b + i) ∧ x.perm.u = false ∨ ∃ e', w.cell x.ppn = some (.node R l (512 * b + i) e')))
    (hchild : ∀ k e', w.cell k = some (.node R l (512 * b + i) e') →
      x.v = true ∧ x.ppn = k ∧ ¬ Special l (512 * b + i)) : Trees w := by
  -- a node of `v` is a node of `w` at the same place, and all others are new
  have hkeep : ∀ {k R l b e}, v.cell k = some (.node R l b e) → ∃ e', w.cell k = some (.node R l b e') := by
    intro k R' l' b' e₁ hk
    by_cases hkf : k = f
    · subst hkf
      obtain ⟨rfl, rfl, rfl, -⟩ := node_inj hf hk
      exact ⟨_, hcf⟩
    · rcases hcell k hkf with heq | ⟨hplain, -⟩
      · exact ⟨e₁, heq.trans hk⟩
      · exact absurd hk hplain.ne_node
  have hback : ∀ {k R' l' b' e₁}, w.cell k = some (.node R' l' b' e₁) →
      (∃ e₀, v.cell k = some (.node R' l' b' e₀) ∧ ∀ j, k = f ∧ j = i ∨ e₀ j = e₁ j) ∨
        l' = l ∧ R' = R ∧ b' = 512 * b + i ∧ ∀ j, (e₁ j).v = false := by
    intro k R' l' b' e₁ hk
    by_cases hkf : k = f
    · subst hkf
      obtain ⟨rfl, rfl, rfl, rfl⟩ := node_inj hcf hk
      exact .inl ⟨e, hf, fun j => or_iff_not_imp_left.mpr fun hj => (update_of_ne (fun h => hj ⟨rfl, h⟩) _ _).symm⟩
    · rcases hcell k hkf with heq | ⟨-, e', he', hnew⟩
      · exact .inl ⟨e₁, heq ▸ hk, fun j => .inr rfl⟩
      · obtain ⟨rfl, rfl, rfl, rfl⟩ := node_inj he' hk
        exact .inr ⟨rfl, rfl, rfl, hnew⟩
  have hl3 := (h.level hf).1
  refine ⟨fun {k _ _ _ _} hk => ?_, fun {k R' l' b' e₁ j} hk hv _ => ?_, fun {k R' l' b' e₁} hk hl => ?_⟩
  · rcases hback hk with ⟨e₀, he₀, -⟩ | ⟨rfl, -⟩
    · exact h.level he₀
    · exact ⟨by omega, fun h3 => by omega⟩
  · rcases hback hk with ⟨e₀, he₀, hsame⟩ | ⟨-, -, -, hnew⟩
    swap
    · rw [hnew j] at hv
      cases hv
    by_cases hij : k = f ∧ j = i
    · obtain ⟨rfl, rfl⟩ := hij
      obtain ⟨rfl, hll, rfl, rfl⟩ := node_inj hcf hk
      obtain rfl : l = l' := by omega
      rw [update_self] at hv ⊢
      exact hx hv
    · rw [← (hsame j).resolve_left hij] at hv ⊢
      obtain ⟨hl, hsp | ⟨e₂, he₂⟩⟩ := h.down he₀ hv fun hst => hij (hs _ _ hst)
      · exact ⟨hl, .inl hsp⟩
      · exact ⟨hl, .inr (hkeep he₂)⟩
  · have hnone : ∀ g, w.stale ≠ some (.entry g (idx b')) := fun g => by rw [hstale]; simp
    -- the node that `x` points to has its parent in `f`
    have hpatched : R' = R → l' = l → b' = 512 * b + i → ∃ g e', w.cell g = some (.node R' (l' + 1) (b' / 512) e') ∧
        (e' (idx b')).v = true ∧ (e' (idx b')).ppn = k ∧ w.stale ≠ some (.entry g (idx b')) ∧ ¬ Special l' b' := by
      rintro rfl rfl rfl
      obtain ⟨hxv, hppn, hsp⟩ := hchild k e₁ hk
      refine ⟨f, update e i x, by rw [child_div]; exact hcf, ?_, ?_, hnone f, hsp⟩
      · rw [child_idx, update_self]
        exact hxv
      · rw [child_idx, update_self]
        exact hppn
    rcases hback hk with ⟨e₀, he₀, -⟩ | ⟨hl', hR, hb, -⟩
    swap
    · exact hpatched hR hl' hb
    obtain ⟨p, ep, hp, hpv, hpk, -, hpsp⟩ := h.up he₀ hl
    by_cases hpf : p = f
    · subst hpf
      obtain ⟨rfl, hll, rfl, rfl⟩ := node_inj hf hp
      obtain rfl : l = l' := by omega
      by_cases hji : idx b' = i
      · exact hpatched rfl rfl (by rw [← hji, child_eq])
      · refine ⟨p, update e i x, hcf, ?_, ?_, hnone p, hpsp⟩
        · rw [update_of_ne hji]
          exact hpv
        · rw [update_of_ne hji]
          exact hpk
    · rcases hcell p hpf with heq | ⟨hplain, -⟩
      · exact ⟨p, ep, heq.trans hp, hpv, hpk, hnone p, hpsp⟩
      · exact absurd hp hplain.ne_node

/-- A new node, with no valid entries, gets the entry `i` of the node `f`. -/
theorem link (h : Trees v) (hs : v.stale = none) (hf : v.cell f = some (.node R (l + 1) b e))
    (hi : (e i).v = false) (hg : Plain (v.cell g)) (hx : x.v = true) (hppn : x.ppn = g)
    (hleaf : x.isLeaf = true ↔ l = 0) (hsp : ¬ Special l (512 * b + i)) (hnew : ∀ j, (e' j).v = false) :
    Trees ((v.upd f (some (.node R (l + 1) b (update e i x)))).upd g
      (some (.node R l (512 * b + i) e'))) := by
  have hfg : f ≠ g := by
    rintro rfl
    exact hg.ne_node hf
  refine h.patch (i := i) (x := x) (by simp [hs]) hs hf (by simp [hfg]) (fun k hkf => ?_) (fun _ => ⟨hleaf, .inr ⟨e', ?_⟩⟩)
    fun k e₁ hk => ?_
  · by_cases hkg : k = g
    · subst hkg
      exact .inr ⟨hg, e', by simp, hnew⟩
    · exact .inl (by simp [hkf, hkg])
  · rw [hppn, upd_cell, update_self]
  · by_cases hkg : k = g
    · exact ⟨hx, hppn.trans hkg.symm, hsp⟩
    · -- an old node at this place would have the entry `i`
      by_cases hkf : k = f
      · subst hkf
        simp [hkg] at hk
      · simp only [upd_cell, update_of_ne hkf, update_of_ne hkg] at hk
        obtain ⟨p, ep, hp, hpv, -, -⟩ := h.up hk (by have := (h.level hf).1; omega)
        rw [child_div] at hp
        rw [child_idx] at hpv
        obtain rfl := h.unique hf hp
        obtain ⟨-, -, -, rfl⟩ := node_inj hf hp
        rw [hi] at hpv
        cases hpv

/-- The entry `i` of the node `f` changes, and nothing that it points to is lost. -/
theorem entry (h : Trees v) (hs : ∀ g j, v.stale = some (.entry g j) → g = f ∧ j = i)
    (hf : v.cell f = some (.node R (l + 1) b e))
    (hx : x.v = true → (x.isLeaf = true ↔ l = 0) ∧
      (Special l (512 * b + i) ∧ x.perm.u = false ∨ ∃ e', v.cell x.ppn = some (.node R l (512 * b + i) e')))
    (hchild : ∀ k e', v.cell k = some (.node R l (512 * b + i) e') → x.v = true ∧ x.ppn = k) :
    Trees { v.upd f (some (.node R (l + 1) b (update e i x))) with stale := none } := by
  have hcell : ∀ {k e'}, update v.cell f (some (.node R (l + 1) b (update e i x))) k =
      some (.node R l (512 * b + i) e') ↔ v.cell k = some (.node R l (512 * b + i) e') := by
    intro k e'
    by_cases hk : k = f
    · subst hk
      simp [hf]
    · rw [update_of_ne hk]
  refine h.patch (x := x) hs rfl hf (by simp) (fun k hk => .inl (by simp [hk])) (fun hv => ?_) fun k e' hk => ?_
  · exact ⟨(hx hv).1, (hx hv).2.imp_right fun he => he.imp fun e' he' => hcell.mpr he'⟩
  · have hk := hcell.mp hk
    obtain ⟨-, -, -, -, -, -, hsp⟩ := h.up hk (by have := (h.level hf).1; omega)
    exact ⟨(hchild k e' hk).1, (hchild k e' hk).2, hsp⟩

/-- A node without valid entries goes, and the entry that points to it is stale. -/
theorem drop (h : Trees v) (hs : v.stale = none) (hf : v.cell f = some (.node R l b e))
    (hempty : 0 < l → ∀ j, (e j).v = false) {r : Option Ref}
    (hparent : l < 3 → ∃ g e', v.cell g = some (.node R (l + 1) (b / 512) e') ∧ r = some (.entry g (idx b)))
    (hroot : l = 3 → ∀ g j, r ≠ some (.entry g j)) :
    Trees { v.upd f none with stale := r } := by
  generalize hw : ({ v.upd f none with stale := r } : View) = w
  have hcf : w.cell f = none := by rw [← hw]; simp
  have hcell : ∀ {k}, k ≠ f → w.cell k = v.cell k := fun hkf => by rw [← hw]; simp [hkf]
  have hstale : w.stale = r := by rw [← hw]
  have hne : ∀ {k c}, w.cell k = some c → k ≠ f := by
    rintro k c hk rfl
    rw [hcf] at hk
    cases hk
  have hback : ∀ {k c}, w.cell k = some c → v.cell k = some c := fun hk => by rw [← hcell (hne hk)]; exact hk
  refine ⟨fun hk => h.level (hback hk), fun {k R' l' b' e₁ j} hk hv hst => ?_, fun {k R' l' b' e₁} hk hl => ?_⟩
  · obtain ⟨hlf, hsp | ⟨e₂, he₂⟩⟩ := h.down (hback hk) hv (by rw [hs]; nofun)
    · exact ⟨hlf, .inl hsp⟩
    · refine ⟨hlf, .inr ⟨e₂, ?_⟩⟩
      rw [hcell]
      · exact he₂
      · -- the entry would be the stale one
        intro hpf
        rw [hpf] at he₂
        obtain ⟨rfl, rfl, rfl, -⟩ := node_inj hf he₂
        have hl3 := (h.level (hback hk)).1
        obtain ⟨g, e', hg, hr⟩ := hparent (by omega)
        rw [child_div] at hg
        rw [child_idx] at hr
        obtain rfl := h.unique (hback hk) hg
        exact hst (hstale.trans hr)
  · obtain ⟨p, ep, hp, hpv, hpk, -, hpsp⟩ := h.up (hback hk) hl
    have hpf : p ≠ f := by
      rintro rfl
      obtain ⟨-, rfl, -, rfl⟩ := node_inj hf hp
      rw [hempty (by omega)] at hpv
      cases hpv
    refine ⟨p, ep, by rw [hcell hpf]; exact hp, hpv, hpk, ?_, hpsp⟩
    intro hst
    rw [hstale] at hst
    by_cases hl3 : l = 3
    · exact hroot hl3 _ _ hst
    · have hlt : l < 3 := by have := (h.level hf).1; omega
      obtain ⟨g, e', hg, hr⟩ := hparent hlt
      obtain ⟨g', e'', hg', -, hgf, -⟩ := h.up hf hlt
      obtain rfl := h.unique hg hg'
      rw [hr] at hst
      injection hst with hst
      injection hst with h₁ h₂
      subst h₁
      obtain ⟨-, -, -, rfl⟩ := node_inj hp hg'
      rw [← h₂] at hpk
      exact hne hk (hpk.symm.trans hgf)

end Trees

/-- No page table and no trapframe of a process is lost. -/
theorem Held.mono (h : Held v) (hs : ∀ q, v.stale ≠ some (.tf q) ∧ v.stale ≠ some (.root q))
    (hproc : w.proc = v.proc)
    (htf : ∀ {f q}, v.cell f = some (.tf q) → w.stale ≠ some (.tf q) → w.cell f = some (.tf q))
    (hroot : ∀ {q P R e}, v.proc q = some P → P.pagetable = some R → w.stale ≠ some (.root q) →
      v.cell R = some (.node R 3 0 e) → ∃ e', w.cell R = some (.node R 3 0 e')) : Held w where
  tf hq hf hst := by
    rw [hproc] at hq
    exact htf (h.tf hq hf (hs _).1) hst
  root hq hR hst := by
    rw [hproc] at hq
    obtain ⟨e, he⟩ := h.root hq hR (hs _).2
    exact hroot hq hR hst he
  sole hq hq' := by
    rw [hproc] at hq hq'
    exact h.sole hq hq'

/-! ### The changes of operations -/

/-- The views after `kfree f`. -/
inductive Frees (v : View) (f : Frame) : View → Prop
  | plain (hf : v.cell f = some .loose ∨ v.cell f = some .blank) : Frees v f (v.upd f none)
  /-- A page, or a page-table page without valid entries. -/
  | node {R g : Frame} {l b : Nat} {e e' : Fin 512 → Pte} (hf : v.cell f = some (.node R l b e)) (hl : l < 3)
      (hempty : 0 < l → ∀ j, (e j).v = false) (hg : v.cell g = some (.node R (l + 1) (b / 512) e')) :
      Frees v f { v.upd f none with stale := some (.entry g (idx b)) }
  | root {b : Nat} {e : Fin 512 → Pte} (hf : v.cell f = some (.node f 3 b e)) (hempty : ∀ j, (e j).v = false)
      {r : Option Ref} (hr : r = none ∧ (∀ q P, v.proc q = some P → P.pagetable ≠ some f) ∨
        ∃ q P, r = some (.root q) ∧ v.proc q = some P ∧ P.pagetable = some f) :
      Frees v f { v.upd f none with stale := r }
  | tf {q : Slot} (hf : v.cell f = some (.tf q)) : Frees v f { v.upd f none with stale := some (.tf q) }

/-- The views after the entry `i` of `f` has become `x`. -/
inductive Stores (v : View) (f : Frame) (i : Fin 512) (x : Pte) : View → Prop
  /-- The entry points to a new node: a page, or a page-table page filled with zeros. -/
  | link {R g : Frame} {l b : Nat} {e : Fin 512 → Pte} (hs : v.stale = none)
      (hf : v.cell f = some (.node R (l + 1) b e)) (hi : (e i).v = false)
      (hg : v.cell g = some (if l = 0 then .loose else .blank)) (hx : x.v = true) (hppn : x.ppn = g)
      (hleaf : x.isLeaf = true ↔ l = 0) (hsp : ¬ Special l (512 * b + i)) :
      Stores v f i x ((v.upd f (some (.node R (l + 1) b (update e i x)))).upd g
        (some (.node R l (512 * b + i) fun _ => .zero)))
  /-- The entry for the trampoline or the trapframe. -/
  | special {R : Frame} {b : Nat} {e : Fin 512 → Pte} (hs : v.stale = none)
      (hf : v.cell f = some (.node R 1 b e)) (hsp : Special 0 (512 * b + i))
      (hleaf : x.v = true → x.isLeaf = true ∧ x.perm.u = false) :
      Stores v f i x { v.upd f (some (.node R 1 b (update e i x))) with stale := none }
  /-- The stale entry. -/
  | erase {R : Frame} {l b : Nat} {e : Fin 512 → Pte} (hs : v.stale = some (.entry f i))
      (hf : v.cell f = some (.node R (l + 1) b e)) (hx : x.v = false) :
      Stores v f i x { v.upd f (some (.node R (l + 1) b (update e i x))) with stale := none }
  /-- The same page with other flags. -/
  | reflag {R : Frame} {b : Nat} {e : Fin 512 → Pte} (hs : v.stale = none)
      (hf : v.cell f = some (.node R 1 b e)) (hi : (e i).v = true) (hx : x.v = true)
      (hppn : x.ppn = (e i).ppn) (hleaf : x.isLeaf = true) (hu : x.perm.u = false) :
      Stores v f i x { v.upd f (some (.node R 1 b (update e i x))) with stale := none }

/-- The views after `f` has been filled with zeros: it may be the root of a new page table. -/
inductive Clears (v : View) (f : Frame) : View → Prop
  | loose (hf : v.cell f = some .loose) : Clears v f (v.upd f (some .loose))
  | blank (hf : v.cell f = some .loose) : Clears v f (v.upd f (some .blank))
  | root (hf : v.cell f = some .loose) : Clears v f (v.upd f (some (.node f 3 0 fun _ => .zero)))

/-- The views after the record of `q` has become `P`. -/
inductive Sets (v : View) (q : Slot) (P : Proc) : View → Prop
  | same (hs : v.stale = none ∨ v.stale = some (.tf q) ∨ v.stale = some (.root q))
      (htf : ∀ f, P.tf = some f → v.cell f = some (.tf q))
      (hroot : ∀ R, P.pagetable = some R → (∃ e, v.cell R = some (.node R 3 0 e)) ∧
        ∀ q' P', q' ≠ q → v.proc q' = some P' → P'.pagetable ≠ some R) :
      Sets v q P { v with proc := update v.proc q (some P), stale := none }
  /-- A frame becomes the trapframe. -/
  | tf {f : Frame} (hs : v.stale = none) (hf : v.cell f = some .loose) (htf : P.tf = some f)
      (hroot : P.pagetable = none) :
      Sets v q P { v.upd f (some (.tf q)) with proc := update v.proc q (some P), stale := none }

/-- A frame with another use stays. -/
theorem View.cell_upd_of_ne {c : Cell} {c' : Option Cell} (hg : v.cell g = some c) (hf : v.cell f ≠ some c) :
    (v.upd f c').cell g = some c := by
  have hgf : g ≠ f := by
    rintro rfl
    exact hf hg
  rwa [upd_cell, update_of_ne hgf]

theorem View.ne_none_of_upd {c' : Option Cell} (hf : c' ≠ none → v.cell f ≠ none)
    (hg : (v.upd f c').cell g ≠ none) : v.cell g ≠ none := by
  by_cases hgf : g = f
  · subst hgf
    exact hf (by simpa using hg)
  · simpa [hgf] using hg

theorem View.not_stale (hs : v.stale = none) (q : Slot) : v.stale ≠ some (.tf q) ∧ v.stale ≠ some (.root q) := by
  simp [hs]

namespace Good

theorem plain (h : Good K v) (hs : v.stale = none) (hf : Plain (v.cell f)) {c : Option Cell}
    (hc : ∀ R l b e, c ≠ some (.node R l b e)) (hrange : c ≠ none → K.kend ≤ f ∧ f < PHYSTOP) :
    Good K (v.upd f c) where
  trees := by
    refine h.trees.congr (fun {g _ _ _ _} => ?_) (by rw [hs]; nofun) (by rw [upd_stale, hs]; nofun)
    by_cases hg : g = f
    · subst hg
      simp only [upd_cell, update_self]
      exact iff_of_false (hc _ _ _ _) hf.ne_node
    · simp [hg]
  held := by
    exact h.held.mono (not_stale hs) rfl (fun hg _ => cell_upd_of_ne hg hf.ne_tf)
      fun _ _ _ hR => ⟨_, cell_upd_of_ne hR hf.ne_node⟩
  range {g} hg := by
    by_cases hgf : g = f
    · subst hgf
      simp only [upd_cell, update_self] at hg
      exact hrange hg
    · simp only [upd_cell, update_of_ne hgf] at hg
      exact h.range hg

/-- The root of an empty page table. -/
theorem newRoot (h : Good K v) (hs : v.stale = none) (hf : v.cell f = some .loose) :
    Good K (v.upd f (some (.node f 3 0 fun _ => .zero))) := by
  have hplain : Plain (v.cell f) := by rw [hf]; exact trivial
  have hkeep : ∀ {k R l b e}, v.cell k = some (.node R l b e) →
      (v.upd f (some (.node f 3 0 fun _ => .zero))).cell k = some (.node R l b e) :=
    fun hk => cell_upd_of_ne hk hplain.ne_node
  have hback : ∀ {k R l b e}, (v.upd f (some (.node f 3 0 fun _ => .zero))).cell k = some (.node R l b e) →
      (k = f ∧ R = f ∧ l = 3 ∧ b = 0 ∧ ∀ i, (e i).v = false) ∨ v.cell k = some (.node R l b e) := by
    intro k R l b e hk
    by_cases hkf : k = f
    · subst hkf
      rw [upd_cell, update_self] at hk
      obtain ⟨rfl, rfl, rfl, rfl⟩ := node_inj rfl hk
      exact .inl ⟨rfl, rfl, rfl, rfl, fun _ => rfl⟩
    · exact .inr (by simpa [hkf] using hk)
  refine ⟨⟨fun hk => ?_, fun hk hv hst => ?_, fun hk hl => ?_⟩, h.held.mono (not_stale hs) rfl
    (fun hg _ => cell_upd_of_ne hg hplain.ne_tf) fun _ _ _ hR => ⟨_, hkeep hR⟩,
    fun hg => h.range (ne_none_of_upd (by simp [hf]) hg)⟩
  · rcases hback hk with ⟨rfl, rfl, rfl, rfl, -⟩ | hk
    · exact ⟨le_rfl, fun _ => ⟨rfl, rfl⟩⟩
    · exact h.trees.level hk
  · rcases hback hk with ⟨-, -, -, -, hempty⟩ | hk
    · rw [hempty] at hv
      cases hv
    · obtain ⟨hleaf, hsp | ⟨e', he'⟩⟩ := h.trees.down hk hv (by rw [hs]; nofun)
      · exact ⟨hleaf, .inl hsp⟩
      · exact ⟨hleaf, .inr ⟨e', hkeep he'⟩⟩
  · rcases hback hk with ⟨-, -, rfl, -⟩ | hk
    · exact absurd hl (lt_irrefl 3)
    · obtain ⟨p, ep, hp, hv, hppn, hst, hsp⟩ := h.trees.up hk hl
      exact ⟨p, ep, hkeep hp, hv, hppn, hst, hsp⟩

theorem clears (h : Good K v) (hs : v.stale = none) (hw : Clears v f w) : Good K w := by
  cases hw with
  | loose hf | blank hf => exact h.plain hs (by rw [hf]; exact trivial) nofun fun _ => h.range (by rw [hf]; nofun)
  | root hf => exact h.newRoot hs hf

theorem frees (h : Good K v) (hs : v.stale = none) (hw : Frees v f w) : Good K w := by
  have hproc := not_stale hs
  have hkeep : ∀ {g c c'}, v.cell f = some c' → v.cell g = some c → c ≠ c' → (v.upd f none).cell g = some c :=
    fun hf hg hne => cell_upd_of_ne hg fun hf' => hne (Option.some.inj (hf'.symm.trans hf))
  have hrange : ∀ {k}, (v.upd f none).cell k ≠ none → K.kend ≤ k ∧ k < PHYSTOP :=
    fun hk => h.range (ne_none_of_upd (fun h => absurd rfl h) hk)
  cases hw with
  | plain hf =>
    refine h.plain hs ?_ nofun nofun
    rcases hf with hf | hf <;> rw [hf] <;> exact trivial
  | @node R g l b e e' hf hl hempty hg =>
    refine ⟨h.trees.drop hs hf hempty (fun _ => ⟨g, e', hg, rfl⟩) fun h3 => by omega,
      h.held.mono hproc rfl (fun hk _ => hkeep hf hk nofun) fun {_ _ R' e₁} _ _ _ hR => ⟨e₁, hkeep hf hR ?_⟩,
      hrange⟩
    intro heq
    injection heq with _ h3
    omega
  | @root b e hf hempty r hr =>
    refine ⟨h.trees.drop hs hf (fun _ => hempty) (fun h3 => absurd h3 (lt_irrefl 3)) fun _ g j hrj => ?_,
      h.held.mono hproc rfl (fun hk _ => hkeep hf hk nofun) fun {q' P' R' e₁} hq' hR' hst hR => ⟨e₁, hkeep hf hR ?_⟩,
      hrange⟩
    · rcases hr with ⟨hr, -⟩ | ⟨q, P, hr, -⟩ <;> rw [hr] at hrj <;> cases hrj
    · intro heq
      injection heq with hRf
      subst hRf
      rcases hr with ⟨-, hnone⟩ | ⟨q, P, hr, hq, hqR⟩
      · exact hnone q' P' hq' hR'
      · obtain rfl := h.held.sole hq hq' hqR hR'
        exact hst hr
  | @tf q hf =>
    refine ⟨h.trees.congr (fun {g R l b e} => ?_) (by rw [hs]; nofun) nofun,
      h.held.mono hproc rfl (fun {g q'} hk hst => hkeep hf hk ?_) fun _ _ _ hR => ⟨_, hkeep hf hR nofun⟩,
      hrange⟩
    · constructor
      · intro hg
        have hgf : g ≠ f := by
          rintro rfl
          simp at hg
        simpa [hgf] using hg
      · exact fun hg => hkeep hf hg nofun
    · intro heq
      injection heq with heq
      exact hst (by rw [heq])

/-- An entry changes and the nodes stay. -/
theorem entry_held (h : Good K v) (hs : ∀ q, v.stale ≠ some (.tf q) ∧ v.stale ≠ some (.root q))
    (hf : v.cell f = some (.node R l b e))
    (htrees : Trees { v.upd f (some (.node R l b e')) with stale := none }) :
    Good K { v.upd f (some (.node R l b e')) with stale := none } := by
  refine ⟨htrees, h.held.mono hs rfl (fun hg _ => cell_upd_of_ne hg (by simp [hf])) fun {_ _ R' e₁} _ _ _ hR => ?_,
    fun hg => h.range (ne_none_of_upd (by simp [hf]) hg)⟩
  by_cases hRf : R' = f
  · subst hRf
    obtain ⟨rfl, rfl, rfl, -⟩ := node_inj hf hR
    exact ⟨e', by simp⟩
  · exact ⟨e₁, by simpa [hRf] using hR⟩

theorem stores (h : Good K v) (hw : Stores v f i x w) : Good K w := by
  cases hw with
  | @link R g l b e hs hf hi hg hx hppn hleaf hsp =>
    have hplain : Plain (v.cell g) := by
      rw [hg]
      split <;> exact trivial
    refine ⟨h.trees.link hs hf hi hplain hx hppn hleaf hsp fun _ => rfl,
      h.held.mono (not_stale hs) rfl (fun {k q} hk _ => ?_) fun {_ _ R' e₁} _ _ _ hR => ?_, fun {k} hk => ?_⟩
    · have hkg : k ≠ g := by
        rintro rfl
        exact hplain.ne_tf hk
      rw [upd_cell, update_of_ne hkg]
      exact cell_upd_of_ne hk (by simp [hf])
    · have hRg : R' ≠ g := by
        rintro rfl
        exact hplain.ne_node hR
      by_cases hRf : R' = f
      · subst hRf
        obtain ⟨rfl, h3, rfl, -⟩ := node_inj hf hR
        exact ⟨update e i x, by simp [hRg, h3]⟩
      · exact ⟨e₁, by simpa [hRf, hRg] using hR⟩
    · by_cases hkg : k = g
      · exact h.range (by simp [hkg, hg])
      · rw [upd_cell, update_of_ne hkg] at hk
        exact h.range (ne_none_of_upd (by simp [hf]) hk)
  | @special R b e hs hf hsp hleaf =>
    refine h.entry_held (not_stale hs) hf (h.trees.entry (by simp [hs]) hf
      (fun hx => ⟨iff_of_true (hleaf hx).1 rfl, .inl ⟨hsp, (hleaf hx).2⟩⟩) fun k e' hk => ?_)
    obtain ⟨-, -, -, -, -, -, hno⟩ := h.trees.up hk (by omega)
    exact absurd hsp hno
  | @erase R l b e hs hf hx =>
    refine h.entry_held (by simp [hs]) hf (h.trees.entry (fun g j hst => ?_) hf
      (fun hv => ?_) fun k e' hk => ?_)
    · rw [hs] at hst
      injection hst with hst
      injection hst with h₁ h₂
      exact ⟨h₁.symm, h₂.symm⟩
    · rw [hx] at hv
      cases hv
    · have hl3 := (h.trees.level hf).1
      obtain ⟨g, e₁, hg, -, -, hst, -⟩ := h.trees.up hk (by omega)
      rw [child_div] at hg
      rw [child_idx] at hst
      obtain rfl := h.trees.unique hf hg
      exact absurd hs hst
  | @reflag R b e hs hf hi hx hppn hleaf hu =>
    have hst : v.stale ≠ some (.entry f i) := by rw [hs]; nofun
    refine h.entry_held (not_stale hs) hf (h.trees.entry (by simp [hs]) hf
      (fun _ => ⟨iff_of_true hleaf rfl, ?_⟩) fun k e' hk => ⟨hx, ?_⟩)
    · rw [hppn]
      exact (h.trees.down hf hi hst).2.imp_left fun hsp => ⟨hsp.1, hu⟩
    · obtain ⟨g, e₁, hg, -, hgk, -⟩ := h.trees.up hk (by omega)
      rw [child_div] at hg
      rw [child_idx] at hgk
      obtain rfl := h.trees.unique hf hg
      obtain ⟨-, -, -, rfl⟩ := node_inj hf hg
      rw [hppn]
      exact hgk

variable {P : Proc}

theorem same (h : Good K v)
    (hs : v.stale = none ∨ v.stale = some (.tf q) ∨ v.stale = some (.root q))
    (htf : ∀ f, P.tf = some f → v.cell f = some (.tf q))
    (hroot : ∀ R, P.pagetable = some R → (∃ e, v.cell R = some (.node R 3 0 e)) ∧
      ∀ q' P', q' ≠ q → v.proc q' = some P' → P'.pagetable ≠ some R) :
    Good K { v with proc := update v.proc q (some P), stale := none } := by
  have hstale : ∀ q', q' ≠ q → v.stale ≠ some (.tf q') ∧ v.stale ≠ some (.root q') := by
    intro q' hq
    rcases hs with hs | hs | hs <;> rw [hs]
    · exact ⟨nofun, nofun⟩
    · refine ⟨fun heq => ?_, nofun⟩
      injection heq with heq
      injection heq with heq
      exact hq heq.symm
    · refine ⟨nofun, fun heq => ?_⟩
      injection heq with heq
      injection heq with heq
      exact hq heq.symm
  have hentry : ∀ f i, v.stale ≠ some (.entry f i) := by
    intro f i
    rcases hs with hs | hs | hs <;> rw [hs] <;> nofun
  refine ⟨h.trees.congr Iff.rfl hentry nofun, ⟨fun {q' P' f} hq' hf _ => ?_, fun {q' P' R} hq' hR _ => ?_,
    fun {q₁ q₂ P₁ P₂ R} h₁ h₂ hR₁ hR₂ => ?_⟩, h.range⟩
  · by_cases hq : q' = q
    · subst hq
      obtain rfl : P = P' := by simpa using hq'
      exact htf f hf
    · simp only [update_of_ne hq] at hq'
      exact h.held.tf hq' hf (hstale q' hq).1
  · by_cases hq : q' = q
    · subst hq
      obtain rfl : P = P' := by simpa using hq'
      exact (hroot R hR).1
    · simp only [update_of_ne hq] at hq'
      exact h.held.root hq' hR (hstale q' hq).2
  · by_cases hq₁ : q₁ = q <;> by_cases hq₂ : q₂ = q
    · rw [hq₁, hq₂]
    · subst hq₁
      obtain rfl : P = P₁ := by simpa using h₁
      simp only [update_of_ne hq₂] at h₂
      exact absurd hR₂ ((hroot R hR₁).2 q₂ P₂ hq₂ h₂)
    · subst hq₂
      obtain rfl : P = P₂ := by simpa using h₂
      simp only [update_of_ne hq₁] at h₁
      exact absurd hR₁ ((hroot R hR₂).2 q₁ P₁ hq₁ h₁)
    · simp only [update_of_ne hq₁] at h₁
      simp only [update_of_ne hq₂] at h₂
      exact h.held.sole h₁ h₂ hR₁ hR₂

theorem sets (h : Good K v) (hw : Sets v q P w) : Good K w := by
  cases hw with
  | same hs htf hroot => exact h.same hs htf hroot
  | @tf f hs hf htf hroot =>
    have hplain : Plain (v.cell f) := by rw [hf]; exact trivial
    have hset := h.plain (c := some (.tf q)) hs hplain nofun fun _ => h.range (by rw [hf]; nofun)
    refine hset.same (.inl hs) (fun g hg => ?_) fun R hR => ?_
    · cases htf.symm.trans hg
      simp
    · rw [hroot] at hR
      cases hR

end Good

/-! ### Operations -/

/-- What an operation needs of the view of its thread, and the view that it leaves. Where nobody else
    runs, the thread knows when `kalloc` finds a page. -/
def Op.wp (K : Link) (alone : Bool) : Prog.Spec ⟨Op, Op.Res⟩ View
  | .kalloc, Q, v => v.stale = none ∧ ((alone = true → v.left = 0) → Q none v) ∧
      ((alone = true → 0 < v.left) → ∀ f, v.cell f = none → K.kend ≤ f → f < PHYSTOP → Q (some f) (v.take f))
  | .kfree f, Q, v => v.stale = none ∧ ∃ w, Frees v f w ∧ Q () { w with left := w.left + 1 }
  | .clear f, Q, v => v.stale = none ∧ ∃ w, Clears v f w ∧ Q () w
  | .load f i, Q, v => ∃ R l b e, v.cell f = some (.node R (l + 1) b e) ∧ Q (e i) v
  | .store f i x, Q, v => ∃ w, Stores v f i x w ∧ Q () w
  | .getProc q, Q, v => ∃ P, v.proc q = some P ∧ Q P v
  | .setProc q g, Q, v => ∃ P w, v.proc q = some P ∧ Sets v q (g P) w ∧ Q () w

theorem Op.wp_mono {alone : Bool} : Prog.Spec.Mono (Op.wp K alone) := by
  intro o Q Q' v hQ h
  cases o with
  | kalloc => exact ⟨h.1, fun ha => hQ _ _ (h.2.1 ha), fun ha f h₁ h₂ h₃ => hQ _ _ (h.2.2 ha f h₁ h₂ h₃)⟩
  | kfree f | clear f =>
    obtain ⟨hs, w, hw, hq⟩ := h
    exact ⟨hs, w, hw, hQ _ _ hq⟩
  | load f i =>
    obtain ⟨R, l, b, e, hf, hq⟩ := h
    exact ⟨R, l, b, e, hf, hQ _ _ hq⟩
  | store f i x =>
    obtain ⟨w, hw, hq⟩ := h
    exact ⟨w, hw, hQ _ _ hq⟩
  | getProc q =>
    obtain ⟨P, hP, hq⟩ := h
    exact ⟨P, hP, hQ _ _ hq⟩
  | setProc q g =>
    obtain ⟨P, w, hP, hw, hq⟩ := h
    exact ⟨P, w, hP, hw, hQ _ _ hq⟩

/-- From the view `v` the program panics with a message in `E` or returns with `Q`. -/
abbrev Wp {α : Type} (K : Link) (alone : Bool) (E : String → Prop) (x : Kernel α) (Q : α → View → Prop) (v : View) : Prop :=
  Prog.wp (Op.wp K alone) E x Q v

section Rules

variable {alone : Bool} {E : String → Prop}

theorem Wp.mono {α : Type} {x : Kernel α} {Q Q' : α → View → Prop} (h : Wp K alone E x Q v) (hQ : ∀ a w, Q a w → Q' a w) :
    Wp K alone E x Q' v :=
  Prog.wp.mono Op.wp_mono h hQ

/-- A program and what comes after it. -/
theorem Wp.seq {α β : Type} {x : Kernel α} {f : α → Kernel β} {Q : α → View → Prop} {Q' : β → View → Prop}
    (h : Wp K alone E x Q v) (hf : ∀ a w, Q a w → Wp K alone E (f a) Q' w) : Wp K alone E (x >>= f) Q' v :=
  Prog.wp_bind.mpr (h.mono hf)

theorem wp_kalloc {Q : Option Frame → View → Prop} (hs : v.stale = none) (hnone : (alone = true → v.left = 0) → Q none v)
    (hsome : (alone = true → 0 < v.left) → ∀ f, v.cell f = none → K.kend ≤ f → f < PHYSTOP →
      Q (some f) (v.take f)) : Wp K alone E kalloc Q v :=
  ⟨hs, hnone, hsome⟩

variable {Q : Unit → View → Prop}

theorem wp_kfree (hs : v.stale = none) (hw : Frees v f w)
    (hQ : Q () { w with left := w.left + 1 }) : Wp K alone E (kfree f) Q v :=
  ⟨hs, w, hw, hQ⟩

theorem wp_clear (hs : v.stale = none) (hw : Clears v f w) (hQ : Q () w) :
    Wp K alone E (clear f) Q v :=
  ⟨hs, w, hw, hQ⟩

theorem wp_load {Q : Pte → View → Prop} (hf : v.cell f = some (.node R (l + 1) b e)) (hQ : Q (e i) v) :
    Wp K alone E (load f i) Q v :=
  ⟨R, l, b, e, hf, hQ⟩

theorem wp_store (hw : Stores v f i x w) (hQ : Q () w) :
    Wp K alone E (store f i x) Q v :=
  ⟨w, hw, hQ⟩

variable {P : Proc}

theorem wp_getProc {Q : Proc → View → Prop} (hq : v.proc q = some P) (hQ : Q P v) :
    Wp K alone E (getProc q) Q v :=
  ⟨P, hq, hQ⟩

theorem wp_setProc {g : Proc → Proc} (hq : v.proc q = some P)
    (hw : Sets v q (g P) w) (hQ : Q () w) : Wp K alone E (setProc q g) Q v :=
  ⟨P, w, hq, hw, hQ⟩

end Rules

end Xv6.Mem
