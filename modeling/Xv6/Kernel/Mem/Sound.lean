import Xv6.Kernel.Mem.Moves

/-! The operations do what their specifications say. -/

namespace Xv6.Mem

open View Function
open Procs (Slot)

variable {K : Link} {alone : Bool} {v w : View} {s t : State} {f : Frame} {i : Fin 512} {x : Pte} {q : Slot}

/-- The state is as the view says, and the free list has none of its frames. -/
structure Fits (K : Link) (alone : Bool) (v : View) (s : State) : Prop where
  good : Good K v
  table : ∀ {f R l b e}, v.cell f = some (.node R (l + 1) b e) → s.pte f = e
  blank : ∀ {f}, v.cell f = some .blank → s.pte f = fun _ => .zero
  proc : ∀ {q P}, v.proc q = some P → s.proc q = P
  used : ∀ {f}, v.cell f ≠ none → f ∉ s.free
  nodup : s.free.Nodup
  range : ∀ {f}, f ∈ s.free → K.kend ≤ f ∧ f < PHYSTOP
  left : alone = true → s.free.length = v.left

/-- What a step of a thread does not touch: it moves frames between the free list and its own, and
    writes to no others. -/
structure Local (v : View) (s : State) (w : View) (t : State) : Prop where
  pool : ∀ f, (f ∈ t.free ∨ w.cell f ≠ none) ↔ (f ∈ s.free ∨ v.cell f ≠ none)
  pte : ∀ f, f ∉ s.free → v.cell f = none → t.pte f = s.pte f
  proc : ∀ q, v.proc q = none → t.proc q = s.proc q
  procs : ∀ q, w.proc q = none ↔ v.proc q = none

theorem Frees.cases (h : Frees v f w) :
    w.cell = update v.cell f none ∧ w.proc = v.proc ∧ w.left = v.left ∧ v.cell f ≠ none := by
  cases h with
  | plain hf => exact ⟨rfl, rfl, rfl, by rcases hf with hf | hf <;> rw [hf] <;> nofun⟩
  | node hf | root hf | tf hf => exact ⟨rfl, rfl, rfl, by rw [hf]; nofun⟩

theorem Stores.cases (h : Stores v f i x w) :
    w.proc = v.proc ∧ w.left = v.left ∧ ∃ R l b e, v.cell f = some (.node R (l + 1) b e) ∧
      w.cell f = some (.node R (l + 1) b (update e i x)) ∧
      ∀ g, g ≠ f → w.cell g = v.cell g ∨ v.cell g ≠ none ∧ ∃ R l b, w.cell g = some (.node R l b fun _ => .zero) ∧
        (0 < l → v.cell g = some .blank) := by
  cases h with
  | @link R g l b e hs hf hi hg hx hppn hleaf hsp =>
    have hfg : f ≠ g := by
      rintro rfl
      rw [hf] at hg
      split at hg <;> cases hg
    refine ⟨rfl, rfl, R, l, b, e, hf, by simp [hfg], fun k hk => ?_⟩
    by_cases hkg : k = g
    · subst hkg
      refine .inr ⟨by rw [hg]; nofun, R, l, 512 * b + i, by simp, fun hl => ?_⟩
      rw [hg, if_neg (by omega)]
    · exact .inl (by simp [hk, hkg])
  | special hs hf | erase hs hf | reflag hs hf =>
    exact ⟨rfl, rfl, _, _, _, _, hf, by simp, fun k hk => .inl (by simp [hk])⟩

theorem Sets.cases {P : Proc} (h : Sets v q P w) :
    w.proc = update v.proc q (some P) ∧ w.left = v.left ∧
      ∀ g, w.cell g = v.cell g ∨ v.cell g = some .loose ∧ w.cell g = some (.tf q) := by
  cases h with
  | same => exact ⟨rfl, rfl, fun g => .inl rfl⟩
  | @tf f hs hf =>
    refine ⟨rfl, rfl, fun g => ?_⟩
    by_cases hg : g = f
    · subst hg
      exact .inr ⟨hf, by simp⟩
    · exact .inl (by simp [hg])

namespace Fits

theorem kalloc (h : Fits K alone v s) {Q : Option Frame → View → Prop} (hwp : Op.wp K alone .kalloc Q v) :
    ∃ r t w, Op.run K .kalloc s = .ok (r, t) ∧ Fits K alone w t ∧ Q r w ∧ Local v s w t := by
  obtain ⟨hs, hnone, hsome⟩ := hwp
  cases hfree : s.free with
  | nil =>
    have hleft : alone = true → v.left = 0 := fun ha => by rw [← h.left ha, hfree]; rfl
    exact ⟨none, s, v, by simp only [Op.run, hfree], h, hnone hleft, fun _ => Iff.rfl, fun _ _ _ => rfl,
      fun _ _ => rfl, fun _ => Iff.rfl⟩
  | cons f rest =>
    have hmem : f ∈ s.free := by rw [hfree]; exact List.mem_cons_self
    have hcell : v.cell f = none := by
      by_contra hne
      exact h.used hne hmem
    have hnodup := h.nodup
    rw [hfree] at hnodup
    have hleft : alone = true → v.left = rest.length + 1 := fun ha => by rw [← h.left ha, hfree]; rfl
    obtain ⟨hlo, hhi⟩ := h.range hmem
    have hne : ∀ {g c}, (v.take f).cell g = some c → c ≠ .loose → g ≠ f ∧ v.cell g = some c := by
      intro g c hg hc
      by_cases hgf : g = f
      · subst hgf
        simp only [take_cell, upd_cell, update_self] at hg
        exact absurd (Option.some.inj hg).symm hc
      · simp only [take_cell, upd_cell, update_of_ne hgf] at hg
        exact ⟨hgf, hg⟩
    refine ⟨some f, ({ s with free := rest } : State).setPte f fun _ => .fill 5, v.take f,
      by simp only [Op.run, hfree], ?_, hsome (fun ha => by rw [hleft ha]; omega) f hcell hlo hhi, ?_⟩
    · refine ⟨(h.good.plain (c := some .loose) hs (by rw [hcell]; exact trivial) nofun fun _ => ⟨hlo, hhi⟩).setLeft _, fun hg => ?_, fun hg => ?_,
        h.proc, fun {g} hg hmem' => ?_, hnodup.of_cons, fun hg => h.range (by rw [hfree]; exact List.mem_cons_of_mem _ hg),
        fun ha => ?_⟩
      · obtain ⟨hgf, hg⟩ := hne hg nofun
        simpa [hgf] using h.table hg
      · obtain ⟨hgf, hg⟩ := hne hg nofun
        simpa [hgf] using h.blank hg
      · by_cases hgf : g = f
        · subst hgf
          exact (List.nodup_cons.mp hnodup).1 hmem'
        · refine h.used ?_ (by rw [hfree]; exact List.mem_cons_of_mem _ hmem')
          simpa [hgf] using hg
      · rw [take_left, hleft ha]
        rfl
    · refine ⟨fun g => ?_, fun g hg _ => ?_, fun _ _ => rfl, fun _ => Iff.rfl⟩
      · rw [hfree]
        by_cases hgf : g = f
        · subst hgf
          simp
        · simp [hgf]
      · have hgf : g ≠ f := by
          rintro rfl
          exact hg hmem
        simp [hgf]

theorem kfree (h : Fits K alone v s) (hs : v.stale = none) (hw : Frees v f w) :
    ∃ t, Op.run K (.kfree f) s = .ok ((), t) ∧ Fits K alone { w with left := w.left + 1 } t ∧
      Local v s { w with left := w.left + 1 } t := by
  obtain ⟨hcell, hproc, hleft, hne⟩ := hw.cases
  obtain ⟨hlo, hhi⟩ := h.good.range hne
  have hgood : Good K w := h.good.frees hs hw
  have hback : ∀ {g c}, w.cell g = some c → g ≠ f ∧ v.cell g = some c := by
    intro g c hg
    rw [hcell] at hg
    by_cases hgf : g = f
    · subst hgf
      simp at hg
    · exact ⟨hgf, by simpa [hgf] using hg⟩
  refine ⟨({ s with free := f :: s.free } : State).setPte f fun _ => .fill 1, ?_, ?_, ?_⟩
  · simp only [Op.run]
    exact if_neg (not_or.mpr ⟨Nat.not_lt.mpr hlo, Nat.not_le.mpr hhi⟩)
  · refine ⟨hgood.setLeft _, fun hg => ?_, fun hg => ?_, fun hq => ?_, fun {g} hg hmem => ?_,
      List.nodup_cons.mpr ⟨h.used hne, h.nodup⟩, fun hg => ?_, fun ha => ?_⟩
    · obtain ⟨hgf, hg⟩ := hback hg
      simpa [hgf] using h.table hg
    · obtain ⟨hgf, hg⟩ := hback hg
      simpa [hgf] using h.blank hg
    · exact h.proc (hproc ▸ hq)
    · obtain ⟨c, hc⟩ := Option.ne_none_iff_exists'.mp hg
      obtain ⟨hgf, hg⟩ := hback hc
      rcases List.mem_cons.mp hmem with heq | hmem
      · exact hgf heq
      · exact h.used (by rw [hg]; nofun) hmem
    · rcases List.mem_cons.mp hg with rfl | hg
      · exact ⟨hlo, hhi⟩
      · exact h.range hg
    · change s.free.length + 1 = w.left + 1
      rw [h.left ha, hleft]
  · refine ⟨fun g => ?_, fun g _ hg => ?_, fun _ _ => rfl, fun q => by rw [hproc]⟩
    · change g ∈ f :: s.free ∨ w.cell g ≠ none ↔ _
      rw [hcell]
      by_cases hgf : g = f
      · subst hgf
        exact iff_of_true (.inl List.mem_cons_self) (.inr hne)
      · simp [hgf]
    · have hgf : g ≠ f := by
        rintro rfl
        exact hne hg
      simp [hgf]

theorem clear (h : Fits K alone v s) (hs : v.stale = none) (hw : Clears v f w) :
    Fits K alone w (s.setPte f fun _ => .zero) ∧ Local v s w (s.setPte f fun _ => .zero) := by
  obtain ⟨hf, c, hc, hcell, hproc, hleft⟩ : v.cell f = some .loose ∧ ∃ c, (Plain (some c) ∨ c = .node f 3 0 fun _ => .zero) ∧
      w.cell = update v.cell f (some c) ∧ w.proc = v.proc ∧ w.left = v.left := by
    cases hw with
    | loose hf | blank hf => exact ⟨hf, _, .inl (by exact trivial), rfl, rfl, rfl⟩
    | root hf => exact ⟨hf, _, .inr rfl, rfl, rfl, rfl⟩
  have hne : v.cell f ≠ none := by rw [hf]; nofun
  have hdom : ∀ g, w.cell g = none ↔ v.cell g = none := by
    intro g
    rw [hcell]
    by_cases hgf : g = f
    · subst hgf
      rw [update_self]
      exact iff_of_false nofun hne
    · rw [update_of_ne hgf]
  refine ⟨⟨h.good.clears hs hw, fun {g _ _ _ _} hg => ?_, fun {g} hg => ?_, fun hq => h.proc (hproc ▸ hq),
    fun {g} hg => h.used fun hn => hg ((hdom g).mpr hn), h.nodup, h.range, by rw [hleft]; exact h.left⟩,
    fun g => or_congr Iff.rfl (not_congr (hdom g)), fun g _ hg => ?_, fun _ _ => rfl, fun q => by rw [hproc]⟩
  · rw [hcell] at hg
    by_cases hgf : g = f
    · subst hgf
      rw [update_self] at hg
      rcases hc with hc | rfl
      · rw [Option.some.inj hg] at hc
        exact hc.elim
      · obtain ⟨-, -, -, rfl⟩ := node_inj rfl hg
        simp
    · rw [update_of_ne hgf] at hg
      simpa [hgf] using h.table hg
  · rw [hcell] at hg
    by_cases hgf : g = f
    · subst hgf
      simp
    · rw [update_of_ne hgf] at hg
      simpa [hgf] using h.blank hg
  · have hgf : g ≠ f := by
      rintro rfl
      exact hne hg
    simp [hgf]

theorem store (h : Fits K alone v s) (hw : Stores v f i x w) :
    Fits K alone w (s.setPte f (update (s.pte f) i x)) ∧
      Local v s w (s.setPte f (update (s.pte f) i x)) := by
  obtain ⟨hproc, hleft, R, l, b, e, hf, hwf, hother⟩ := hw.cases
  have hne : v.cell f ≠ none := by rw [hf]; nofun
  have hdom : ∀ g, w.cell g = none ↔ v.cell g = none := by
    intro g
    by_cases hgf : g = f
    · subst hgf
      rw [hwf, hf]
      exact iff_of_false nofun nofun
    · rcases hother g hgf with heq | ⟨hg, R', l', b', hg', -⟩
      · rw [heq]
      · rw [hg']
        exact iff_of_false nofun hg
  refine ⟨⟨h.good.stores hw, fun {g R' l' b' e'} hg => ?_, fun {g} hg => ?_, fun hq => h.proc (hproc ▸ hq),
    fun {g} hg => h.used fun hn => hg ((hdom g).mpr hn), h.nodup, h.range, by rw [hleft]; exact h.left⟩,
    fun g => ?_, fun g _ hg => ?_, fun _ _ => rfl, fun q => by rw [hproc]⟩
  · by_cases hgf : g = f
    · subst hgf
      obtain ⟨-, -, -, rfl⟩ := node_inj hwf hg
      simp [h.table hf]
    · rcases hother g hgf with heq | ⟨-, R₁, l₁, b₁, hg₁, hblank⟩
      · rw [heq] at hg
        simpa [hgf] using h.table hg
      · obtain ⟨-, rfl, -, rfl⟩ := node_inj hg₁ hg
        simpa [hgf] using h.blank (hblank (Nat.succ_pos l'))
  · have hgf : g ≠ f := ne_of_cell hg hwf nofun
    rcases hother g hgf with heq | ⟨-, R₁, l₁, b₁, hg₁, -⟩
    · rw [heq] at hg
      simpa [hgf] using h.blank hg
    · rw [hg₁] at hg
      cases hg
  · exact or_congr Iff.rfl (not_congr (hdom g))
  · have hgf : g ≠ f := by
      rintro rfl
      exact hne hg
    simp [hgf]

theorem setProc (h : Fits K alone v s) {P : Proc} (hq : v.proc q ≠ none) (hw : Sets v q P w) :
    Fits K alone w { s with proc := update s.proc q P } ∧
      Local v s w { s with proc := update s.proc q P } := by
  obtain ⟨hproc, hleft, hcell⟩ := hw.cases
  have hdom : ∀ g, w.cell g = none ↔ v.cell g = none := by
    intro g
    rcases hcell g with heq | ⟨h₁, h₂⟩
    · rw [heq]
    · rw [h₁, h₂]
      exact iff_of_false nofun nofun
  refine ⟨⟨h.good.sets hw, fun {g _ _ _ _} hg => ?_, fun {g} hg => ?_, fun {q' P'} hq' => ?_,
    fun {g} hg => h.used fun hn => hg ((hdom g).mpr hn), h.nodup, h.range, by rw [hleft]; exact h.left⟩,
    fun g => or_congr Iff.rfl (not_congr (hdom g)), fun _ _ _ => rfl, fun q' hq' => ?_, fun q' => ?_⟩
  · rcases hcell g with heq | ⟨-, h₂⟩
    · exact h.table (heq ▸ hg)
    · rw [h₂] at hg
      cases hg
  · rcases hcell g with heq | ⟨-, h₂⟩
    · exact h.blank (heq ▸ hg)
    · rw [h₂] at hg
      cases hg
  · rw [hproc] at hq'
    by_cases hqq : q' = q
    · subst hqq
      simpa using hq'
    · simpa [hqq] using h.proc (by simpa [hqq] using hq')
  · have hqq : q' ≠ q := by
      rintro rfl
      exact hq hq'
    simp [hqq]
  · rw [hproc]
    by_cases hqq : q' = q
    · subst hqq
      exact iff_of_false (by simp) hq
    · simp [hqq]

/-- An operation whose specification holds runs, and leaves what is not in the view alone. -/
theorem op (h : Fits K alone v s) (o : Op) {Q : o.Res → View → Prop} (hwp : Op.wp K alone o Q v) :
    ∃ r t w, Op.run K o s = .ok (r, t) ∧ Fits K alone w t ∧ Q r w ∧ Local v s w t := by
  cases o with
  | kalloc => exact h.kalloc hwp
  | kfree f =>
    obtain ⟨hs, w, hw, hQ⟩ := hwp
    obtain ⟨t, ht, hfit, hloc⟩ := h.kfree hs hw
    exact ⟨(), t, _, ht, hfit, hQ, hloc⟩
  | clear f =>
    obtain ⟨hs, w, hw, hQ⟩ := hwp
    obtain ⟨hfit, hloc⟩ := h.clear hs hw
    exact ⟨(), _, w, rfl, hfit, hQ, hloc⟩
  | load f i =>
    obtain ⟨R, l, b, e, hf, hQ⟩ := hwp
    refine ⟨s.pte f i, s, v, rfl, h, ?_, fun _ => Iff.rfl, fun _ _ _ => rfl, fun _ _ => rfl, fun _ => Iff.rfl⟩
    rw [h.table hf]
    exact hQ
  | store f i x =>
    obtain ⟨w, hw, hQ⟩ := hwp
    obtain ⟨hfit, hloc⟩ := h.store hw
    exact ⟨(), _, w, rfl, hfit, hQ, hloc⟩
  | getProc q =>
    obtain ⟨P, hP, hQ⟩ := hwp
    refine ⟨s.proc q, s, v, rfl, h, ?_, fun _ => Iff.rfl, fun _ _ _ => rfl, fun _ _ => rfl, fun _ => Iff.rfl⟩
    rw [h.proc hP]
    exact hQ
  | setProc q g =>
    obtain ⟨P, w, hP, hw, hQ⟩ := hwp
    obtain ⟨hfit, hloc⟩ := h.setProc (by rw [hP]; nofun) hw
    refine ⟨(), { s with proc := update s.proc q (g (s.proc q)) }, w, rfl, ?_, hQ, ?_⟩
    · rw [h.proc hP]
      exact hfit
    · rw [h.proc hP]
      exact hloc

end Fits

end Xv6.Mem
