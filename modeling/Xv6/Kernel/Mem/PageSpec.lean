import Mathlib.Order.Interval.Finset.Nat
import Xv6.Kernel.Mem.Table

/-! Mapping and unmapping one page. -/

namespace Xv6.Mem

open View Function
open Prog (wp_bind wp_ite)
open Procs (Slot)

variable {K : Link} {alone : Bool} {E : String → Prop} {v w : View} {ρ : Frame → Option Cell}
  {π : Slot → Option Proc} {S : Nat → Prop} {R f g pa : Frame} {l b m n va : Nat} {i : Fin 512} {x : Pte}
  {e e' : Fin 512 → Pte} {perm : Perm}

theorem vpn_lt (h : va < MAXVA) : vpn va < 2 ^ 26 := by
  unfold vpn PGSIZE MAXVA at *
  omega

theorem vpn_root (h : va < MAXVA) : vpn va / 512 ^ 3 = 0 := by
  have := vpn_lt h
  rw [Nat.div_eq_zero_iff]
  omega

theorem walk_read (h : Good K v) (hs : v.stale = none) (hR : v.cell R = some (.node R 3 0 e)) (hva : va < MAXVA) :
    Wp K alone E (walk R va false) (fun r w => w = v ∧
      r.elim (∀ f e, v.cell f ≠ some (.node R 1 (vpn va / 512) e)) fun a =>
        a.2 = idx (vpn va) ∧ ∃ e, v.cell a.1 = some (.node R 1 (vpn va / 512) e)) v := by
  unfold walk
  rw [if_neg (Nat.not_le.mpr hva)]
  exact walkFrom_read h.trees hs va le_rfl (by rw [vpn_root hva]; exact hR)

theorem walkaddr_read (h : Good K v) (hs : v.stale = none) (hR : v.cell R = some (.node R 3 0 e)) :
    Wp K alone E (walkaddr R va) (fun _ w => w = v) v := by
  refine wp_ite (fun _ => rfl) fun hva => wp_bind.mpr ?_
  refine (walk_read h hs hR (Nat.not_le.mp hva)).mono fun r w hw => ?_
  obtain ⟨rfl, hr⟩ := hw
  cases r with
  | none => rfl
  | some a =>
    obtain ⟨-, e', he'⟩ := hr
    refine wp_bind.mpr (wp_load he' ?_)
    exact wp_ite (fun _ => rfl) fun _ => rfl

theorem Table.walk (T : Table K R ρ π v S) (hva : va < MAXVA) :
    Wp K alone E (walk R va true) (fun r w => Table K R ρ π w S ∧
      Grown alone R (vpn va / 512) 2 v w ∧ r.elim (Short alone R (vpn va / 512) 2 v w) fun a =>
        a.2 = idx (vpn va) ∧ ∃ e, w.cell a.1 = some (.node R 1 (vpn va / 512) e)) v := by
  unfold Mem.walk
  rw [if_neg (Nat.not_le.mpr hva)]
  obtain ⟨e, hR⟩ := T.root
  exact T.walkFrom va le_rfl (by rw [vpn_root hva]; exact hR)

/-! ### One entry -/

theorem mapped_iff (h : Trees v) (hf : v.cell f = some (.node R 1 (n / 512) e)) :
    v.mapped R n ↔ (e (idx n)).v = true := by
  constructor
  · rintro ⟨g, e', hg, hv⟩
    obtain rfl := h.unique hf hg
    obtain ⟨-, -, -, rfl⟩ := node_inj hf hg
    exact hv
  · exact fun hv => ⟨f, e, hf, hv⟩

/-- One entry of level 1 changes. -/
theorem mapped_entry (h : Trees v) (hf : v.cell f = some (.node R 1 (n / 512) e))
    (hwf : w.cell f = some (.node R 1 (n / 512) (update e (idx n) x)))
    (hother : ∀ g, g ≠ f → ∀ b e, w.cell g = some (.node R 1 b e) ↔ v.cell g = some (.node R 1 b e)) :
    w.mapped R m ↔ (m = n ∧ x.v = true) ∨ (m ≠ n ∧ v.mapped R m) := by
  by_cases hmn : m = n
  · subst hmn
    constructor
    · rintro ⟨g, e', hg, hv⟩
      refine .inl ⟨rfl, ?_⟩
      by_cases hgf : g = f
      · subst hgf
        obtain ⟨-, -, -, rfl⟩ := node_inj hwf hg
        rwa [update_self] at hv
      · exact absurd (h.unique ((hother g hgf _ _).mp hg) hf) hgf
    · rintro (⟨-, hx⟩ | ⟨hne, -⟩)
      · exact ⟨f, _, hwf, by rw [update_self]; exact hx⟩
      · exact absurd rfl hne
  · have hidx : m / 512 = n / 512 → idx m ≠ idx n := by
      intro hd heq
      have := congrArg Fin.val heq
      rw [idx_eq, idx_eq] at this
      omega
    constructor
    · rintro ⟨g, e', hg, hv⟩
      refine .inr ⟨hmn, ?_⟩
      by_cases hgf : g = f
      · subst hgf
        obtain ⟨-, -, hb, rfl⟩ := node_inj hwf hg
        rw [update_of_ne (hidx hb.symm)] at hv
        exact ⟨g, e, by rw [← hb]; exact hf, hv⟩
      · exact ⟨g, e', (hother g hgf _ _).mp hg, hv⟩
    · rintro (⟨heq, -⟩ | ⟨-, g, e', hg, hv⟩)
      · exact absurd heq hmn
      · by_cases hgf : g = f
        · subst hgf
          obtain ⟨-, -, hb, rfl⟩ := node_inj hf hg
          refine ⟨g, _, by rw [← hb]; exact hwf, ?_⟩
          rw [update_of_ne (hidx hb.symm)]
          exact hv
        · exact ⟨g, e', (hother g hgf _ _).mpr hg, hv⟩

theorem tables_congr (hf : v.cell f = some (.node R 1 n e)) (hwf : w.cell f = some (.node R 1 n (update e i x)))
    (hother : ∀ g, g ≠ f → ∀ e, w.cell g = some (.node R 1 b e) ↔ v.cell g = some (.node R 1 b e)) :
    w.tables R b ↔ v.tables R b := by
  constructor
  · rintro ⟨g, e', hg⟩
    by_cases hgf : g = f
    · subst hgf
      obtain ⟨-, -, rfl, -⟩ := node_inj hwf hg
      exact ⟨g, e, hf⟩
    · exact ⟨g, e', (hother g hgf e').mp hg⟩
  · rintro ⟨g, e', hg⟩
    by_cases hgf : g = f
    · subst hgf
      obtain ⟨-, -, rfl, -⟩ := node_inj hf hg
      exact ⟨g, _, hwf⟩
    · exact ⟨g, e', (hother g hgf e').mpr hg⟩

theorem Grown.trans {u : View} {need : Nat} (h : Grown alone R b need v w) (htables : ∀ b, u.tables R b ↔ w.tables R b)
    (hleft : u.left = w.left) : Grown alone R b need v u where
  tables b' hb' := h.tables b' ((htables b').mp hb')
  keep b' hb' := (htables b').mpr (h.keep b' hb')
  left := by rw [hleft]; exact h.left
  same := by rw [hleft]; exact h.same

namespace Table

section Pages

variable (T : Table K R ρ π v S)

include T

theorem maps_congr {S' : Nat → Prop} (h : ∀ m, S m ↔ S' m) : Table K R ρ π v S' :=
  ⟨T.good, T.stale, T.proc, T.rest, T.root, fun n => (T.maps n).trans (h n)⟩

theorem rest_none (hf : v.cell f = some (.node R l b e)) : ρ f = none := by
  rw [← T.rest, View.rest, hf, apart_node]

/-- A frame of ours becomes a page of the table. -/
theorem linkPage (hf : v.cell f = some (.node R 1 (n / 512) e))
    (hv : (e (idx n)).v = false) (hsp : ¬ Special 0 n) (hpa : v.cell pa = some .loose) (hx : x.v = true)
    (hppn : x.ppn = pa) (hleaf : x.isLeaf = true) :
    ∃ w, Stores v f (idx n) x w ∧
      Table K R (update ρ pa none) π w (fun m => m = n ∨ S m) ∧ w.left = v.left ∧
      ∀ b, w.tables R b ↔ v.tables R b := by
  have hfp : f ≠ pa := ne_of_cell hf hpa nofun
  have hst := Stores.link T.stale hf hv (by rw [if_pos rfl]; exact hpa) hx hppn
    (iff_of_true hleaf rfl) (by rw [child_eq]; exact hsp)
  refine ⟨_, hst, ⟨T.good.stores hst, T.stale, T.proc, ?_, ?_, fun m => ?_⟩, rfl, fun b => tables_congr hf (i := idx n) (x := x) (by simp [hfp]) fun k hk e' => ?_⟩
  · have hρf := T.rest_none hf
    simp only [rest_upd, apart_node, T.rest]
    funext k
    by_cases hkp : k = pa
    · subst hkp
      simp
    · by_cases hkf : k = f
      · subst hkf
        simp [hkp, hρf]
      · simp [hkp, hkf]
  · obtain ⟨eR, hR⟩ := T.root
    have hRp : R ≠ pa := ne_of_cell hR hpa nofun
    have hRf : R ≠ f := ne_of_cell hR hf nofun
    exact ⟨eR, by simpa [hRf, hRp] using hR⟩
  · rw [mapped_entry T.good.trees hf (x := x) (by simp [hfp]) fun k hk b e' => ?_]
    · rw [T.maps m]
      have hn : ¬ S n := by
        rw [← T.maps n, mapped_iff T.good.trees hf, hv]
        nofun
      constructor
      · rintro (⟨rfl, -⟩ | ⟨-, hm⟩)
        · exact .inl rfl
        · exact .inr hm
      · rintro (rfl | hm)
        · exact .inl ⟨rfl, hx⟩
        · exact .inr ⟨fun hmn => hn (hmn ▸ hm), hm⟩
    · by_cases hkp : k = pa
      · subst hkp
        simp [hpa]
      · simp [hk, hkp]
  · by_cases hkp : k = pa
    · subst hkp
      simp [hpa]
    · simp [hk, hkp]

/-- The entry of the trampoline or of the trapframe. -/
theorem setSpecial (hf : v.cell f = some (.node R 1 (n / 512) e)) (hsp : Special 0 n)
    (hleaf : x.v = true → x.isLeaf = true ∧ x.perm.u = false) :
    ∃ w, Stores v f (idx n) x w ∧
      Table K R ρ π w (fun m => m = n ∧ x.v = true ∨ m ≠ n ∧ S m) ∧ w.left = v.left ∧
      ∀ b, w.tables R b ↔ v.tables R b := by
  have hst := Stores.special T.stale hf (by rw [child_eq]; exact hsp) hleaf
  refine ⟨_, hst, ⟨T.good.stores hst, rfl, T.proc, ?_, ?_, fun m => ?_⟩, rfl, fun b => tables_congr hf (i := idx n) (x := x) (by simp) fun k hk e' => by simp [hk]⟩
  · have hρf := T.rest_none hf
    change (v.upd f _).rest R = ρ
    rw [rest_upd, apart_node, T.rest]
    exact update_eq_self_iff.mpr hρf.symm
  · obtain ⟨eR, hR⟩ := T.root
    have hRf : R ≠ f := ne_of_cell hR hf nofun
    exact ⟨eR, by simpa [hRf] using hR⟩
  · rw [mapped_entry T.good.trees hf (x := x) (by simp) fun k hk b e' => by simp [hk], T.maps m]

/-- What is known when `mappages` of the page `n` has returned `r`; with the page the frames outside of the
    table are those in `ρ'`. -/
abbrev Mapping (K : Link) (alone : Bool) (R : Frame) (ρ ρ' : Frame → Option Cell) (π : Slot → Option Proc) (S : Nat → Prop)
    (n : Nat) (v : View) (r : Bool) (w : View) : Prop :=
  Grown alone R (n / 512) 2 v w ∧ (r = true ∧ Table K R ρ' π w (fun m => m = n ∨ S m) ∨
    r = false ∧ Table K R ρ π w S ∧ Short alone R (n / 512) 2 v w)

/-- A round of `mappages`, with what the new entry does to the table. -/
theorem mapWith {ρ' : Frame → Option Cell} (hva : va < MAXVA) (hn : vpn va = n) (hS : ¬ S n)
    (hlink : ∀ {w f e}, Table K R ρ π w S → w.cell f = some (.node R 1 (n / 512) e) → (e (idx n)).v = false →
      ∃ u, Stores w f (idx n) (.leaf pa perm) u ∧ Table K R ρ' π u (fun m => m = n ∨ S m) ∧ u.left = w.left ∧
        ∀ b, u.tables R b ↔ w.tables R b) :
    Wp K alone E (Mem.mapPage R va pa perm) (Mapping K alone R ρ ρ' π S n v) v := by
  subst hn
  refine (T.walk hva).seq fun r w hw => ?_
  obtain ⟨hT, hgrown, hr⟩ := hw
  cases r with
  | none => exact ⟨hgrown, .inr ⟨rfl, hT, hr⟩⟩
  | some a =>
    obtain ⟨⟨f, i⟩, hi, e', he'⟩ := a, hr
    obtain rfl : i = idx (vpn va) := hi
    have hv : (e' (idx (vpn va))).v = false := by
      rw [Bool.eq_false_iff, ne_eq, ← mapped_iff hT.good.trees he', hT.maps]
      exact hS
    obtain ⟨u, hu, hTu, hleft, htables⟩ := hlink hT he' hv
    refine wp_bind.mpr (wp_load he' ?_)
    rw [hv, if_neg (by nofun)]
    exact wp_bind.mpr (wp_store hu ⟨hgrown.trans htables hleft, .inl ⟨rfl, hTu⟩⟩)

/-- A page of ours. -/
theorem mapPage (hva : va < MAXVA) (hn : vpn va = n) (hsp : ¬ Special 0 n) (hS : ¬ S n)
    (hpa : v.cell pa = some .loose) (hperm : (Pte.leaf pa perm).isLeaf = true) :
    Wp K alone E (mapPage R va pa perm) (Mapping K alone R ρ (update ρ pa none) π S n v) v :=
  T.mapWith hva hn hS fun {w _ _} hT hf hv => by
    have hpa' : w.cell pa = some .loose := by
      refine cell_of_rest (R := R) ?_
      rw [hT.rest, ← T.rest]
      exact rest_eq_of_apart hpa rfl
    obtain ⟨u, hu, hTu, hleft, htables⟩ := hT.linkPage hf hv hsp hpa' rfl rfl hperm
    exact ⟨u, hu, hTu, hleft, htables⟩

/-- The trampoline or the trapframe. -/
theorem mapSpecial (hva : va < MAXVA) (hn : vpn va = n) (hsp : Special 0 n) (hS : ¬ S n)
    (hperm : (Pte.leaf pa perm).isLeaf = true) (hu : perm.u = false) :
    Wp K alone E (Mem.mapPage R va pa perm) (Mapping K alone R ρ ρ π S n v) v :=
  T.mapWith hva hn hS fun hT hf _ => by
    obtain ⟨u, hu, hTu, hleft, htables⟩ := hT.setSpecial hf hsp fun _ => ⟨hperm, hu⟩
    refine ⟨u, hu, hTu.maps_congr fun m => ?_, hleft, htables⟩
    by_cases hm : m = n <;> simp [hm, Pte.leaf]

/-- The entry of a page that is mapped. -/
theorem entry (hS : S n) :
    ∃ f e, v.cell f = some (.node R 1 (n / 512) e) ∧ (e (idx n)).v = true ∧ (e (idx n)).isLeaf = true ∧
      (¬ Special 0 n → ∃ e', v.cell (e (idx n)).ppn = some (.node R 0 n e')) := by
  obtain ⟨f, e, hf, hv⟩ := (T.maps n).mpr hS
  obtain ⟨hleaf, hdown⟩ := T.good.trees.down hf hv (by rw [T.stale]; nofun)
  rw [child_eq] at hdown
  exact ⟨f, e, hf, hv, hleaf.mpr rfl, fun hsp => hdown.resolve_left fun h => hsp h.1⟩

/-- The walk to a page that is mapped. -/
theorem walk_entry (hva : va < MAXVA) (hf : v.cell f = some (.node R 1 (vpn va / 512) e)) :
    Wp K alone E (Mem.walk R va false) (fun r w => r = some (f, idx (vpn va)) ∧ w = v) v := by
  obtain ⟨eR, hR⟩ := T.root
  refine (walk_read T.good T.stale hR hva).mono fun r w hw => ?_
  obtain ⟨rfl, hr⟩ := hw
  cases r with
  | none => exact absurd hf (hr f e)
  | some a =>
    obtain ⟨⟨g, i⟩, hi, e', he'⟩ := a, hr
    obtain rfl : i = idx (vpn va) := hi
    obtain rfl := T.good.trees.unique hf he'
    exact ⟨rfl, rfl⟩

/-- A round of `uvmunmap` that frees the page. -/
theorem unmapPage (hva : va < MAXVA) (hn : vpn va = n) (hsp : ¬ Special 0 n) (hS : S n) :
    Wp K alone E (unmapPage R true va) (fun _ w =>
      Table K R ρ π w (fun m => m ≠ n ∧ S m)) v := by
  subst hn
  obtain ⟨f, e, hf, hv, hleaf, hpage⟩ := T.entry hS
  obtain ⟨e₀, he₀⟩ := hpage hsp
  have hfp : f ≠ (e (idx (vpn va))).ppn := ne_of_cell hf he₀ nofun
  refine (T.walk_entry hva hf).seq fun r w hw => ?_
  obtain ⟨rfl, rfl⟩ := hw
  refine wp_bind.mpr (wp_load hf ?_)
  rw [hv, hleaf, if_neg (by nofun), if_neg (by simp), if_pos rfl]
  have hfree : Frees w (e (idx (vpn va))).ppn _ := .node he₀ (by omega) (fun h0 => absurd h0 (lt_irrefl 0)) hf
  refine wp_bind.mpr (wp_kfree T.stale hfree ?_)
  have hgood := (T.good.frees T.stale hfree).setLeft (w.left + 1)
  have hst := Stores.erase (x := .zero) (v := { w.upd (e (idx (vpn va))).ppn none with
    stale := some (.entry f (idx (vpn va))), left := w.left + 1 }) rfl (by simpa [hfp] using hf) rfl
  refine wp_store hst ⟨hgood.stores hst, rfl, T.proc, ?_, ?_, fun m => ?_⟩
  · change ((w.upd _ none).upd f _).rest R = ρ
    have hρ : update ρ (e (idx (vpn va))).ppn none = ρ :=
      update_eq_self_iff.mpr (T.rest_none he₀).symm
    rw [rest_upd, rest_upd, apart_node, apart_none, T.rest, hρ]
    exact update_eq_self_iff.mpr (T.rest_none hf).symm
  · obtain ⟨eR, hR⟩ := T.root
    have hRf : R ≠ f := ne_of_cell hR hf nofun
    have hRp : R ≠ (e (idx (vpn va))).ppn := ne_of_cell hR he₀ nofun
    exact ⟨eR, by simpa [hRf, hRp] using hR⟩
  · rw [mapped_entry T.good.trees hf (x := .zero) (by simp) fun k hk b e' => ?_, T.maps m]
    · simp [Pte.zero]
    · by_cases hkp : k = (e (idx (vpn va))).ppn
      · rw [hkp, he₀]
        refine iff_of_false (fun hk' => ?_) fun hk' => ?_
        · simp [Ne.symm hfp] at hk'
        · obtain ⟨-, h1, -⟩ := node_inj rfl hk'
          omega
      · simp [hk, hkp]

/-- Where there is no page-table page for the address, `uvmunmap` panics. -/
theorem unmapPage_walk {free : Bool} {Q : Unit → View → Prop} (hva : va < MAXVA)
    (htables : ¬ v.tables R (vpn va / 512)) (hE : E "uvmunmap: walk") :
    Wp K alone E (Mem.unmapPage R free va) Q v := by
  obtain ⟨eR, hR⟩ := T.root
  refine (walk_read T.good T.stale hR hva).seq fun r w hw => ?_
  obtain ⟨rfl, hr⟩ := hw
  cases r with
  | none => exact hE
  | some a =>
    obtain ⟨-, e', he'⟩ := hr
    exact absurd ⟨_, e', he'⟩ htables

/-- A round of `uvmunmap` for the trampoline or the trapframe. -/
theorem unmapSpecial (hva : va < MAXVA) (hn : vpn va = n) (hsp : Special 0 n)
    (hE : ¬ S n → E "uvmunmap: walk" ∧ (E "uvmunmap: not mapped" ∨ ¬ v.tables R (n / 512))) :
    Wp K alone E (Mem.unmapPage R false va) (fun _ w => S n ∧
      Table K R ρ π w (fun m => m ≠ n ∧ S m)) v := by
  subst hn
  by_cases hS : S (vpn va)
  · obtain ⟨f, e, hf, hv, hleaf, -⟩ := T.entry hS
    refine (T.walk_entry hva hf).seq fun r w hw => ?_
    obtain ⟨rfl, rfl⟩ := hw
    obtain ⟨u, hu, hTu, -⟩ := T.setSpecial (x := .zero) hf hsp nofun
    refine wp_bind.mpr (wp_load hf ?_)
    rw [hv, hleaf, if_neg (by nofun), if_neg (by simp), if_neg (by nofun)]
    refine wp_store hu ⟨hS, hTu.maps_congr fun m => ?_⟩
    simp [Pte.zero]
  · obtain ⟨hwalk, hE⟩ := hE hS
    by_cases htables : v.tables R (vpn va / 512)
    · obtain ⟨f, e, hf⟩ := htables
      refine (T.walk_entry hva hf).seq fun r w hw => ?_
      obtain ⟨rfl, rfl⟩ := hw
      refine wp_bind.mpr (wp_load hf ?_)
      rw [← T.maps, mapped_iff T.good.trees hf] at hS
      rw [Bool.eq_false_iff.mpr hS, if_pos (by rfl)]
      exact hE.resolve_right fun h => h ⟨f, e, hf⟩
    · exact T.unmapPage_walk hva htables hwalk

end Pages

end Table

end Xv6.Mem
