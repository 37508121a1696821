import Xv6.Kernel.Mem.Sound

/-! One page table: the pages it maps, and what does not belong to it.

    A function that works on the table with root `R` leaves the rest of the view as it is. -/

namespace Xv6.Mem

open View Function
open Prog (wp_bind)
open Procs (Slot)

/-- What does not belong to the table with root `R`. -/
def Cell.apart (R : Frame) : Option Cell → Option Cell
  | some (.node R' l b e) => if R' = R then none else some (.node R' l b e)
  | c => c

namespace View

def rest (v : View) (R : Frame) (f : Frame) : Option Cell := Cell.apart R (v.cell f)

/-- The table maps page `n`. -/
def mapped (v : View) (R : Frame) (n : Nat) : Prop :=
  ∃ f e, v.cell f = some (.node R 1 (n / 512) e) ∧ (e (idx n)).v = true

/-- The table has a page-table page of level 1 for the pages from `512 * b` on. -/
def tables (v : View) (R : Frame) (b : Nat) : Prop := ∃ f e, v.cell f = some (.node R 1 b e)

end View

/-- From `v` to `w` the table has got at most `need` page-table pages, all for the pages at `b`. -/
structure Grown (alone : Bool) (R : Frame) (b need : Nat) (v w : View) : Prop where
  tables : ∀ b', w.tables R b' → v.tables R b' ∨ b' = b ∧ (alone = true → 0 < v.left)
  keep : ∀ b', v.tables R b' → w.tables R b'
  left : v.left ≤ w.left + need
  same : v.tables R b → v.left ≤ w.left

/-- Memory has run out before the table had the page-table pages for `b`. -/
structure Short (alone : Bool) (R : Frame) (b need : Nat) (v w : View) : Prop where
  tables : ¬ w.tables R b
  left : alone = true → v.left < need ∧ w.left = 0

variable {K : Link} {alone : Bool} {E : String → Prop} {v w : View} {ρ : Frame → Option Cell}
  {π : Slot → Option Proc} {S : Nat → Prop} {R f g : Frame} {l b n va : Nat} {i : Fin 512} {x : Pte}
  {e e' : Fin 512 → Pte}

@[simp] theorem apart_node : Cell.apart R (some (.node R l b e)) = none := if_pos rfl

@[simp] theorem apart_none : Cell.apart R none = none := rfl

@[simp] theorem apart_loose : Cell.apart R (some .loose) = some .loose := rfl

@[simp] theorem apart_blank : Cell.apart R (some .blank) = some .blank := rfl

theorem apart_eq {c : Option Cell} (h : ∀ l b e, c ≠ some (.node R l b e)) : Cell.apart R c = c := by
  unfold Cell.apart
  split
  · rename_i R' l b e
    exact if_neg fun hR => h l b e (by rw [hR])
  · rfl

@[simp] theorem rest_upd (v : View) (f : Frame) (c : Option Cell) :
    (v.upd f c).rest R = update (v.rest R) f (Cell.apart R c) := by
  funext g
  by_cases hg : g = f
  · subst hg
    simp [rest]
  · simp [rest, hg]

@[simp] theorem rest_take (v : View) (f : Frame) :
    (v.take f).rest R = update (v.rest R) f (some .loose) :=
  rest_upd v f (some .loose)

theorem rest_eq_of_apart {c : Option Cell} (h : v.cell f = c) (hc : Cell.apart R c = c) : v.rest R f = c := by
  rw [rest, h, hc]

theorem cell_of_rest {c : Cell} (h : v.rest R f = some c) : v.cell f = some c := by
  unfold rest Cell.apart at h
  split at h
  · split at h
    · cases h
    · rename_i hcell _
      rw [hcell, h]
  · exact h

/-- The nodes of other tables are in the rest. -/
theorem rest_node {R' : Frame} (hne : R' ≠ R) : v.rest R f = some (.node R' l b e) ↔ v.cell f = some (.node R' l b e) :=
  ⟨cell_of_rest, fun hf => rest_eq_of_apart hf (if_neg hne)⟩

/-- The table with root `R` maps the pages `S`; the rest of the view is `ρ` and `π`. -/
structure Table (K : Link) (R : Frame) (ρ : Frame → Option Cell) (π : Slot → Option Proc) (v : View)
    (S : Nat → Prop) : Prop where
  good : Good K v
  stale : v.stale = none
  proc : v.proc = π
  rest : v.rest R = ρ
  root : ∃ e, v.cell R = some (.node R 3 0 e)
  maps : ∀ n, v.mapped R n ↔ S n

/-! ### Nodes on the way -/

theorem px_eq (level va : Nat) : px level va = idx (vpn va / 512 ^ level) := by
  unfold px idx vpn PGSIZE
  congr 1
  rw [Nat.div_div_eq_div_mul, Nat.pow_add, show (512 : Nat) = 2 ^ 9 from rfl, ← Nat.pow_mul]

/-- The ancestors of a node are nodes. -/
theorem Trees.ancestor (h : Trees v) (hf : v.cell f = some (.node R l b e)) (k : Nat) (hk : l + k ≤ 3) :
    ∃ g e', v.cell g = some (.node R (l + k) (b / 512 ^ k) e') := by
  induction k with
  | zero => exact ⟨f, e, by simpa using hf⟩
  | succ k ih =>
    obtain ⟨g, e', hg⟩ := ih (by omega)
    obtain ⟨p, ep, hp, -⟩ := h.up hg (by omega)
    refine ⟨p, ep, ?_⟩
    rw [Nat.pow_succ, ← Nat.div_div_eq_div_mul]
    exact hp

/-- An entry that is not valid has nothing below it. -/
theorem Trees.no_child (h : Trees v) (hf : v.cell f = some (.node R (l + 1) b e)) (hi : (e i).v = false) :
    v.cell g ≠ some (.node R l (512 * b + i) e') := by
  intro hg
  obtain ⟨p, ep, hp, hpv, -⟩ := h.up hg (by have := (h.level hf).1; omega)
  rw [child_div] at hp
  rw [child_idx] at hpv
  obtain rfl := h.unique hf hp
  obtain ⟨-, -, -, rfl⟩ := node_inj hf hp
  rw [hi] at hpv
  cases hpv

/-- Where the root is missing there are no other nodes. -/
theorem Trees.no_node (h : Trees v) (hR : ∀ e, v.cell R ≠ some (.node R 3 0 e)) :
    v.cell f ≠ some (.node R l b e) := by
  intro hf
  have hl := (h.level hf).1
  obtain ⟨p, ep, hp⟩ := h.ancestor hf (3 - l) (by omega)
  rw [Nat.add_sub_cancel' hl] at hp
  obtain ⟨rfl, hb⟩ := (h.level hp).2 rfl
  rw [hb] at hp
  exact hR ep hp

theorem pow_step (n k : Nat) : 512 * (n / 512 ^ (k + 1)) + (idx (n / 512 ^ k) : Nat) = n / 512 ^ k := by
  rw [Nat.pow_succ, ← Nat.div_div_eq_div_mul]
  exact child_eq _

/-- `walk` without allocation changes nothing and finds the page-table page of the address, if there
    is one. -/
theorem walkFrom_read (h : Trees v) (hs : v.stale = none) (va : Nat) : ∀ {level pt e},
    level ≤ 2 → v.cell pt = some (.node R (level + 1) (vpn va / 512 ^ (level + 1)) e) →
    Wp K alone E (walkFrom va false level pt) (fun r w => w = v ∧
      r.elim (∀ f e, v.cell f ≠ some (.node R 1 (vpn va / 512) e)) fun a =>
        a.2 = idx (vpn va) ∧ ∃ e, v.cell a.1 = some (.node R 1 (vpn va / 512) e)) v
  | 0, pt, e, _, hpt => by
    refine ⟨rfl, by rw [px_eq]; simp, e, ?_⟩
    simpa using hpt
  | level + 1, pt, e, hlevel, hpt => by
    have hpx : px (level + 1) va = idx (vpn va / 512 ^ (level + 1)) := px_eq (level + 1) va
    have hplace : 512 * (vpn va / 512 ^ (level + 1 + 1)) + ((px (level + 1) va : Fin 512) : Nat) =
        vpn va / 512 ^ (level + 1) := by
      rw [hpx]
      exact pow_step _ _
    rw [walkFrom]
    refine wp_bind.mpr (wp_load hpt ?_)
    by_cases hv : (e (px (level + 1) va)).v = true
    · rw [if_pos hv]
      obtain ⟨-, hsp | ⟨e', he'⟩⟩ := h.down hpt hv (by rw [hs]; nofun)
      · exact absurd hsp.1.1 (Nat.succ_ne_zero level)
      · rw [hplace] at he'
        exact walkFrom_read h hs va (by omega) he'
    · rw [if_neg hv]
      refine ⟨rfl, fun f e' hf => ?_⟩
      obtain ⟨g, eg, hg⟩ := h.ancestor hf level (by omega)
      rw [Nat.div_div_eq_div_mul, ← Nat.pow_succ', Nat.add_comm 1 level] at hg
      exact h.no_child hpt (Bool.eq_false_iff.mpr hv) (by rw [hplace]; exact hg)

/-! ### New page-table pages -/

/-- The pages that are mapped depend on the valid entries of level 1. -/
theorem mapped_mono (h : ∀ f b e i, v.cell f = some (.node R 1 b e) → (e i).v = true →
    ∃ e', w.cell f = some (.node R 1 b e') ∧ (e' i).v = true) (hn : v.mapped R n) : w.mapped R n := by
  obtain ⟨f, e, hf, hv⟩ := hn
  obtain ⟨e', hf', hv'⟩ := h f _ e _ hf hv
  exact ⟨f, e', hf', hv'⟩

namespace Table

/-- A new page-table page below `f`. -/
theorem grow (T : Table K R ρ π v S) (hf : v.cell f = some (.node R (l + 2) b e)) (hi : (e i).v = false)
    (hg : v.cell g = none) (hlo : K.kend ≤ g) (hhi : g < PHYSTOP) :
    ∃ w, Stores ((v.take g).upd g (some .blank)) f i (.ptr g) w ∧ Table K R ρ π w S ∧
      w.cell g = some (.node R (l + 1) (512 * b + i) fun _ => .zero) ∧ w.left = v.left - 1 ∧
      (∀ b', w.tables R b' → v.tables R b' ∨ l = 0 ∧ b' = 512 * b + i) ∧ ∀ b', v.tables R b' → w.tables R b' := by
  have hfg : f ≠ g := by
    rintro rfl
    rw [hf] at hg
    cases hg
  have hloose : Good K (v.take g) :=
    (T.good.plain (c := some .loose) T.stale (by rw [hg]; exact trivial) nofun fun _ => ⟨hlo, hhi⟩).setLeft _
  have hblank : Good K ((v.take g).upd g (some .blank)) :=
    hloose.plain T.stale (by simp [Plain]) nofun fun _ => ⟨hlo, hhi⟩
  have hf' : ((v.take g).upd g (some .blank)).cell f = some (.node R (l + 1 + 1) b e) := by
    simpa [hfg] using hf
  have hg' : ((v.take g).upd g (some .blank)).cell g =
      some (if l + 1 = 0 then .loose else .blank) := by simp
  have hst := Stores.link (v := (v.take g).upd g (some .blank)) (x := .ptr g) T.stale hf' hi hg' rfl
    rfl (by simp [Pte.ptr, Pte.isLeaf]) fun hsp => nomatch hsp.1
  refine ⟨_, hst, ⟨hblank.stores hst, T.stale, T.proc, ?_, ?_, fun n => ?_⟩, by simp, rfl, fun b' hb' => ?_, fun b' hb' => ?_⟩
  · have hρf : ρ f = none := by rw [← T.rest, View.rest, hf, apart_node]
    have hρg : ρ g = none := by rw [← T.rest, View.rest, hg, apart_none]
    simp only [rest_upd, rest_take, apart_node, apart_blank, T.rest]
    funext k
    by_cases hkg : k = g
    · subst hkg
      simp [hρg]
    · by_cases hkf : k = f
      · subst hkf
        simp [hkg, hρf]
      · simp [hkg, hkf]
  · obtain ⟨eR, hR⟩ := T.root
    have hRg : R ≠ g := by
      rintro rfl
      rw [hR] at hg
      cases hg
    by_cases hRf : R = f
    · subst hRf
      obtain ⟨-, h3, rfl, -⟩ := node_inj hf hR
      exact ⟨update e i (.ptr g), by simp [hRg, h3]⟩
    · exact ⟨eR, by simpa [hRf, hRg] using hR⟩
  · rw [← T.maps n]
    constructor <;> refine mapped_mono fun k b' e' j hk hv => ?_
    · have hkg : k ≠ g := by
        rintro rfl
        simp only [upd_cell, update_self] at hk
        obtain ⟨-, -, -, rfl⟩ := node_inj rfl hk
        cases hv
      have hkf : k ≠ f := by
        rintro rfl
        simp only [upd_cell, update_of_ne hkg, update_self] at hk
        obtain ⟨-, h1, -, -⟩ := node_inj rfl hk
        omega
      exact ⟨e', by simpa [hkg, hkf] using hk, hv⟩
    · have hkg : k ≠ g := by
        rintro rfl
        rw [hg] at hk
        cases hk
      have hkf : k ≠ f := by
        rintro rfl
        obtain ⟨-, h1, -, -⟩ := node_inj hf hk
        omega
      exact ⟨e', by simpa [hkg, hkf] using hk, hv⟩
  · obtain ⟨k, ek, hk⟩ := hb'
    by_cases hkg : k = g
    · subst hkg
      simp only [upd_cell, update_self] at hk
      obtain ⟨-, h1, rfl, -⟩ := node_inj rfl hk
      exact .inr ⟨by omega, rfl⟩
    · by_cases hkf : k = f
      · subst hkf
        simp only [upd_cell, update_of_ne hkg, update_self] at hk
        obtain ⟨-, h1, -, -⟩ := node_inj rfl hk
        omega
      · exact .inl ⟨k, ek, by simpa [hkg, hkf] using hk⟩
  · obtain ⟨k, ek, hk⟩ := hb'
    have hkg : k ≠ g := by
      rintro rfl
      rw [hg] at hk
      cases hk
    have hkf : k ≠ f := by
      rintro rfl
      obtain ⟨-, h1, -, -⟩ := node_inj hf hk
      omega
    exact ⟨k, ek, by simpa [hkg, hkf] using hk⟩

theorem setLeft (T : Table K R ρ π v S) (n : Nat) : Table K R ρ π { v with left := n } S where
  good := T.good.setLeft n
  stale := T.stale
  proc := T.proc
  rest := T.rest
  root := T.root
  maps := T.maps

/-- `walk` with allocation finds the page-table page of the address, or is out of memory. -/
theorem walkFrom (va : Nat) : ∀ {level pt v e}, level ≤ 2 → Table K R ρ π v S →
    v.cell pt = some (.node R (level + 1) (vpn va / 512 ^ (level + 1)) e) →
    Wp K alone E (walkFrom va true level pt) (fun r w => Table K R ρ π w S ∧
      Grown alone R (vpn va / 512) level v w ∧ r.elim (Short alone R (vpn va / 512) level v w) fun a =>
        a.2 = idx (vpn va) ∧ ∃ e, w.cell a.1 = some (.node R 1 (vpn va / 512) e)) v
  | 0, pt, v, e, _, T, hpt => by
    refine ⟨T, ⟨fun _ => .inl, fun _ => id, le_rfl, fun _ => le_rfl⟩, by rw [px_eq]; simp, e, ?_⟩
    simpa using hpt
  | level + 1, pt, v, e, hlevel, T, hpt => by
    have hplace : 512 * (vpn va / 512 ^ (level + 1 + 1)) + ((px (level + 1) va : Fin 512) : Nat) =
        vpn va / 512 ^ (level + 1) := by
      rw [px_eq]
      exact pow_step _ _
    rw [Mem.walkFrom]
    refine wp_bind.mpr (wp_load hpt ?_)
    by_cases hv : (e (px (level + 1) va)).v = true
    · rw [if_pos hv]
      obtain ⟨-, hsp | ⟨e', he'⟩⟩ := T.good.trees.down hpt hv (by rw [T.stale]; nofun)
      · exact absurd hsp.1.1 (Nat.succ_ne_zero level)
      · rw [hplace] at he'
        refine (T.walkFrom va (by omega) he').mono fun r w hw => ?_
        obtain ⟨T', hgrown, hr⟩ := hw
        refine ⟨T', ⟨hgrown.tables, hgrown.keep, by have := hgrown.left; omega, hgrown.same⟩, ?_⟩
        cases r with
        | none => exact ⟨hr.tables, fun ha => by have := hr.left ha; omega⟩
        | some a => exact hr
    · rw [if_neg hv, if_pos rfl]
      have hv := Bool.eq_false_iff.mpr hv
      have hmiss : ¬ v.tables R (vpn va / 512) := by
        rintro ⟨f, e', hf⟩
        obtain ⟨g, eg, hg⟩ := T.good.trees.ancestor hf level (by omega)
        rw [Nat.div_div_eq_div_mul, ← Nat.pow_succ', Nat.add_comm 1 level] at hg
        exact T.good.trees.no_child hpt hv (by rw [hplace]; exact hg)
      refine wp_bind.mpr (wp_kalloc T.stale (fun hleft => ?_) fun hleft g hg hlo hhi => ?_)
      · refine ⟨T, ⟨fun _ => .inl, fun _ => id, by omega, fun _ => le_rfl⟩, hmiss, fun ha => ?_⟩
        have := hleft ha
        omega
      · obtain ⟨u, hu, hT, hug, huleft, htables, hkeep⟩ := T.grow hpt hv hg hlo hhi
        refine wp_bind.mpr (wp_clear T.stale (.blank (by simp)) (wp_bind.mpr (wp_store hu ?_)))
        rw [hplace] at hug
        refine (hT.walkFrom va (by omega) hug).mono fun r w hw => ?_
        obtain ⟨T', hgrown, hr⟩ := hw
        refine ⟨T', ⟨fun b' hb' => ?_, fun b' hb' => hgrown.keep b' (hkeep b' hb'),
          by have := hgrown.left; omega, fun h => absurd h hmiss⟩, ?_⟩
        · rcases hgrown.tables b' hb' with hb' | ⟨hb', -⟩
          · rcases htables b' hb' with hb' | ⟨rfl, hb'⟩
            · exact .inl hb'
            · rw [hplace] at hb'
              exact .inr ⟨by simpa using hb', hleft⟩
          · exact .inr ⟨hb', hleft⟩
        · cases r with
          | none => exact ⟨hr.tables, fun ha => by have := hr.left ha; have := hleft ha; omega⟩
          | some a => exact hr

end Table

end Xv6.Mem
