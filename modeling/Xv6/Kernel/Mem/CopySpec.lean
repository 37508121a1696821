import Xv6.Kernel.Mem.VmSpec

/-! Freeing and copying an address space, and the accesses of the kernel to user memory. -/

namespace Xv6.Mem

open View
open Prog (wp_bind wp_ite)
open Procs (Slot)

variable {K : Link} {alone : Bool} {E : String → Prop} {v w : View} {ρ : Frame → Option Cell}
  {π : Slot → Option Proc} {S X : Nat → Prop} {R R₀ f g : Frame} {k m n va len sz : Nat} {e : Fin 512 → Pte}

/-! ### uvmfree -/

/-- `uvmfree` of an address space from which the trampoline and the trapframe have been unmapped. -/
theorem Table.uvmfree (T : Table K R ρ π v (· < pages sz)) (hsz : 0 < sz) {r : Option Ref}
    (hr : r = none ∧ (∀ q P, π q = some P → P.pagetable ≠ some R) ∨
      ∃ q P, r = some (.root q) ∧ π q = some P ∧ P.pagetable = some R) :
    Wp K alone E (uvmfree R sz) (fun _ w => Good K w ∧ w.stale = r ∧ w.proc = π ∧ w.cell = ρ) v := by
  have hb : pages sz ≤ 2 ^ 15 := T.bound fun m hm => hm
  have hunmap : Wp K alone E (Mem.uvmunmap R (PGSIZE * 0) sz true) _ v := T.uvmunmap hsz
    (fun m _ hm => ⟨by omega, not_special (by omega)⟩) (by omega)
  rw [Nat.mul_zero] at hunmap
  refine hunmap.seq fun _ w T' => T'.freewalk (fun m hm => hm.2 ?_) hr
  exact ⟨Nat.zero_le m, by have := hm.1; omega⟩

/-! ### uvmcopy -/

/-- Taking back an empty range panics. -/
theorem Table.uvmunmap_none {Q : Unit → View → Prop} (T : Table K R ρ π v S) (htables : ¬ v.tables R 0)
    (hE : E "uvmunmap: walk") : Wp K alone E (Mem.uvmunmap R 0 0 true) Q v := by
  have hcount : (lastPage 0 0 - PGROUNDDOWN 0) / PGSIZE = 2 ^ 52 - 2 + 1 := by decide
  unfold Mem.uvmunmap
  rw [hcount, Mem.unmapFrom]
  exact wp_bind.mpr (T.unmapPage_walk (by decide) htables hE)

/-- The error path of `uvmcopy` at page `k`. -/
theorem Table.copyFail (T : Table K R ρ π v (upTo k X)) (hX : ∀ m, X m → Special 0 m)
    (h0 : k = 0 → ¬ v.tables R 0 ∧ E "uvmunmap: walk") :
    Wp K alone E (do
      Mem.uvmunmap R 0 (PGSIZE * k) true
      pure false) (fun r w => r = false ∧ Table K R ρ π w X) v := by
  rcases Nat.eq_zero_or_pos k with rfl | hk
  · exact wp_bind.mpr (T.uvmunmap_none (h0 rfl).1 (h0 rfl).2)
  · have hb : k ≤ 2 ^ 15 := T.bound fun m hm => .inl hm
    have hunmap : Wp K alone E (Mem.uvmunmap R (PGSIZE * 0) (PGSIZE * k) true) _ v := T.uvmunmap
      (Nat.mul_pos (by decide) hk)
      (fun m _ hm => by rw [pages_page] at hm; exact ⟨.inl (by omega), not_special (by omega)⟩)
      (by rw [pages_page]; omega)
    rw [Nat.mul_zero, pages_page] at hunmap
    refine hunmap.seq fun _ w T' => ⟨rfl, T'.maps_congr fun m => ?_⟩
    constructor
    · rintro ⟨hm | hm, hout⟩
      · exact absurd ⟨Nat.zero_le m, by omega⟩ hout
      · exact hm
    · exact fun hm => ⟨.inr hm, fun hin => not_special (by omega) (hX m hm)⟩

/-- The loop of `uvmcopy` from page `k` on. -/
theorem Table.copyFrom (T : Table K R ρ π v (upTo k X)) (hX : ∀ m, X m → Special 0 m)
    (hroot : ρ R₀ = some (.node R₀ 3 0 e)) (hlim : k + n ≤ 2 ^ 15)
    (hold : ∀ m, k ≤ m → m < k + n → ∃ f e, ρ f = some (.node R₀ 1 (m / 512) e) ∧ (e (idx m)).v = true)
    (h0 : k = 0 → ¬ v.tables R 0) (hE : k = 0 → 0 < n → (alone = true → v.left < 3) → E "uvmunmap: walk") :
    Wp K alone E (copyFrom R₀ R n (PGSIZE * k)) (fun r w =>
      (r = true ∧ Table K R ρ π w (upTo (k + n) X)) ∨ (r = false ∧ Table K R ρ π w X)) v := by
  induction n generalizing k v with
  | zero => exact .inl ⟨rfl, T⟩
  | succ n ih =>
    obtain ⟨f, ef, hf, hv⟩ := hold k le_rfl (by omega)
    have hf := cell_of_rest (by rw [T.rest]; exact hf)
    obtain ⟨hleaf, -⟩ := T.good.trees.down hf hv (by rw [T.stale]; nofun)
    rw [Mem.copyFrom]
    refine (walk_read T.good T.stale (cell_of_rest (by rw [T.rest]; exact hroot))
      (page_lt (by omega))).seq fun r w hw => ?_
    obtain ⟨rfl, hr⟩ := hw
    rw [vpn_page] at hr
    cases r with
    | none => exact absurd hf (hr f ef)
    | some a =>
      obtain ⟨⟨g, i⟩, hi, eg, hg⟩ := a, hr
      obtain rfl : i = idx k := hi
      obtain rfl := T.good.trees.unique hf hg
      obtain ⟨-, -, -, rfl⟩ := node_inj hf hg
      refine wp_bind.mpr (wp_load hf ?_)
      rw [hv, if_neg (by nofun)]
      refine wp_bind.mpr (wp_kalloc T.stale (fun hleft => ?_) fun _ g hg hlo hhi => ?_)
      · refine (T.copyFail hX fun hk => ⟨h0 hk, hE hk (by omega) fun ha => ?_⟩).mono fun r w hw => .inr hw
        have := hleft ha
        omega
      · refine T.place hg hlo hhi (by omega) (not_special (by omega)) (upTo_new hX (by omega)) (hleaf.mpr rfl)
          (fun u T' => ?_) fun u T' htables hleft => ?_
        · have hnext : Table K R ρ π u (upTo (k + 1) X) := T'.maps_congr fun m => by
            unfold upTo
            rw [← or_assoc]
            exact or_congr (by omega) Iff.rfl
          rw [← Nat.mul_succ, Nat.succ_eq_add_one]
          refine (ih hnext (by omega) (fun m h₁ h₂ => hold m (by omega) (by omega)) (by omega) (by omega)).mono fun r w hw => ?_
          rwa [Nat.add_assoc, Nat.add_comm 1 n] at hw
        · refine (T'.copyFail hX fun hk => ⟨?_, hE hk (by omega) hleft⟩).mono fun r w hw => .inr hw
          subst hk
          exact htables

/-- `uvmcopy` into a new page table. -/
theorem Table.uvmcopy (T : Table K R ρ π v X) (hX : ∀ m, X m → Special 0 m)
    (hroot : ρ R₀ = some (.node R₀ 3 0 e)) (hlim : pages sz ≤ 2 ^ 15)
    (hold : ∀ m, m < pages sz → ∃ f e, ρ f = some (.node R₀ 1 (m / 512) e) ∧ (e (idx m)).v = true)
    (h0 : ¬ v.tables R 0) (hE : 0 < pages sz → (alone = true → v.left < 3) → E "uvmunmap: walk") :
    Wp K alone E (uvmcopy R₀ R sz) (fun r w =>
      (r = true ∧ Table K R ρ π w (upTo (pages sz) X)) ∨ (r = false ∧ Table K R ρ π w X)) v := by
  have T0 : Table K R ρ π v (upTo 0 X) := T.maps_congr fun m => (or_iff_right (Nat.not_lt_zero m)).symm
  have hcopy : Wp K alone E (Mem.copyFrom R₀ R (pages sz) (PGSIZE * 0)) _ v :=
    T0.copyFrom hX hroot (by omega) (fun m _ hm => hold m (by omega)) (fun _ => h0) fun _ => hE
  rwa [Nat.zero_add, Nat.mul_zero] at hcopy

/-! ### User memory -/

theorem copyoutFrom_read (h : Good K v) (hs : v.stale = none) (hR : v.cell R = some (.node R 3 0 e)) :
    Wp K alone E (copyoutFrom R n va len) (fun _ w => w = v) v := by
  induction n generalizing va len with
  | zero => exact rfl
  | succ n ih =>
    rw [copyoutFrom]
    refine wp_ite (fun _ => rfl) fun _ => wp_bind.mpr ?_
    refine (walkaddr_read h hs hR).mono fun pa w hw => ?_
    subst hw
    exact wp_ite (fun _ => rfl) fun _ => ih

/-- `copyout` changes no page table. -/
theorem copyout_read (h : Good K v) (hs : v.stale = none) (hR : v.cell R = some (.node R 3 0 e)) :
    Wp K alone E (copyout R va len) (fun _ w => w = v) v :=
  copyoutFrom_read h hs hR

namespace Table

theorem loadsegFrom (T : Table K R ρ π v S) {ph : Proghdr} (hE : E "loadseg: address should exist") :
    Wp K alone E (loadsegFrom R ph n m) (fun _ w => w = v) v := by
  obtain ⟨eR, hR⟩ := T.root
  induction n generalizing m with
  | zero => exact rfl
  | succ n ih =>
    rw [Mem.loadsegFrom]
    refine (walkaddr_read T.good T.stale hR).seq fun pa w hw => ?_
    subst hw
    exact wp_ite (fun _ => hE) fun _ => wp_ite (fun _ => ih) fun _ => rfl

/-- The program headers: a failed `uvmalloc` makes `sz` 0, whatever is mapped. -/
theorem loadSegments (hE : E "loadseg: address should exist") (hX : ∀ m, X m → Special 0 m)
    (phdrs : List (Option Proghdr)) (T : Table K R ρ π v (upTo (pages sz) X)) :
    Wp K alone E (loadSegments R phdrs sz) (fun r w =>
      (r.1 = true ∧ Table K R ρ π w (upTo (pages r.2) X)) ∨
      (r.1 = false ∧ ∃ n, Table K R ρ π w (upTo n X) ∧ (0 < r.2 → n = pages r.2))) v := by
  induction phdrs generalizing v sz with
  | nil => exact .inl ⟨rfl, T⟩
  | cons ph rest ih =>
    have hbad : ∀ {w sz'}, Table K R ρ π w (upTo (pages sz') X) →
        ∃ n, Table K R ρ π w (upTo n X) ∧ (0 < sz' → n = pages sz') := fun T => ⟨_, T, fun _ => rfl⟩
    cases ph with
    | none => exact .inr ⟨rfl, hbad T⟩
    | some ph =>
      rw [Mem.loadSegments]
      refine wp_ite (fun _ => ih T) fun _ => wp_ite (fun _ => .inr ⟨rfl, hbad T⟩) fun _ => ?_
      refine wp_ite (fun _ => .inr ⟨rfl, hbad T⟩) fun _ => wp_bind.mpr ?_
      refine (T.uvmalloc hX).mono fun sz' w hw => ?_
      rcases hw with ⟨-, T'⟩ | ⟨rfl, T'⟩
      · refine wp_ite (fun _ => .inr ⟨rfl, hbad T'⟩) fun _ => ?_
        refine wp_ite (fun _ => .inr ⟨rfl, hbad T'⟩) fun _ => wp_bind.mpr ?_
        refine (T'.loadsegFrom hE).mono fun ok u hu => ?_
        subst hu
        exact wp_ite (fun _ => ih T') fun _ => .inr ⟨rfl, hbad T'⟩
      · rw [if_pos rfl]
        exact .inr ⟨rfl, _, T', fun h => absurd h (lt_irrefl 0)⟩

/-- The guard page below the stack. -/
theorem uvmclear (T : Table K R ρ π v S) (hk : k < 2 ^ 26) (hS : S k) :
    Wp K alone E (uvmclear R (PGSIZE * k)) (fun _ w => Table K R ρ π w S) v := by
  obtain ⟨f, e, hf, hv, hleaf, -⟩ := T.entry hS
  refine (T.walk_entry (page_lt hk) (by rw [vpn_page]; exact hf)).seq fun r w hw => ?_
  obtain ⟨rfl, rfl⟩ := hw
  rw [vpn_page]
  refine wp_bind.mpr (wp_load hf ?_)
  have hst := Stores.reflag (x := { e (idx k) with perm := { (e (idx k)).perm with u := false } }) T.stale hf hv hv
    rfl hleaf rfl
  refine wp_store hst ⟨T.good.stores hst, rfl, T.proc, ?_, ?_, fun m => ?_⟩
  · change (w.upd f _).rest R = ρ
    rw [rest_upd, apart_node, T.rest]
    exact Function.update_eq_self_iff.mpr (T.rest_none hf).symm
  · obtain ⟨eR, hR⟩ := T.root
    have hRf : R ≠ f := ne_of_cell hR hf nofun
    exact ⟨eR, by simpa [hRf] using hR⟩
  · rw [mapped_entry (x := { e (idx k) with perm := { (e (idx k)).perm with u := false } }) T.good.trees hf
      (by simp) fun j hj b e' => by simp [hj], T.maps m]
    constructor
    · rintro (⟨rfl, -⟩ | ⟨-, hm⟩)
      · exact hS
      · exact hm
    · intro hm
      by_cases hmk : m = k
      · exact .inl ⟨hmk, hv⟩
      · exact .inr ⟨hmk, hm⟩

theorem pushArgs (T : Table K R ρ π v S) {base sp : Nat} (argv : List Nat) :
    Wp K alone E (pushArgs R base argv n sp) (fun _ w => w = v) v := by
  obtain ⟨eR, hR⟩ := T.root
  induction argv generalizing n sp with
  | nil => exact rfl
  | cons len rest ih =>
    rw [Mem.pushArgs]
    refine wp_ite (fun _ => rfl) fun _ => wp_ite (fun _ => rfl) fun _ => wp_bind.mpr ?_
    refine (copyout_read T.good T.stale hR).mono fun ok w hw => ?_
    subst hw
    exact wp_ite (fun _ => ih) fun _ => rfl

theorem pushStack (T : Table K R ρ π v S) {base sp : Nat} (argv : List Nat) :
    Wp K alone E (pushStack R base sp argv) (fun _ w => w = v) v := by
  obtain ⟨eR, hR⟩ := T.root
  refine (T.pushArgs argv).seq fun sp w hw => ?_
  subst hw
  cases sp with
  | none => exact rfl
  | some sp => exact wp_ite (fun _ => rfl) fun _ => copyout_read T.good T.stale hR

/-- `exec` from the page table on. -/
theorem loadImage (hE : E "loadseg: address should exist") (hX : ∀ m, X m → Special 0 m) (x : Image) (argv : List Nat)
    (T : Table K R ρ π v X) :
    Wp K alone E (loadImage R x argv) (fun r w =>
      (r.1 = true ∧ 0 < r.2 ∧ Table K R ρ π w (upTo (pages r.2) X)) ∨
      (r.1 = false ∧ ∃ n, Table K R ρ π w (upTo n X) ∧ (0 < r.2 → n = pages r.2))) v := by
  have T0 : Table K R ρ π v (upTo (pages 0) X) := T.maps_congr fun m => (or_iff_right (Nat.not_lt_zero m)).symm
  refine (loadSegments hE hX x.phdrs T0).seq fun r w hw => ?_
  obtain ⟨ok, sz⟩ := r
  rcases hw with ⟨rfl, T'⟩ | ⟨rfl, hbad⟩
  · have hsmall := T'.small
    have hb := T'.bound fun m hm => .inl hm
    dsimp only at T' hsmall hb
    simp only [Bool.not_true, Bool.false_eq_true, if_false]
    rw [roundup_eq (by unfold PGSIZE; omega)]
    rw [← pages_page (pages sz)] at T'
    refine (T'.uvmalloc hX).seq fun sz' u hu => ?_
    rcases hu with ⟨hsz', Tu⟩ | ⟨rfl, Tu⟩
    · rw [max_eq_right (Nat.le_add_right _ _)] at hsz'
      have hpos : 0 < sz' := by
        unfold PGSIZE at hsz'
        omega
      have hlast : pages sz < pages sz' := by
        unfold pages PGSIZE at *
        omega
      have hguard : sz' - 2 * PGSIZE = PGSIZE * pages sz := by rw [hsz', Nat.add_sub_cancel]
      rw [if_neg (Nat.pos_iff_ne_zero.mp hpos), hguard]
      generalize sz' - PGSIZE = base
      refine (Tu.uvmclear (by omega) (.inl hlast)).seq fun _ t Tt => ?_
      refine (Tt.pushStack argv).seq fun ok t' ht => ?_
      subst ht
      cases ok with
      | true => exact .inl ⟨rfl, hpos, Tt⟩
      | false => exact .inr ⟨rfl, _, Tt, fun _ => rfl⟩
    · rw [if_pos rfl]
      exact .inr ⟨rfl, _, Tu, fun h => absurd h (lt_irrefl 0)⟩
  · exact .inr ⟨rfl, hbad⟩

end Table

/-! ### Without memory -/

section Dry

variable (hs : v.stale = none) (hleft : v.left = 0)

include hs hleft

/-- Nothing can be allocated for an empty process. -/
theorem uvmalloc_dry : Wp K true E (uvmalloc R 0 n) (fun r w => r = 0 ∧ w = v) v := by
  have h0 : PGROUNDUP 0 = 0 := by decide
  unfold uvmalloc
  rw [if_neg (Nat.not_lt_zero n), h0]
  cases hn : pagesTo 0 n with
  | zero =>
    refine ⟨?_, rfl⟩
    unfold pagesTo PGSIZE at hn
    omega
  | succ c =>
    refine wp_bind.mpr (wp_kalloc hs (fun _ => ⟨rfl, rfl⟩) fun hpos => ?_)
    have := hpos rfl
    omega

theorem loadSegments_dry (phdrs : List (Option Proghdr)) :
    Wp K true E (loadSegments R phdrs 0) (fun r w => r.2 = 0 ∧ w = v) v := by
  induction phdrs with
  | nil => exact ⟨rfl, rfl⟩
  | cons ph rest ih =>
    cases ph with
    | none => exact ⟨rfl, rfl⟩
    | some ph =>
      rw [loadSegments]
      refine wp_ite (fun _ => ih) fun _ => wp_ite (fun _ => ⟨rfl, rfl⟩) fun _ => ?_
      refine wp_ite (fun _ => ⟨rfl, rfl⟩) fun _ => wp_bind.mpr ?_
      refine (uvmalloc_dry hs hleft).mono fun r w hw => ?_
      obtain ⟨rfl, rfl⟩ := hw
      rw [if_pos rfl]
      exact ⟨rfl, rfl⟩

theorem loadImage_dry (x : Image) (argv : List Nat) :
    Wp K true E (loadImage R x argv) (fun r w => r = (false, 0) ∧ w = v) v := by
  refine (loadSegments_dry hs hleft x.phdrs).seq fun r w hw => ?_
  obtain ⟨⟨ok, sz⟩, rfl, rfl⟩ := r, hw
  have h0 : PGROUNDUP 0 = 0 := by decide
  refine wp_ite (fun _ => ⟨rfl, rfl⟩) fun _ => wp_bind.mpr ?_
  rw [h0]
  refine (uvmalloc_dry hs hleft).mono fun r w hw => ?_
  obtain ⟨rfl, rfl⟩ := hw
  rw [if_pos rfl]
  exact ⟨rfl, rfl⟩

end Dry

end Xv6.Mem
