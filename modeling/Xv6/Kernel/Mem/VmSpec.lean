import Xv6.Kernel.Mem.PageSpec

/-! Growing, shrinking, copying and freeing a page table.

    The pages below the size of the process are mapped, and those of the trampoline and the
    trapframe, as far as there was memory to map them. -/

namespace Xv6.Mem

open View Function
open Prog (wp_bind wp_ite)
open Procs (Slot)

variable {K : Link} {alone : Bool} {E : String → Prop} {v w : View} {ρ : Frame → Option Cell}
  {π : Slot → Option Proc} {S X : Nat → Prop} {R f g pa : Frame} {b c k m n va sz : Nat}

/-! ### Sizes -/

/-- The number of pages of a process of size `sz`. -/
def pages (sz : Nat) : Nat := (sz + (PGSIZE - 1)) / PGSIZE

theorem roundup_eq (h : sz + PGSIZE ≤ 2 ^ 64) : PGROUNDUP sz = PGSIZE * pages sz := by
  unfold PGROUNDUP pages PGSIZE at *
  rw [Nat.mod_eq_of_lt (by omega)]
  omega

theorem rounddown_page (k : Nat) : PGROUNDDOWN (PGSIZE * k) = PGSIZE * k := by
  unfold PGROUNDDOWN PGSIZE
  omega

theorem vpn_page (k : Nat) : vpn (PGSIZE * k) = k := by
  unfold vpn PGSIZE
  omega

theorem page_lt (h : k < 2 ^ 26) : PGSIZE * k < MAXVA := by
  unfold PGSIZE MAXVA
  omega

theorem not_special (h : n < 2 ^ 26 - 2) : ¬ Special 0 n := by
  rintro ⟨-, hn | hn⟩ <;> rw [hn] at h <;> exact absurd h (by decide)

/-- The pages below `n`, and those in `X`. -/
def upTo (n : Nat) (X : Nat → Prop) (m : Nat) : Prop := m < n ∨ X m

namespace Table

/-- A page table does not map more pages than there are frames. -/
theorem bound (T : Table K R ρ π v S) (h : ∀ m, m < n → S m) : n ≤ 2 ^ 15 := by
  by_contra hlt
  have hpage : ∀ m : Nat, m < 2 ^ 15 + 1 → ∃ f e, v.cell f = some (.node R 0 m e) := by
    intro m hm
    obtain ⟨f, e, -, -, -, hpage⟩ := T.entry (h m (by omega))
    obtain ⟨e', he'⟩ := hpage (not_special (by omega))
    exact ⟨_, e', he'⟩
  choose! φ e hφ using hpage
  have hcard := Finset.card_le_card_of_injOn (s := Finset.range (2 ^ 15 + 1)) (t := Finset.Ico K.kend PHYSTOP) φ
    (fun m hm => ?_) fun m hm m' hm' heq => ?_
  · rw [Finset.card_range, Nat.card_Ico] at hcard
    have h₁ : (0x80000 : Nat) < K.kend := Nat.lt_of_le_of_lt K.base K.text
    unfold PHYSTOP at hcard
    omega
  · rw [Finset.coe_Ico, Set.mem_Ico]
    exact T.good.range (by rw [hφ m (by simpa using hm)]; nofun)
  · have hm := hφ m (by simpa using hm)
    have hm' := hφ m' (by simpa using hm')
    rw [heq] at hm
    exact (node_inj hm hm').2.2.1

/-- And so the process is small. -/
theorem small (T : Table K R ρ π v (upTo (pages sz) X)) : sz ≤ 2 ^ 27 := by
  have := T.bound fun m hm => .inl hm
  unfold pages PGSIZE at this
  omega

/-! ### uvmunmap and uvmdealloc -/

theorem unmapAt (T : Table K R ρ π v S) (hk : k < 2 ^ 26) (hsp : ¬ Special 0 k) (hS : S k) :
    Wp K alone E (Mem.unmapPage R true (PGSIZE * k)) (fun _ w =>
      Table K R ρ π w (fun m => m ≠ k ∧ S m)) v :=
  T.unmapPage (page_lt hk) (vpn_page k) hsp hS

theorem unmapFrom (T : Table K R ρ π v S) (hS : ∀ m, k ≤ m → m ≤ k + c → S m ∧ ¬ Special 0 m)
    (hk : k + c < 2 ^ 26) :
    Wp K alone E (unmapFrom R true c (PGSIZE * k)) (fun _ w =>
      Table K R ρ π w (fun m => S m ∧ ¬ (k ≤ m ∧ m ≤ k + c))) v := by
  obtain ⟨hSk, hspk⟩ := hS k le_rfl (by omega)
  induction c generalizing k v S with
  | zero =>
    refine (T.unmapAt (by omega) hspk hSk).mono fun _ w T' => T'.maps_congr fun m => ?_
    rw [and_comm]
    exact and_congr_right fun _ => not_congr (by omega)
  | succ c ih =>
    rw [Mem.unmapFrom, ← Nat.mul_succ]
    refine (T.unmapAt (by omega) hspk hSk).seq fun _ w T' => ?_
    have hS' : ∀ m, k + 1 ≤ m → m ≤ k + 1 + c → (m ≠ k ∧ S m) ∧ ¬ Special 0 m := fun m h₁ h₂ =>
      ⟨⟨by omega, (hS m (by omega) (by omega)).1⟩, (hS m (by omega) (by omega)).2⟩
    obtain ⟨hSk', hspk'⟩ := hS' (k + 1) le_rfl (by omega)
    refine (ih T' hS' (by omega) hSk' hspk').mono fun _ u T'' => T''.maps_congr fun m => ?_
    constructor
    · rintro ⟨⟨hne, hm⟩, hout⟩
      exact ⟨hm, by omega⟩
    · rintro ⟨hm, hout⟩
      exact ⟨⟨by omega, hm⟩, by omega⟩

/-- `uvmunmap` of `sz` bytes from page `k` on. -/
theorem uvmunmap (T : Table K R ρ π v S) (hsz : 0 < sz)
    (hS : ∀ m, k ≤ m → m < k + pages sz → S m ∧ ¬ Special 0 m) (hk : k + pages sz ≤ 2 ^ 26) :
    Wp K alone E (uvmunmap R (PGSIZE * k) sz true) (fun _ w =>
      Table K R ρ π w (fun m => S m ∧ ¬ (k ≤ m ∧ m < k + pages sz))) v := by
  have hpos : pages sz = (sz - 1) / PGSIZE + 1 := by
    unfold pages PGSIZE
    omega
  have hcount : (lastPage (PGSIZE * k) sz - PGROUNDDOWN (PGSIZE * k)) / PGSIZE = (sz - 1) / PGSIZE := by
    rw [rounddown_page]
    unfold lastPage PGROUNDDOWN pages PGSIZE at *
    have hmod : (4096 * k + sz + 2 ^ 64 - 1) % 2 ^ 64 = 4096 * k + sz - 1 := by omega
    rw [hmod]
    omega
  unfold Mem.uvmunmap
  rw [hcount, rounddown_page]
  refine (T.unmapFrom (fun m h₁ h₂ => hS m h₁ (by omega)) (by omega)).mono
    fun _ w T' => T'.maps_congr fun m => and_congr_right fun _ => not_congr (by omega)

/-- `uvmdealloc` from `oldsz` to `newsz`. -/
theorem uvmdealloc {oldsz newsz : Nat} (T : Table K R ρ π v (upTo (pages oldsz) X))
    (hX : ∀ m, X m → Special 0 m) :
    Wp K alone E (uvmdealloc R oldsz newsz) (fun r w =>
      r = min oldsz newsz ∧ Table K R ρ π w (upTo (pages r) X)) v := by
  have hb : pages oldsz ≤ 2 ^ 15 := T.bound fun m hm => .inl hm
  refine wp_ite (fun hle => ⟨(min_eq_left hle).symm, T⟩) fun hlt => ?_
  have hlt := Nat.not_le.mp hlt
  have hmin : min oldsz newsz = newsz := min_eq_right hlt.le
  have hmono : pages newsz ≤ pages oldsz := by
    unfold pages PGSIZE
    omega
  have hsmall : oldsz + PGSIZE ≤ 2 ^ 64 := by
    have := T.small
    unfold PGSIZE
    omega
  rw [roundup_eq hsmall, roundup_eq (by omega)]
  by_cases hpg : pages newsz < pages oldsz
  · rw [if_pos (Nat.mul_lt_mul_of_pos_left hpg (by decide))]
    have hsz : pages newsz + pages (oldsz - PGSIZE * pages newsz) = pages oldsz := by
      unfold pages PGSIZE at *
      omega
    refine (T.uvmunmap ?_ (fun m h₁ h₂ => ⟨.inl (by omega), ?_⟩) ?_).seq fun _ w T' => ⟨hmin.symm, T'.maps_congr fun m => ?_⟩
    · unfold pages PGSIZE at *
      omega
    · exact not_special (by omega)
    · omega
    · constructor
      · rintro ⟨hm | hm, hout⟩
        · exact .inl (by omega)
        · exact .inr hm
      · rintro (hm | hm)
        · exact ⟨.inl (by omega), by omega⟩
        · refine ⟨.inr hm, fun hin => not_special ?_ (hX m hm)⟩
          omega
  · rw [if_neg fun hn => hpg (Nat.lt_of_mul_lt_mul_left hn)]
    refine ⟨hmin.symm, T.maps_congr fun m => ?_⟩
    rw [show pages newsz = pages oldsz by omega]

/-! ### uvmalloc -/

theorem lastPage_page (hk : k < 2 ^ 26) : (lastPage (PGSIZE * k) PGSIZE - PGROUNDDOWN (PGSIZE * k)) / PGSIZE = 0 := by
  rw [rounddown_page]
  unfold lastPage PGROUNDDOWN PGSIZE
  have hmod : (4096 * k + 4096 + 2 ^ 64 - 1) % 2 ^ 64 = 4096 * k + 4095 := by omega
  rw [hmod]
  omega

/-- `mappages` of one page of ours. -/
theorem mapAt {perm : Perm} (T : Table K R ρ π v S) (hk : k < 2 ^ 26) (hsp : ¬ Special 0 k) (hS : ¬ S k)
    (hpa : v.cell pa = some .loose) (hperm : (Pte.leaf pa perm).isLeaf = true) :
    Wp K alone E (mappages R (PGSIZE * k) PGSIZE pa perm) (Mapping K alone R ρ (update ρ pa none) π S k v) v := by
  unfold mappages
  rw [lastPage_page hk, rounddown_page]
  exact T.mapPage (page_lt hk) (vpn_page k) hsp hS hpa hperm

/-- A frame that `kalloc` has returned. -/
theorem alloc (T : Table K R ρ π v S) (hf : v.cell f = none) (hlo : K.kend ≤ f) (hhi : f < PHYSTOP) :
    Table K R (update ρ f (some .loose)) π (v.take f) S where
  good := (T.good.plain (c := some .loose) T.stale (by rw [hf]; exact trivial) nofun fun _ => ⟨hlo, hhi⟩).setLeft _
  stale := T.stale
  proc := T.proc
  rest := by rw [rest_take, T.rest]
  root := by
    obtain ⟨e, hR⟩ := T.root
    have hRf : R ≠ f := by
      rintro rfl
      rw [hR] at hf
      cases hf
    exact ⟨e, by simpa [hRf] using hR⟩
  maps n := by
    rw [← T.maps n]
    constructor <;> refine mapped_mono fun k b' e' j hk hv => ⟨e', ?_, hv⟩
    · have hkf : k ≠ f := by
        rintro rfl
        simp at hk
      simpa [hkf] using hk
    · have hkf : k ≠ f := by
        rintro rfl
        rw [hf] at hk
        cases hk
      simpa [hkf] using hk

/-- A frame of ours that is not in use goes back. -/
theorem free (T : Table K R ρ π v S) (hf : v.cell f = some .loose) :
    ∃ w, Frees v f w ∧ Table K R (update ρ f none) π { w with left := w.left + 1 } S ∧
      ∀ b, w.tables R b → v.tables R b := by
  have hfree : Frees v f _ := .plain (.inl hf)
  refine ⟨_, hfree, Table.setLeft ⟨T.good.frees T.stale hfree, T.stale, T.proc, ?_, ?_, fun n => ?_⟩ _, fun b hb => ?_⟩
  · rw [rest_upd, T.rest]
    rfl
  · obtain ⟨e, hR⟩ := T.root
    have hRf : R ≠ f := ne_of_cell hR hf nofun
    exact ⟨e, by simpa [hRf] using hR⟩
  · rw [← T.maps n]
    constructor <;> refine mapped_mono fun k b' e' j hk hv => ⟨e', ?_, hv⟩
    · have hkf : k ≠ f := by
        rintro rfl
        simp at hk
      simpa [hkf] using hk
    · have hkf : k ≠ f := ne_of_cell hk hf nofun
      simpa [hkf] using hk

  · obtain ⟨k, e, hk⟩ := hb
    have hkf : k ≠ f := by
      rintro rfl
      simp at hk
    exact ⟨k, e, by simpa [hkf] using hk⟩

theorem rest_fresh (T : Table K R ρ π v S) (hf : v.cell f = none) : ρ f = none := by
  rw [← T.rest, View.rest, hf, apart_none]

/-- A page that `kalloc` has returned is mapped at page `k`, or freed again. -/
theorem place {perm : Perm} (T : Table K R ρ π v S) (hf : v.cell f = none) (hlo : K.kend ≤ f) (hhi : f < PHYSTOP)
    (hk : k < 2 ^ 26) (hsp : ¬ Special 0 k) (hS : ¬ S k) (hperm : (Pte.leaf f perm).isLeaf = true)
    {α : Type} {Q : α → View → Prop} {yes no : Kernel α}
    (hyes : ∀ w, Table K R ρ π w (fun m => m = k ∨ S m) → Wp K alone E yes Q w)
    (hno : ∀ w, Table K R ρ π w S → ¬ w.tables R (k / 512) → (alone = true → v.left < 3) →
      Wp K alone E no Q w) :
    Wp K alone E (do
      if ← mappages R (PGSIZE * k) PGSIZE f perm then yes
      else do
        kfree f
        no) Q (v.take f) := by
  have hρ : update (update ρ f (some .loose)) f none = ρ := by
    rw [update_idem]
    exact update_eq_self_iff.mpr (T.rest_fresh hf).symm
  refine ((T.alloc hf hlo hhi).mapAt hk hsp hS (by simp) hperm).seq fun r w hw => ?_
  obtain ⟨-, ⟨rfl, T'⟩ | ⟨rfl, T', hshort⟩⟩ := hw
  · rw [hρ] at T'
    exact hyes w T'
  · have hfw : w.cell f = some .loose := by
      refine cell_of_rest (R := R) ?_
      rw [T'.rest, update_self]
    obtain ⟨u, hu, Tu, htables⟩ := T'.free hfw
    rw [hρ] at Tu
    refine wp_bind.mpr (wp_kfree T'.stale hu (hno _ Tu (fun h => hshort.tables (htables _ h)) fun ha => ?_))
    have := (hshort.left ha).1
    rw [take_left] at this
    omega

theorem pages_page (j : Nat) : pages (PGSIZE * j) = j := by
  unfold pages PGSIZE
  omega

theorem upTo_new (hX : ∀ m, X m → Special 0 m) (hn : n ≤ 2 ^ 15) : ¬ upTo n X n := by
  rintro (hlt | hx)
  · exact lt_irrefl n hlt
  · exact not_special (by omega) (hX n hx)

/-- A growth that fails is taken back. -/
theorem rollback (hX : ∀ m, X m → Special 0 m) (T : Table K R ρ π v (upTo (k + c) X)) :
    Wp K alone E (do
      let _ ← Mem.uvmdealloc R (PGSIZE * (k + c)) (PGSIZE * k)
      pure 0) (fun r w => r = 0 ∧ Table K R ρ π w (upTo k X)) v := by
  rw [← pages_page (k + c)] at T
  refine (T.uvmdealloc hX).seq fun r w hw => ⟨rfl, ?_⟩
  obtain ⟨rfl, T'⟩ := hw
  rw [min_eq_right (Nat.mul_le_mul_left _ (Nat.le_add_right k c)), pages_page] at T'
  exact T'

theorem allocFrom {newsz : Nat} (hX : ∀ m, X m → Special 0 m) (T : Table K R ρ π v (upTo (k + c) X)) :
    Wp K alone E (allocFrom R (PGSIZE * k) newsz n (PGSIZE * (k + c))) (fun r w =>
      (r = newsz ∧ Table K R ρ π w (upTo (k + c + n) X)) ∨ (r = 0 ∧ Table K R ρ π w (upTo k X))) v := by
  induction n generalizing c v with
  | zero => exact .inl ⟨rfl, T⟩
  | succ n ih =>
    have hb : k + c ≤ 2 ^ 15 := T.bound fun m hm => .inl hm
    have hback : ∀ {v}, Table K R ρ π v (upTo (k + c) X) → Wp K alone E (do
        let _ ← Mem.uvmdealloc R (PGSIZE * (k + c)) (PGSIZE * k)
        pure 0) (fun r w => (r = newsz ∧ Table K R ρ π w (upTo (k + c + (n + 1)) X)) ∨
          (r = 0 ∧ Table K R ρ π w (upTo k X))) v :=
      fun T => (rollback hX T).mono fun r w hw => .inr hw
    rw [Mem.allocFrom]
    refine wp_bind.mpr (wp_kalloc T.stale (fun _ => hback T) fun _ f hf hlo hhi => ?_)
    refine wp_bind.mpr (wp_clear T.stale (.loose (update_self ..)) ?_)
    rw [upd_take]
    refine T.place hf hlo hhi (by omega) (not_special (by omega)) (upTo_new hX hb) rfl (fun w T' => ?_) fun w T' _ _ => hback T'
    have hnext : Table K R ρ π w (upTo (k + (c + 1)) X) := T'.maps_congr fun m => by
      unfold upTo
      rw [← or_assoc]
      exact or_congr (by omega) Iff.rfl
    rw [← Nat.mul_succ, Nat.succ_eq_add_one, Nat.add_assoc]
    refine (ih hnext).mono fun r w hw => ?_
    rwa [Nat.add_assoc k (c + 1) n, Nat.add_assoc c 1 n, Nat.add_comm 1 n, ← Nat.add_assoc k c (n + 1)] at hw

/-- `uvmalloc` from `oldsz` to `newsz`. -/
theorem uvmalloc {oldsz newsz : Nat} (T : Table K R ρ π v (upTo (pages oldsz) X))
    (hX : ∀ m, X m → Special 0 m) :
    Wp K alone E (uvmalloc R oldsz newsz) (fun r w =>
      (r = max oldsz newsz ∧ Table K R ρ π w (upTo (pages r) X)) ∨
      (r = 0 ∧ Table K R ρ π w (upTo (pages oldsz) X))) v := by
  refine wp_ite (fun hlt => .inl ⟨(max_eq_left hlt.le).symm, T⟩) fun hle => ?_
  have hle := Nat.not_lt.mp hle
  have hsmall := T.small
  rw [roundup_eq (by unfold PGSIZE; omega)]
  have hcount : pages oldsz + 0 + pagesTo (PGSIZE * pages oldsz) newsz = pages newsz := by
    unfold pagesTo pages PGSIZE
    omega
  refine (allocFrom (k := pages oldsz) (c := 0) hX T).mono fun r w hw => ?_
  rw [hcount] at hw
  rcases hw with ⟨rfl, T'⟩ | hw
  · exact .inl ⟨(max_eq_right hle).symm, T'⟩
  · exact .inr hw

end Table

/-! ### freewalk -/

/-- The table of `R` maps nothing, and outside of its nodes up to level `l` the view is as `u`. -/
structure Bare (K : Link) (R : Frame) (l : Nat) (u v : View) : Prop where
  good : Good K v
  proc : v.proc = u.proc
  same : ∀ {f c}, (∀ l' b e, c = .node R l' b e → l < l') → (v.cell f = some c ↔ u.cell f = some c)
  maps : ∀ n, ¬ v.mapped R n

namespace Bare

variable {u : View} {l : Nat} {e : Fin 512 → Pte} {i : Fin 512} {r : Option Ref}

/-- An entry of a table that maps nothing is a pointer to the next level. -/
theorem pointer (B : Bare K R l u v) (hs : v.stale = none) (hf : v.cell f = some (.node R (n + 1) b e))
    (hv : (e i).v = true) : (e i).isLeaf = false ∧ ∃ n', n = n' + 1 ∧
      ∃ e', v.cell (e i).ppn = some (.node R n (512 * b + i) e') := by
  obtain ⟨hleaf, hdown⟩ := B.good.trees.down hf hv (by rw [hs]; nofun)
  have hn : n ≠ 0 := by
    rintro rfl
    exact B.maps (512 * b + i) ⟨f, e, by rw [child_div]; exact hf, by rw [child_idx]; exact hv⟩
  refine ⟨Bool.eq_false_iff.mpr fun h => hn (hleaf.mp h), n - 1, by omega, ?_⟩
  exact hdown.resolve_left fun hsp => hn hsp.1.1

theorem erase (B : Bare K R l u v) (hs : v.stale = some (.entry f i))
    (hf : v.cell f = some (.node R (n + 1) b e)) (hn : n + 1 ≤ l) :
    ∃ w, Stores v f i .zero w ∧ Bare K R l u w ∧ w.stale = none ∧
      w.cell f = some (.node R (n + 1) b (update e i .zero)) := by
  have hst := Stores.erase (x := .zero) hs hf rfl
  refine ⟨_, hst, ⟨B.good.stores hst, B.proc, fun {g c} hc => ?_, fun m => ?_⟩, rfl, by simp⟩
  · rw [← B.same hc]
    by_cases hg : g = f
    · subst hg
      refine iff_of_false (fun h => ?_) fun h => ?_
      · simp only [upd_cell, update_self] at h
        have := hc _ _ _ (Option.some.inj h).symm
        omega
      · rw [hf] at h
        have := hc _ _ _ (Option.some.inj h).symm
        omega
    · simp [hg]
  · intro hm
    refine B.maps m (mapped_mono (fun g b' e' j hg hv => ?_) hm)
    by_cases hgf : g = f
    · subst hgf
      simp only [upd_cell, update_self] at hg
      obtain ⟨-, h1, rfl, rfl⟩ := node_inj rfl hg
      by_cases hj : j = i
      · rw [hj, update_self] at hv
        cases hv
      · rw [update_of_ne hj] at hv
        exact ⟨e, by rw [← h1]; exact hf, hv⟩
    · exact ⟨e', by simpa [hgf] using hg, hv⟩

/-- The page-table page itself goes, when it has no valid entries. -/
theorem free (B : Bare K R l u v) (hs : v.stale = none) (hf : v.cell f = some (.node R l b e))
    (hfree : Frees v f w) : Bare K R l u { w with left := w.left + 1 } ∧ w.cell f = none := by
  obtain ⟨hcell, hproc, -⟩ := hfree.cases
  have hgood := B.good.frees hs hfree
  refine ⟨⟨hgood.setLeft _, hproc.trans B.proc, fun {g c} hc => ?_, fun m hm => ?_⟩,
    by rw [hcell, update_self]⟩
  · rw [← B.same hc]
    rw [hcell]
    by_cases hg : g = f
    · subst hg
      refine iff_of_false (by simp) fun h => ?_
      rw [hf] at h
      exact lt_irrefl l (hc _ _ _ (Option.some.inj h).symm)
    · simp [hg]
  · refine B.maps m (mapped_mono (fun g b' e' j hg hv => ⟨e', ?_, hv⟩) hm)
    rw [hcell] at hg
    by_cases hgf : g = f
    · subst hgf
      simp at hg
    · simpa [hgf] using hg

theorem refl (B : Bare K R l u v) : Bare K R n v v := ⟨B.good, rfl, fun _ => Iff.rfl, B.maps⟩

theorem trans (B : Bare K R l u v) (B' : Bare K R n v w) (hn : n ≤ l) : Bare K R l u w where
  good := B'.good
  proc := B'.proc.trans B.proc
  same hc := (B'.same fun l' b e heq => lt_of_le_of_lt hn (hc l' b e heq)).trans (B.same hc)
  maps := B'.maps

/-- The loop of `freewalk` over the entries of a page-table page of level `n + 1`. -/
theorem freeEntries {sub : Frame → Kernel Unit}
    (hsub : ∀ {v f b e g e'}, Bare K R n v v → v.stale = none → v.cell f = some (.node R n b e) →
      v.cell g = some (.node R (n + 1) (b / 512) e') →
      Wp K alone E (sub f) (fun _ w => Bare K R n v w ∧ w.stale = some (.entry g (idx b))) v)
    (B : Bare K R (n + 1) u v) (hs : v.stale = none) (hf : v.cell f = some (.node R (n + 1) b e))
    (is : List (Fin 512)) (hdone : ∀ j, j ∉ is → (e j).v = false) :
    Wp K alone E (freeEntries sub f is) (fun _ w => Bare K R (n + 1) u w ∧ w.stale = none ∧
      ∃ e', w.cell f = some (.node R (n + 1) b e') ∧ ∀ j, (e' j).v = false) v := by
  induction is generalizing v e with
  | nil => exact ⟨B, hs, e, hf, fun j => hdone j List.not_mem_nil⟩
  | cons i is ih =>
    rw [Mem.freeEntries]
    refine wp_bind.mpr (wp_load hf ?_)
    by_cases hv : (e i).v = true
    · obtain ⟨hleaf, -, -, e₁, he₁⟩ := B.pointer hs hf hv
      rw [hv, hleaf, if_pos (by rfl)]
      refine (hsub B.refl hs he₁ (by rw [child_div]; exact hf)).seq fun _ w hw => ?_
      obtain ⟨B', hs'⟩ := hw
      rw [child_idx] at hs'
      have hfw : w.cell f = some (.node R (n + 1) b e) := by
        refine (B'.same fun l' b' e' heq => ?_).mpr hf
        injection heq with _ heq
        omega
      obtain ⟨x, hx, Bx, hsx, hfx⟩ := (B.trans B' (Nat.le_succ n)).erase hs' hfw le_rfl
      refine wp_bind.mpr (wp_store hx (ih Bx hsx hfx fun j hj => ?_))
      by_cases hji : j = i
      · rw [hji, update_self]
        rfl
      · rw [update_of_ne hji]
        exact hdone j (List.not_mem_cons_of_ne_of_not_mem hji hj)
    · have hv := Bool.eq_false_iff.mpr hv
      rw [hv, if_neg (by nofun), if_neg (by nofun)]
      refine ih B hs hf fun j hj => ?_
      by_cases hji : j = i
      · rw [hji]
        exact hv
      · exact hdone j (List.not_mem_cons_of_ne_of_not_mem hji hj)

/-- `freewalk` of a page-table page below another one. -/
theorem freewalk {e' : Fin 512 → Pte} (hl : l < 3) (B : Bare K R l v v) (hs : v.stale = none)
    (hf : v.cell f = some (.node R l b e)) (hg : v.cell g = some (.node R (l + 1) (b / 512) e')) :
    Wp K alone E (freewalk l f) (fun _ w => Bare K R l v w ∧ w.stale = some (.entry g (idx b))) v := by
  induction l generalizing v f b e g e' with
  | zero =>
    obtain ⟨p, ep, hp, hv, -⟩ := B.good.trees.up hf (by omega)
    exact absurd ⟨p, ep, hp, hv⟩ (B.maps b)
  | succ l ih =>
    rw [Mem.freewalk]
    refine (freeEntries (fun B hs hf hg => ih (by omega) B hs hf hg) B hs hf indices
      fun j hj => absurd (mem_indices j) hj).seq fun _ w hw => ?_
    obtain ⟨B', hs', e₁, hf', hempty⟩ := hw
    have hg' : w.cell g = some (.node R (l + 1 + 1) (b / 512) e') := by
      refine (B'.same fun l' b' e' heq => ?_).mpr hg
      injection heq with _ heq
      omega
    have hfree : Frees w f _ := .node hf' hl (fun _ => hempty) hg'
    exact wp_kfree hs' hfree ⟨(B'.free hs' hf' hfree).1, rfl⟩

end Bare

/-- `freewalk` of the root gives all nodes of the table back. -/
theorem Table.freewalk (T : Table K R ρ π v S) (hS : ∀ n, ¬ S n) {r : Option Ref}
    (hr : r = none ∧ (∀ q P, π q = some P → P.pagetable ≠ some R) ∨
      ∃ q P, r = some (.root q) ∧ π q = some P ∧ P.pagetable = some R) :
    Wp K alone E (freewalk 3 R) (fun _ w => Good K w ∧ w.stale = r ∧ w.proc = π ∧ w.cell = ρ) v := by
  obtain ⟨e, hR⟩ := T.root
  have B : Bare K R 3 v v := ⟨T.good, rfl, fun _ => Iff.rfl, fun n hn => hS n ((T.maps n).mp hn)⟩
  rw [Mem.freewalk]
  refine (Bare.freeEntries (fun B hs hf hg => Bare.freewalk (by omega) B hs hf hg) B T.stale hR
    indices fun j hj => absurd (mem_indices j) hj).seq fun _ w hw => ?_
  obtain ⟨B', hs', e', hR', hempty⟩ := hw
  have hfree : Frees w R { w.upd R none with stale := r } :=
    .root hR' hempty (by rw [B'.proc, T.proc]; exact hr)
  obtain ⟨Bw, hRw⟩ := B'.free hs' hR' hfree
  refine wp_kfree hs' hfree ⟨Bw.good, rfl, Bw.proc.trans T.proc, ?_⟩
  -- a node of the table would have the root above it
  have hnone : ∀ f l b e, (w.upd R none).cell f ≠ some (.node R l b e) := fun f l b e =>
    Bw.good.trees.no_node fun e hR => absurd (hRw.symm.trans hR) nofun
  funext f
  rw [← T.rest, View.rest]
  by_cases hc : ∃ l b e, v.cell f = some (.node R l b e)
  · obtain ⟨l, b, e, hc⟩ := hc
    rw [hc, apart_node]
    by_contra hne
    obtain ⟨c, hw⟩ := Option.ne_none_iff_exists'.mp hne
    have hv := (Bw.same fun l' b' e' heq => absurd (heq ▸ hw) (hnone f l' b' e')).mp hw
    rw [hc] at hv
    cases hv
    exact hnone f _ _ _ hw
  · rw [apart_eq fun l b e heq => hc ⟨l, b, e, heq⟩]
    refine Option.ext fun c => ?_
    by_cases hcR : ∃ l b e, c = .node R l b e
    · obtain ⟨l, b, e, rfl⟩ := hcR
      exact iff_of_false (hnone f l b e) fun h => hc ⟨l, b, e, h⟩
    · exact Bw.same fun l' b' e' heq => absurd ⟨l', b', e', heq⟩ hcR

end Xv6.Mem
