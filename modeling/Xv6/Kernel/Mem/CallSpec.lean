import Xv6.Kernel.Mem.CopySpec

/-! The address spaces of processes (proc.c, exec.c).

    `proc_pagetable` does not look at what `mappages` returns. Without memory the page table that it
    makes lacks the trampoline and the trapframe; freeing that page table then panics. -/

namespace Xv6.Mem

open View Function
open Prog (wp_bind wp_ite)
open Procs (Slot)

variable {K : Link} {alone : Bool} {E : String → Prop} {v w : View} {ρ : Frame → Option Cell}
  {π : Slot → Option Proc} {S X : Nat → Prop} {R f tf : Frame} {k m n va sz : Nat} {q p np : Slot} {P P' : Proc}

/-! ### proc_pagetable -/

/-- A page table as `proc_pagetable` leaves it, of which only special pages are mapped. -/
structure Fresh (K : Link) (alone : Bool) (R : Frame) (v w : View) (S : Nat → Prop) : Prop where
  new : v.cell R = none
  table : Table K R v.cell v.proc w S
  special : ∀ m, S m → Special 0 m
  low : ¬ w.tables R 0
  left : alone = true → v.left ≤ w.left + 3
  short : (∀ m, Special 0 m → S m) ∨
    (alone = true → (∀ m, ¬ S m) ∧ ¬ w.tables R (vpn TRAMPOLINE / 512) ∧ w.left = 0 ∧ v.left < 3)

namespace Table

/-- An empty page table. -/
theorem create (h : Good K v) (hs : v.stale = none) (hR : v.cell R = none) (hlo : K.kend ≤ R) (hhi : R < PHYSTOP) :
    ∃ w, Clears (v.take R) R w ∧ Table K R v.cell v.proc w (fun _ => False) ∧ (∀ b, ¬ w.tables R b) ∧
      w.left = v.left - 1 := by
  have htake : Good K (v.take R) :=
    (h.plain hs (by rw [hR]; exact trivial) (by simp) fun _ => ⟨hlo, hhi⟩).setLeft _
  have hclear : Clears (v.take R) R _ := .root (by simp)
  have hnone : ∀ {f l b e}, v.cell f ≠ some (.node R l b e) :=
    h.trees.no_node fun e he => absurd (hR.symm.trans he) (by simp)
  have htables : ∀ b, ¬ ((v.take R).upd R (some (.node R 3 0 fun _ => .zero))).tables R b := by
    rintro b ⟨f, e, hf⟩
    by_cases hfR : f = R
    · subst hfR
      simp only [upd_cell, update_self] at hf
      obtain ⟨-, h1, -⟩ := node_inj rfl hf
      omega
    · exact hnone (by simpa [hfR] using hf)
  refine ⟨_, hclear, ⟨htake.clears hs hclear, hs, rfl, ?_, ⟨fun _ => .zero, by simp⟩, fun n => ?_⟩, htables, rfl⟩
  · rw [rest_upd, rest_take, apart_node]
    funext f
    by_cases hfR : f = R
    · subst hfR
      simp [hR]
    · simp only [update_of_ne hfR, View.rest]
      exact apart_eq fun l b e => hnone
  · refine iff_of_false ?_ id
    rintro ⟨f, e, hf, -⟩
    exact htables _ ⟨f, e, hf⟩

/-- `mappages` for the trampoline or the trapframe. -/
theorem mapTop {pa : Frame} {perm : Perm} (T : Table K R ρ π v S) (hva : PGSIZE * n = va) (hn : n < 2 ^ 26)
    (hsp : Special 0 n) (hS : ¬ S n) (hperm : (Pte.leaf pa perm).isLeaf = true) (hu : perm.u = false) :
    Wp K alone E (mappages R va PGSIZE pa perm) (Mapping K alone R ρ ρ π S n v) v := by
  subst hva
  unfold mappages
  rw [lastPage_page hn, rounddown_page]
  exact T.mapSpecial (page_lt hn) (vpn_page n) hsp hS hperm hu

theorem has_tables (T : Table K R ρ π v S) (hS : S n) : v.tables R (n / 512) := by
  obtain ⟨f, e, hf, -⟩ := T.entry hS
  exact ⟨f, e, hf⟩

end Table

theorem special_trampoline : Special 0 (vpn TRAMPOLINE) := ⟨rfl, .inl rfl⟩

theorem special_trapframe : Special 0 (vpn TRAPFRAME) := ⟨rfl, .inr rfl⟩

/-- Both special pages have the same page-table page. -/
theorem trapframe_table : vpn TRAPFRAME / 512 = vpn TRAMPOLINE / 512 := by decide

theorem procPagetable_spec (h : Good K v) (hs : v.stale = none)
    (hE : (alone = true → v.left = 0) → E "uvmcreate: out of memory") :
    Wp K alone E (procPagetable K tf) (fun R w => ∃ S, Fresh K alone R v w S) v := by
  refine wp_bind.mpr (wp_bind.mpr (wp_kalloc hs hE fun hleft R hR hlo hhi => ?_))
  obtain ⟨u, hu, T, hno, huleft⟩ := Table.create h hs hR hlo hhi
  refine wp_bind.mpr (wp_clear hs hu (wp_bind.mpr ?_))
  refine (T.mapTop (by decide) (by decide) special_trampoline id rfl rfl).mono
    fun r w hw => wp_bind.mpr ?_
  obtain ⟨hgrown, hr⟩ := hw
  have hlow : ∀ {w'}, Grown alone R (vpn TRAMPOLINE / 512) 2 w w' → ¬ w'.tables R 0 := by
    intro w' hgrown' h0
    rcases hgrown'.tables 0 h0 with h0 | ⟨h0, -⟩
    · rcases hgrown.tables 0 h0 with h0 | ⟨h0, -⟩
      · exact hno 0 h0
      · exact absurd h0 (by decide)
    · exact absurd h0 (by decide)
  have hne : vpn TRAPFRAME ≠ vpn TRAMPOLINE := by decide
  rcases hr with ⟨-, T'⟩ | ⟨-, T', hshort⟩
  · refine (T'.mapTop (by decide) (by decide) special_trapframe (not_or.mpr ⟨hne, id⟩) rfl rfl).mono fun r' w' hw' => ?_
    rw [Table.Mapping, trapframe_table] at hw'
    obtain ⟨hgrown', ⟨-, T''⟩ | ⟨-, -, hshort'⟩⟩ := hw'
    · refine ⟨_, hR, T'', fun m hm => ?_, hlow hgrown', fun _ => ?_, .inl fun m hm => ?_⟩
      · rcases hm with rfl | rfl | hm
        · exact special_trapframe
        · exact special_trampoline
        · exact hm.elim
      · have h₁ := hgrown.left
        have h₂ := hgrown'.same (T'.has_tables (.inl rfl))
        omega
      · rcases hm with ⟨-, rfl | rfl⟩
        · exact .inr (.inl rfl)
        · exact .inl rfl
    · exact absurd (hgrown'.keep _ (T'.has_tables (.inl rfl))) hshort'.tables
  · refine (T'.mapTop (by decide) (by decide) special_trapframe id rfl rfl).mono fun r' w' hw' => ?_
    rw [Table.Mapping, trapframe_table] at hw'
    have hleft' : alone = true → v.left < 3 := fun ha => by
      have := (hshort.left ha).1
      omega
    obtain ⟨hgrown', ⟨-, T''⟩ | ⟨-, T'', hshort'⟩⟩ := hw'
    · refine ⟨_, hR, T'', fun m hm => ?_, hlow hgrown', fun ha => by have := hleft' ha; omega, .inr fun ha => ?_⟩
      · rcases hm with rfl | hm
        · exact special_trapframe
        · exact hm.elim
      · -- the page-table page would have come from nowhere
        have htable := T''.has_tables (.inl rfl)
        rw [trapframe_table] at htable
        rcases hgrown'.tables _ htable with h | ⟨-, h⟩
        · exact absurd h hshort.tables
        · exact absurd (h ha) (by rw [(hshort.left ha).2]; exact lt_irrefl 0)
    · exact ⟨_, hR, T'', fun m hm => hm.elim, hlow hgrown', fun ha => by have := hleft' ha; omega,
        .inr fun ha => ⟨fun _ => id, hshort'.tables, (hshort'.left ha).2, hleft' ha⟩⟩

/-! ### proc_freepagetable -/

/-- `uvmunmap` of the trampoline or the trapframe. -/
theorem Table.unmapTop (T : Table K R ρ π v S) (hva : PGSIZE * n = va) (hn : n < 2 ^ 26) (hsp : Special 0 n)
    (hE : ¬ S n → E "uvmunmap: walk" ∧ (E "uvmunmap: not mapped" ∨ ¬ v.tables R (n / 512))) :
    Wp K alone E (Mem.uvmunmap R va PGSIZE false) (fun _ w => S n ∧
      Table K R ρ π w (fun m => m ≠ n ∧ S m)) v := by
  subst hva
  unfold Mem.uvmunmap
  rw [lastPage_page hn, rounddown_page]
  exact T.unmapSpecial (page_lt hn) (vpn_page n) hsp hE

/-- Where an address space has gone: all of it, or its pages are mapped in a page table that nobody
    has. -/
structure Gone (K : Link) (R : Frame) (ρ : Frame → Option Cell) (π : Slot → Option Proc) (r : Option Ref)
    (n sz : Nat) (w : View) : Prop where
  all : 0 < sz → Good K w ∧ w.stale = r ∧ w.proc = π ∧ w.cell = ρ
  lost : sz = 0 → Table K R ρ π w (· < n)

theorem Table.procFreepagetable (T : Table K R ρ π v (upTo n X)) (hX : ∀ m, X m → Special 0 m)
    (hn : 0 < sz → n = pages sz) {r : Option Ref}
    (hr : r = none ∧ (∀ q P, π q = some P → P.pagetable ≠ some R) ∨
      ∃ q P, r = some (.root q) ∧ π q = some P ∧ P.pagetable = some R)
    (hE : (∀ m, Special 0 m → X m) ∨ E "uvmunmap: walk" ∧ (E "uvmunmap: not mapped" ∨
      (∀ m, ¬ X m) ∧ ¬ v.tables R (vpn TRAMPOLINE / 512))) :
    Wp K alone E (procFreepagetable R sz) (fun _ w => Gone K R ρ π r n sz w) v := by
  have hb : n ≤ 2 ^ 15 := T.bound fun m hm => .inl hm
  have hout : ∀ {m}, Special 0 m → (upTo n X m ↔ X m) := fun hsp =>
    or_iff_right fun hlt => not_special (by omega) hsp
  have hne : vpn TRAPFRAME ≠ vpn TRAMPOLINE := by decide
  refine (T.unmapTop (by decide) (by decide) special_trampoline
    fun hS => ?_).seq fun _ w hw => wp_bind.mpr ?_
  · rw [hout special_trampoline] at hS
    rcases hE with hall | ⟨hwalk, hE⟩
    · exact absurd (hall _ special_trampoline) hS
    · exact ⟨hwalk, hE.imp_right And.right⟩
  · obtain ⟨hS, T'⟩ := hw
    rw [hout special_trampoline] at hS
    refine (T'.unmapTop (by decide) (by decide) special_trapframe fun hS' => ?_).mono
      fun _ u hu => ?_
    · rw [hout special_trapframe] at hS'
      rcases hE with hall | ⟨hwalk, hE⟩
      · exact absurd ⟨hne, hall _ special_trapframe⟩ hS'
      · exact ⟨hwalk, .inl (hE.resolve_right fun h => h.1 _ hS)⟩
    · have Tu : Table K R ρ π u (· < n) := hu.2.maps_congr fun m => by
        constructor
        · rintro ⟨h₁, h₂, hm | hm⟩
          · exact hm
          · rcases hX m hm with ⟨-, rfl | rfl⟩
            · exact absurd rfl h₂
            · exact absurd rfl h₁
        · intro hm
          have hsp : ¬ Special 0 m := not_special (by omega)
          exact ⟨fun h => hsp (h ▸ special_trapframe), fun h => hsp (h ▸ special_trampoline), .inl hm⟩
      refine wp_ite (fun hsz => ?_) fun hsz => ⟨fun h => absurd h hsz, fun _ => Tu⟩
      rw [hn hsz] at Tu
      exact (Tu.uvmfree hsz hr).mono fun _ t ht => ⟨fun _ => ht, fun h => absurd h (by omega)⟩

/-! ### struct proc -/

/-- The record of `q` has become `P`, and nothing is stale. -/
def View.record (v : View) (q : Slot) (P : Proc) : View :=
  { v with proc := update v.proc q (some P), stale := none }

/-- A change that keeps or drops the trapframe and the page table. -/
theorem Good.record {N : Proc} (h : Good K v) (hs : v.stale = none ∨ v.stale = some (.tf q) ∨ v.stale = some (.root q))
    (hq : v.proc q = some P) (htf : N.tf = none ∨ N.tf = P.tf ∧ v.stale ≠ some (.tf q))
    (hpt : N.pagetable = none ∨ N.pagetable = P.pagetable ∧ v.stale ≠ some (.root q)) :
    Sets v q N (v.record q N) := by
  refine .same hs (fun f hf => ?_) fun R hR => ?_
  · rcases htf with htf | ⟨htf, hst⟩
    · rw [htf] at hf
      cases hf
    · exact h.held.tf hq (htf ▸ hf) hst
  · rcases hpt with hpt | ⟨hpt, hst⟩
    · rw [hpt] at hR
      cases hR
    · rw [hpt] at hR
      exact ⟨h.held.root hq hR hst, fun q' N' hne hq' hR' => hne (h.held.sole hq' hq hR' hR)⟩

namespace Table

theorem of (h : Good K v) (hs : v.stale = none) {e : Fin 512 → Pte} (hR : v.cell R = some (.node R 3 0 e)) :
    Table K R (v.rest R) v.proc v (v.mapped R) :=
  ⟨h, hs, rfl, rfl, ⟨e, hR⟩, fun _ => Iff.rfl⟩

theorem set (T : Table K R ρ π v S) (h : Sets v q P (v.record q P)) :
    Table K R ρ (update π q (some P)) (v.record q P) S where
  good := T.good.sets h
  stale := rfl
  proc := by rw [← T.proc]; rfl
  rest := T.rest
  root := T.root
  maps := T.maps

/-- The trapframe is freed and forgotten. -/
theorem freeTf (T : Table K R ρ π v S) (hq : π q = some P) (htf : P.tf = some f) {g : Proc → Proc}
    (hg : (g P).tf = none) (hpt : (g P).pagetable = P.pagetable) {α : Type} {Q : α → View → Prop} {x : Kernel α}
    (hx : ∀ w, Table K R (update ρ f none) (update π q (some (g P))) w S →
      (∀ b, w.tables R b → v.tables R b) → Wp K alone E x Q w) :
    Wp K alone E (do
      kfree f
      setProc q g
      x) Q v := by
  have hqv : v.proc q = some P := by rw [T.proc]; exact hq
  have hf : v.cell f = some (.tf q) := T.good.held.tf hqv htf (by rw [T.stale]; nofun)
  have hfree : Frees v f _ := .tf hf
  have hgood := (T.good.frees T.stale hfree).setLeft (v.left + 1)
  refine wp_bind.mpr (wp_kfree T.stale hfree (wp_bind.mpr ?_))
  have hset := hgood.record (.inr (.inl rfl)) hqv (.inl hg) (.inr ⟨hpt, nofun⟩)
  refine wp_setProc hqv hset (hx _ ⟨hgood.sets hset, rfl, ?_, ?_, ?_, fun n => ?_⟩ fun b hb => ?_)
  · rw [← T.proc]
    rfl
  · change (v.upd f none).rest R = _
    rw [rest_upd, T.rest]
    rfl
  · obtain ⟨e, hR⟩ := T.root
    have hRf : R ≠ f := ne_of_cell hR hf nofun
    exact ⟨e, by simpa [View.record, hRf] using hR⟩
  · rw [← T.maps n]
    constructor <;> refine mapped_mono fun k b' e' j hk hv => ⟨e', ?_, hv⟩
    · have hkf : k ≠ f := by
        rintro rfl
        simp [View.record] at hk
      simpa [View.record, hkf] using hk
    · have hkf : k ≠ f := ne_of_cell hk hf nofun
      simpa [View.record, hkf] using hk
  · obtain ⟨k, e, hk⟩ := hb
    have hkf : k ≠ f := by
      rintro rfl
      simp [View.record] at hk
    exact ⟨k, e, by simpa [View.record, hkf] using hk⟩

end Table

/-- `freeproc`. -/
theorem Table.freeproc (T : Table K R ρ π v (upTo n X)) (hX : ∀ m, X m → Special 0 m) (hq : π q = some P)
    (htf : P.tf = some f) (hpt : P.pagetable = some R) (hn : 0 < P.sz → n = pages P.sz)
    (hE : (∀ m, Special 0 m → X m) ∨ E "uvmunmap: walk" ∧ (E "uvmunmap: not mapped" ∨
      (∀ m, ¬ X m) ∧ ¬ v.tables R (vpn TRAMPOLINE / 512))) :
    Wp K alone E (freeproc q) (fun _ w =>
      Gone K R (update ρ f none) (update π q (some .free)) none n P.sz w) v := by
  refine wp_bind.mpr (wp_getProc (by rw [T.proc]; exact hq) ?_)
  rw [htf]
  refine T.freeTf hq htf rfl rfl fun w T' htables => ?_
  rw [hpt]
  have hq' : ∀ (π : Slot → Option Proc) (P' : Proc), update π q (some P') q = some P' :=
    fun π P' => update_self ..
  refine (T'.procFreepagetable hX hn
    (.inr ⟨q, _, rfl, hq' _ _, hpt⟩) (hE.imp_right (And.imp_right (Or.imp_right (And.imp_right fun h hw => h (htables _ hw)))))).seq fun _ u hu => wp_bind.mpr ?_
  have hfree : ∀ {P' : Proc}, update (update (update π q (some P')) q (some { P' with pagetable := none }))
      q (some .free) = update π q (some .free) := by
    intro P'
    rw [update_idem, update_idem]
  rcases Nat.eq_zero_or_pos P.sz with hsz | hsz
  · have Tu := hu.lost hsz
    have hset := Tu.good.record (N := { P with tf := none, pagetable := none }) (.inl Tu.stale)
      (by rw [Tu.proc]; exact hq' _ _) (.inl rfl) (.inl rfl)
    have Ts := Tu.set hset
    have hset' := Ts.good.record (N := .free) (.inl Ts.stale) (by rw [Ts.proc]; exact hq' _ _) (.inl rfl) (.inl rfl)
    refine wp_setProc (by rw [Tu.proc]; exact hq' _ _) hset (wp_setProc (by rw [Ts.proc]; exact hq' _ _) hset' ?_)
    refine ⟨fun h => absurd h (by omega), fun _ => ?_⟩
    rw [← hfree]
    exact Ts.set hset'
  · obtain ⟨hgood, hst, hproc, hcell⟩ := hu.all hsz
    have hset := hgood.record (N := { P with tf := none, pagetable := none }) (.inr (.inr hst))
      (by rw [hproc]; exact hq' _ _) (.inl rfl) (.inl rfl)
    have hgood' := hgood.sets hset
    have hqs : (u.record q { P with tf := none, pagetable := none }).proc q = some { P with tf := none, pagetable := none } :=
      update_self ..
    have hset' := hgood'.record (N := .free) (.inl rfl) hqs (.inl rfl) (.inl rfl)
    refine wp_setProc (by rw [hproc]; exact hq' _ _) hset (wp_setProc hqs hset' ?_)
    refine ⟨fun _ => ⟨hgood'.sets hset', rfl, ?_, hcell⟩, fun h => absurd h (by omega)⟩
    rw [← hfree, ← hproc]
    rfl

end Xv6.Mem
