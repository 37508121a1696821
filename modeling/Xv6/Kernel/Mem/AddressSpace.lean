import Xv6.Kernel.Mem.CopyUser
import Xv6.Kernel.Mem.Uvm

/-! Address spaces and the free list share out the pages of memory.

    ```
    free list ──kalloc──▶ page-table pages
              ──kalloc──▶ data pages ──uvmunmap──▶ free list
    ```

    A change to an address space moves pages between the three; it loses none, and leaves all other
    pages of memory as they are. -/

namespace Xv6.Sv39
open Hoare Radix Function
open Mem (PGSIZE PGROUNDDOWN PGROUNDUP MAXVA TRAPFRAME lastPage)

variable {kend pt va vb a f perm : Nat} {s t u : State} {E : String → Prop} {rest : List Nat} {c : Fin 512 → Nat}

/-- The data pages are distinct, and neither free nor page-table pages; the pages of the user and the free
    pages are such that `kfree` takes. -/
structure AddressSpace (kend : Nat) (s : State) (pt : Nat) : Prop where
  sound : Sound s pt
  ram : ∀ f ∈ s.free, RamPage kend f
  data : ∀ va m, va < MAXVA → translate s pt va = some m → m.1 ∉ s.free ∧ Outside next s.mem pt 2 m.1
  distinct : ∀ va vb m n, va < MAXVA → vb < MAXVA → translate s pt va = some m → translate s pt vb = some n →
    m.1 = n.1 → va / PGSIZE = vb / PGSIZE
  user : ∀ va m, va < TRAPFRAME → translate s pt va = some m → RamPage kend m.1

/-- A page of zeros is an address space without pages. -/
theorem addressSpace_zero (hz : ∀ i, s.mem pt i = 0) (hram : ∀ f ∈ s.free, RamPage kend f) (hnodup : s.free.Nodup)
    (hpt : pt ∉ s.free) : AddressSpace kend s pt := by
  have hnone : ∀ va m, translate s pt va ≠ some m := fun va m hm => by
    rw [translate_zero hz] at hm
    cases hm
  have hpage : ∀ f ∈ s.free, f % PGSIZE = 0 ∧ f < 2 ^ 56 := fun f hf =>
    ⟨(hram f hf).1, (hram f hf).2.2.trans (by decide)⟩
  exact ⟨sound_zero hz hpage hnodup hpt, hram, fun va m _ hm => absurd hm (hnone va m),
    fun va _ m _ _ _ hm _ _ => absurd hm (hnone va m), fun va m _ hm => absurd hm (hnone va m)⟩

/-- The pages of the free list and of the address space. -/
def Owns (s : State) (pt f : Nat) : Prop :=
  f ∈ s.free ∨ (∃ q : List (Fin 512), q.length ≤ 2 ∧ table s pt q = some f) ∨
    ∃ va m, va < MAXVA ∧ translate s pt va = some m ∧ m.1 = f

/-- From `s` to `t` no page is lost, and the pages of others are as they were. -/
structure Change (kend pt : Nat) (s t : State) : Prop where
  space : AddressSpace kend t pt
  owns : ∀ f, Owns t pt f ↔ Owns s pt f
  frame : ∀ f, ¬ Owns s pt f → t.mem f = s.mem f
  kept : ∀ q f, q.length ≤ 2 → table s pt q = some f → table t pt q = some f

theorem Change.refl (h : AddressSpace kend s pt) : Change kend pt s s :=
  ⟨h, fun _ => Iff.rfl, fun _ _ => rfl, fun _ _ _ => id⟩

theorem Change.trans (h : Change kend pt s t) (h' : Change kend pt t u) : Change kend pt s u where
  space := h'.space
  owns f := (h'.owns f).trans (h.owns f)
  frame f hf := (h'.frame f fun ht => hf ((h.owns f).mp ht)).trans (h.frame f hf)
  kept q f hq hf := h'.kept q f hq (h.kept q f hq hf)

/-- The addresses in `V` keep their pages, with the contents. -/
def Keeps (pt : Nat) (V : Nat → Prop) (s t : State) : Prop :=
  ∀ va m, va < MAXVA → V va → translate s pt va = some m → translate t pt va = some m ∧ t.mem m.1 = s.mem m.1

theorem Keeps.refl (pt : Nat) (V : Nat → Prop) (s : State) : Keeps pt V s s := fun _ _ _ _ hm => ⟨hm, rfl⟩

theorem Keeps.trans {V : Nat → Prop} (h : Keeps pt V s t) (h' : Keeps pt V t u) : Keeps pt V s u :=
  fun va m hva hV hm => by
    obtain ⟨ht, hmem⟩ := h va m hva hV hm
    obtain ⟨hu, hmem'⟩ := h' va m hva hV ht
    exact ⟨hu, hmem'.trans hmem⟩

theorem Keeps.mono {V W : Nat → Prop} (h : Keeps pt V s t) (hW : ∀ va, W va → V va) : Keeps pt W s t :=
  fun va m hva hV hm => h va m hva (hW va hV) hm

/-- The entries of the root that no address below `MAXVA` goes through are as they were. -/
def UpperKept (pt : Nat) (s t : State) : Prop := ∀ i : Fin 512, 256 ≤ i.val → t.mem pt i = s.mem pt i

theorem UpperKept.refl (pt : Nat) (s : State) : UpperKept pt s s := fun _ _ => rfl

theorem UpperKept.trans (h : UpperKept pt s t) (h' : UpperKept pt t u) : UpperKept pt s u := fun i hi =>
  (h' i hi).trans (h i hi)

theorem PX_lt (hva : va < MAXVA) : (PX 2 va).val < 256 := by
  rw [PX_val]
  unfold MAXVA at hva
  omega

/-- A table grows below the entries of the addresses. -/
theorem Grown.upperKept {S : Nat → Prop} (h : Grown pt S s t) (hs : Sound s pt) (hS : ∀ va, S va → va < MAXVA) :
    UpperKept pt s t := fun i hi => by
  by_contra hne
  have hpt : pt ∉ s.free := fun hin => hs.alloc.outside pt hin [] (Nat.zero_le 2) rfl
  obtain ⟨va, q, hva, hq, hn, hpre⟩ := h.changed pt i hpt hne
  obtain rfl : q = [] := hs.table q [] pt hq (Nat.zero_le 2) hn rfl
  obtain ⟨rfl, -⟩ := List.cons_prefix_cons.mp (show i :: [] <+: PX 2 va :: (down va 1 ++ [PX 0 va]) from hpre)
  have := PX_lt (hS va hva)
  omega

/-! ### A page that is held -/

/-- A page has been taken from the free list, and filled. -/
def State.hold (s : State) (f : Nat) (rest : List Nat) (c : Fin 512 → Nat) : State := ⟨rest, update s.mem f c⟩

theorem hold_mem {g : Nat} (h : g ≠ f) : (s.hold f rest c).mem g = s.mem g := update_of_ne h _ _

theorem kalloc_nil (h : s.free = []) : kalloc s = .ok (none, s) := by
  rw [kalloc, bind_ok rfl, h]
  rfl

theorem kalloc_cons (h : s.free = f :: rest) :
    kalloc s = .ok (some f, s.hold f rest fun _ => 5 * 0x0101010101010101) := by
  rw [kalloc, bind_ok rfl, h]
  rfl

/-- A page has been given back. -/
def State.release (s : State) (f : Nat) : State := ⟨f :: s.free, (s.memset f 1).mem⟩

theorem kfree_run (h : RamPage kend f) (s : State) : kfree kend f s = .ok ((), s.release f) := by
  obtain ⟨hal, hlo, hhi⟩ := h
  rw [kfree, if_neg (by omega)]
  rfl

/-- What is known after the page `f` has been taken, and the table has grown. -/
structure Holding (pt f : Nat) (rest : List Nat) (c : Fin 512 → Nat) (s t : State) : Prop where
  sound : Sound t pt
  free : ∀ g, g ∈ t.free → g ∈ rest
  used : ∀ g, g ∈ rest → g ∈ t.free ∨ ∃ q : List (Fin 512), q.length ≤ 2 ∧ table t pt q = some g
  kept : ∀ q g, q.length ≤ 2 → table s pt q = some g → table t pt q = some g
  table : ∀ q g, q.length ≤ 2 → table t pt q = some g → table s pt q = some g ∨ g ∈ rest
  mem : ∀ g, g ≠ f → g ∉ rest → Outside next s.mem pt 2 g → t.mem g = s.mem g
  contents : t.mem f = c

section Hold

variable (h : AddressSpace kend s pt) (hfree : s.free = f :: rest)

include hfree

theorem mem_free_of_rest {g : Nat} (hg : g ∈ rest) : g ∈ s.free := by
  rw [hfree]
  exact List.mem_cons_of_mem _ hg

theorem head_free : f ∈ s.free := by
  rw [hfree]
  exact List.mem_cons_self

include h

theorem head_notMem : f ∉ rest := by
  have := h.sound.alloc.nodup
  rw [hfree, List.nodup_cons] at this
  exact this.1

theorem head_outside : Outside next s.mem pt 2 f := h.sound.alloc.outside f (head_free hfree)

theorem table_hold {q : List (Fin 512)} (hq : q.length ≤ 2) : table (s.hold f rest c) pt q = table s pt q :=
  node_update (head_outside h hfree) _ hq

theorem translate_hold (va : Nat) : translate (s.hold f rest c) pt va = translate s pt va :=
  translate_congr (fun q g hq hg => update_of_ne (fun heq : g = f => head_outside h hfree q hq (heq ▸ hg)) _ _) va

theorem head_ne_root : pt ≠ f := fun heq => head_outside h hfree [] (Nat.zero_le 2) (congrArg some heq)

theorem sound_hold : Sound (s.hold f rest c) pt := by
  have hsub : ∀ g ∈ rest, g ∈ s.free := fun g => mem_free_of_rest hfree
  have hnodup := h.sound.alloc.nodup
  rw [hfree, List.nodup_cons] at hnodup
  refine ⟨fun q q' g hq hq' hg hg' => ?_, fun g hg => h.sound.alloc.page g (hsub g hg), hnodup.2, fun g hg q hq hn => ?_⟩
  · exact h.sound.table q q' g hq hq' ((table_hold h hfree hq).symm.trans hg) ((table_hold h hfree hq').symm.trans hg')
  · exact h.sound.alloc.outside g (hsub g hg) q hq ((table_hold h hfree hq).symm.trans hn)

/-- The table grows while the page is held. -/
theorem holding_step {S : Nat → Prop} {T : Nat → Option (Nat × Nat)} (hstep : Step pt S T (s.hold f rest c) t)
    (hused : Used pt (s.hold f rest c) t) : Holding pt f rest c s t := by
  have hmem : ∀ g, g ∉ rest → Outside next s.mem pt 2 g → t.mem g = (s.hold f rest c).mem g := fun g hg hout => by
    funext j
    by_contra hne
    obtain ⟨va, q, -, hq, hn, -⟩ := hstep.grown.changed g j hg hne
    exact hout q hq ((table_hold h hfree hq).symm.trans hn)
  refine ⟨hstep.sound, fun g hg => hstep.grown.free.subset hg, hused, fun q g hq hg => ?_, fun q g hq hg => ?_,
    fun g hgf hg hout => ?_, ?_⟩
  · exact hstep.grown.kept q g hq ((table_hold h hfree hq).trans hg)
  · cases hs : Sv39.table s pt q with
    | none => exact .inr (hstep.grown.added q g hq hg ((table_hold h hfree hq).trans hs)).1
    | some b =>
      have hb := hstep.grown.kept q b hq ((table_hold h hfree hq).trans hs)
      exact .inl (congrArg some (Option.some.inj (hb.symm.trans hg)))
  · exact (hmem g hg hout).trans (update_of_ne hgf _ _)
  · exact (hmem f (head_notMem h hfree) (head_outside h hfree)).trans (update_self _ _ _)

omit h hfree in
/-- What neither the free list nor the table had is as it was. -/
theorem Holding.outside (hh : Holding pt f rest c s t) {g : Nat} (hg : g ∉ rest) (hout : Outside next s.mem pt 2 g) :
    Outside next t.mem pt 2 g := fun q hq hn => by
  rcases hh.table q g hq hn with hs | hin
  · exact hout q hq hs
  · exact hg hin

/-- The data pages of the address space are as they were. -/
theorem Holding.data (hh : Holding pt f rest c s t) {m : Nat × Nat} (hva : va < MAXVA) (hm : translate s pt va = some m) :
    m.1 ∉ t.free ∧ Outside next t.mem pt 2 m.1 ∧ t.mem m.1 = s.mem m.1 ∧ m.1 ≠ f := by
  obtain ⟨hnot, hout⟩ := h.data va m hva hm
  have hrest : m.1 ∉ rest := fun hin => hnot (mem_free_of_rest hfree hin)
  have hne : m.1 ≠ f := fun heq => hnot (heq ▸ head_free hfree)
  exact ⟨fun hin => hrest (hh.free _ hin), hh.outside hrest hout, hh.mem _ hne hrest hout, hne⟩

/-- The page that was held is mapped at `a`. -/
theorem Holding.mapped (hh : Holding pt f rest c s t) (ha : a < MAXVA) (hnew : translate s pt a = none)
    (hmap : ∀ vb, vb < MAXVA → translate t pt vb = withPage (translate s pt) a f perm vb) :
    Change kend pt s t ∧ Keeps pt (fun _ => True) s t := by
  have hself : translate t pt a = some (f, perm ||| PTE_V) := by rw [hmap a ha, withPage, if_pos rfl]
  have hold : ∀ {va m}, va < MAXVA → translate s pt va = some m → translate t pt va = some m := fun {va m} hva hm => by
    rw [hmap va hva, withPage, if_neg fun heq => ?_, hm]
    rw [translate_page heq, hnew] at hm
    cases hm
  have hcase : ∀ {va m}, va < MAXVA → translate t pt va = some m →
      (va / PGSIZE = a / PGSIZE ∧ m.1 = f) ∨ translate s pt va = some m := fun {va m} hva hm => by
    rw [hmap va hva, withPage] at hm
    split at hm
    · rename_i heq
      cases hm
      exact .inl ⟨heq, rfl⟩
    · exact .inr hm
  have hff : f ∉ t.free := fun hin => head_notMem h hfree (hh.free f hin)
  have hfout := hh.outside (head_notMem h hfree) (head_outside h hfree)
  refine ⟨⟨⟨hh.sound, fun g hg => h.ram g (mem_free_of_rest hfree (hh.free g hg)), fun va m hva hm => ?_,
    fun va vb m n hva hvb hm hn heq => ?_, fun va m hva hm => ?_⟩, fun g => ⟨fun hg => ?_, fun hg => ?_⟩, fun g hg => ?_, hh.kept⟩,
    fun va m hva _ hm => ⟨hold hva hm, (hh.data h hfree hva hm).2.2.1⟩⟩
  · rcases hcase hva hm with ⟨-, rfl⟩ | hm
    · exact ⟨hff, hfout⟩
    · exact ⟨(hh.data h hfree hva hm).1, (hh.data h hfree hva hm).2.1⟩
  · rcases hcase hva hm with ⟨hpa, hmf⟩ | hm <;> rcases hcase hvb hn with ⟨hpb, hnf⟩ | hn
    · rw [hpa, hpb]
    · exact absurd (heq.symm.trans hmf) (hh.data h hfree hvb hn).2.2.2
    · exact absurd (heq.trans hnf) (hh.data h hfree hva hm).2.2.2
    · exact h.distinct va vb m n hva hvb hm hn heq
  · rcases hcase (hva.trans (by decide)) hm with ⟨-, hmf⟩ | hm
    · rw [hmf]
      exact h.ram f (head_free hfree)
    · exact h.user va m hva hm
  · rcases hg with hg | ⟨q, hq, hg⟩ | ⟨va, m, hva, hm, rfl⟩
    · exact .inl (mem_free_of_rest hfree (hh.free g hg))
    · rcases hh.table q g hq hg with hs | hin
      · exact .inr (.inl ⟨q, hq, hs⟩)
      · exact .inl (mem_free_of_rest hfree hin)
    · rcases hcase hva hm with ⟨-, hmf⟩ | hm
      · exact .inl (hmf ▸ head_free hfree)
      · exact .inr (.inr ⟨va, m, hva, hm, rfl⟩)
  · rcases hg with hg | ⟨q, hq, hg⟩ | ⟨va, m, hva, hm, rfl⟩
    · rw [hfree] at hg
      rcases List.mem_cons.mp hg with rfl | hin
      · exact .inr (.inr ⟨a, _, ha, hself, rfl⟩)
      · exact (hh.used g hin).imp_right .inl
    · exact .inr (.inl ⟨q, hq, hh.kept q g hq hg⟩)
    · exact .inr (.inr ⟨va, m, hva, hold hva hm, rfl⟩)
  · have hgf : g ≠ f := fun heq => hg (.inl (heq ▸ head_free hfree))
    exact hh.mem g hgf (fun hin => hg (.inl (mem_free_of_rest hfree hin))) fun q hq hn => hg (.inr (.inl ⟨q, hq, hn⟩))

/-- The page that was held is freed again. -/
theorem Holding.freed (hh : Holding pt f rest c s t) (hmap : ∀ vb, vb < MAXVA → translate t pt vb = translate s pt vb) :
    Change kend pt s (t.release f) ∧
      Keeps pt (fun _ => True) s (t.release f) ∧
      ∀ vb, vb < MAXVA → translate (t.release f) pt vb = translate s pt vb := by
  have hfout := hh.outside (head_notMem h hfree) (head_outside h hfree)
  have htable : ∀ q : List (Fin 512), q.length ≤ 2 →
      Sv39.table (t.release f) pt q = Sv39.table t pt q := fun q hq => node_update hfout _ hq
  have hmap' : ∀ vb, vb < MAXVA → translate (t.release f) pt vb = translate s pt vb :=
    fun vb hvb => (translate_memset hfout vb).trans (hmap vb hvb)
  have hmem : ∀ {g}, g ≠ f → (t.release f).mem g = t.mem g := fun hg =>
    update_of_ne hg _ _
  have hff : f ∉ t.free := fun hin => head_notMem h hfree (hh.free f hin)
  have hsub : ∀ g, g ∈ f :: t.free → g ∈ s.free := fun g hg => by
    rcases List.mem_cons.mp hg with rfl | hin
    · exact head_free hfree
    · exact mem_free_of_rest hfree (hh.free g hin)
  refine ⟨⟨⟨⟨fun q q' g hq hq' hg hg' => ?_, fun g hg => h.sound.alloc.page g (hsub g hg), ?_, fun g hg q hq hn => ?_⟩,
    fun g hg => h.ram g (hsub g hg), fun va m hva hm => ?_, fun va vb m n hva hvb hm hn heq => ?_, fun va m hva hm => ?_⟩,
    fun g => ⟨fun hg => ?_, fun hg => ?_⟩, fun g hg => ?_, fun q g hq hg => (htable q hq).trans (hh.kept q g hq hg)⟩,
    fun va m hva _ hm => ⟨(hmap' va hva).trans hm, ?_⟩, hmap'⟩
  · exact hh.sound.table q q' g hq hq' ((htable q hq).symm.trans hg) ((htable q' hq').symm.trans hg')
  · exact List.nodup_cons.mpr ⟨hff, hh.sound.alloc.nodup⟩
  · have hold := (htable q hq).symm.trans hn
    rcases List.mem_cons.mp hg with heq | hin
    · exact hfout q hq (heq ▸ hold)
    · exact hh.sound.alloc.outside g hin q hq hold
  · rw [hmap' va hva] at hm
    obtain ⟨hnot, hout, -, hne⟩ := hh.data h hfree hva hm
    refine ⟨fun hin => ?_, fun q hq hn => hout q hq ((htable q hq).symm.trans hn)⟩
    rcases List.mem_cons.mp hin with heq | hin
    · exact hne heq
    · exact hnot hin
  · rw [hmap' va hva] at hm
    rw [hmap' vb hvb] at hn
    exact h.distinct va vb m n hva hvb hm hn heq
  · rw [hmap' va (hva.trans (by decide))] at hm
    exact h.user va m hva hm
  · rcases hg with hg | ⟨q, hq, hg⟩ | ⟨va, m, hva, hm, rfl⟩
    · exact .inl (hsub g hg)
    · rcases hh.table q g hq ((htable q hq).symm.trans hg) with hs | hin
      · exact .inr (.inl ⟨q, hq, hs⟩)
      · exact .inl (mem_free_of_rest hfree hin)
    · exact .inr (.inr ⟨va, m, hva, (hmap' va hva).symm.trans hm, rfl⟩)
  · rcases hg with hg | ⟨q, hq, hg⟩ | ⟨va, m, hva, hm, rfl⟩
    · rw [hfree] at hg
      rcases List.mem_cons.mp hg with rfl | hin
      · exact .inl List.mem_cons_self
      · rcases hh.used g hin with hin | ⟨q, hq, hn⟩
        · exact .inl (List.mem_cons_of_mem _ hin)
        · exact .inr (.inl ⟨q, hq, (htable q hq).trans hn⟩)
    · exact .inr (.inl ⟨q, hq, (htable q hq).trans (hh.kept q g hq hg)⟩)
    · exact .inr (.inr ⟨va, m, hva, (hmap' va hva).trans hm, rfl⟩)
  · have hgf : g ≠ f := fun heq => hg (.inl (heq ▸ head_free hfree))
    rw [hmem hgf]
    exact hh.mem g hgf (fun hin => hg (.inl (mem_free_of_rest hfree hin))) fun q hq hn => hg (.inr (.inl ⟨q, hq, hn⟩))
  · obtain ⟨-, -, hmem', hne⟩ := hh.data h hfree hva hm
    rw [hmem hne, hmem']

end Hold

/-! ### `mapNew` -/

/-- A page is one round of `mappages`. -/
theorem mappages_page {pa : Nat} (hal : a % PGSIZE = 0) (ha : a < MAXVA) : mappages pt a PGSIZE pa perm = (do
    if ← mapPage pt a pa perm then pure 0 else pure (-1)) := by
  have hlast : lastPage a PGSIZE = a := by
    unfold lastPage PGROUNDDOWN MAXVA PGSIZE at *
    omega
  have hdown : PGROUNDDOWN a = a := by
    unfold PGROUNDDOWN PGSIZE at *
    omega
  rw [mappages, hlast, hdown, rounds, mapLoop]
  simp only [if_true]

/-- A page is added to the address space, with what `fill` writes to it, or there is no memory. -/
theorem mapNew_ok {fill : Nat → M Unit} {P : Nat → (Fin 512 → Nat) → Prop} (h : AddressSpace kend s pt)
    (hal : a % PGSIZE = 0) (ha : a < MAXVA) (hnew : translate s pt a = none) (hperm : perm < 2 ^ 10)
    (hfill : ∀ f rest c, s.free = f :: rest → ∃ c', fill f (s.hold f rest c) = .ok ((), s.hold f rest c') ∧ P f c') :
    wp E (mapNew kend pt a perm fill) (fun r t => Change kend pt s t ∧ Keeps pt (fun _ => True) s t ∧
      UpperKept pt s t ∧ (∀ g, g ∈ t.free → g ∈ s.free) ∧
      (r = true ∧ (∃ f, f ∈ s.free ∧ P f (t.mem f) ∧
        ∀ vb, vb < MAXVA → translate t pt vb = withPage (translate s pt) a f perm vb) ∨
       r = false ∧ ∀ vb, vb < MAXVA → translate t pt vb = translate s pt vb)) s := by
  rw [mapNew, wp_bind]
  rcases hfree : s.free with _ | ⟨f, rest⟩
  · exact wp_of_eq (kalloc_nil hfree) ⟨.refl h, .refl _ _ _, .refl _ _, fun g hg => hfree ▸ hg, .inr ⟨rfl, fun _ _ => rfl⟩⟩
  · rw [← hfree]
    obtain ⟨c, hrun, hP⟩ := hfill f rest (fun _ => 5 * 0x0101010101010101) hfree
    have hf := h.sound.alloc.page f (head_free hfree)
    refine wp_of_eq (kalloc_cons hfree) (wp_bind.mpr (wp_of_eq hrun ?_))
    rw [mappages_page hal ha]
    simp only [wp_bind]
    have hnew' : translate (s.hold f rest c) pt a = none := (translate_hold h hfree a).trans hnew
    have hroot := head_ne_root h hfree
    have hupper : ∀ {T t}, Step pt (· = a) T (s.hold f rest c) t → UpperKept pt s t := fun ht i hi => by
      rw [ht.grown.upperKept (sound_hold h hfree) (fun va hva => hva ▸ ha) i hi, hold_mem hroot]
    refine (mapPage_ok (S := (· = a)) (sound_hold h hfree) rfl ha hnew' (by omega) hf.1 hperm).mono fun r t hrt => ?_
    obtain ⟨hused, ht⟩ := hrt
    cases r with
    | true =>
      rw [if_pos rfl] at ht
      have hh := holding_step h hfree ht hused
      have hmap : ∀ vb, vb < MAXVA → translate t pt vb = withPage (translate s pt) a f perm vb := fun vb hvb => by
        rw [ht.map vb hvb, withPage, withPage, translate_hold h hfree]
      obtain ⟨hchange, hkeeps⟩ := hh.mapped h hfree ha hnew hmap
      refine ⟨hchange, hkeeps, hupper ht, fun g hg => mem_free_of_rest hfree (hh.free g hg), .inl ⟨rfl, f, head_free hfree, ?_, hmap⟩⟩
      rw [hh.contents]
      exact hP
    | false =>
      rw [if_neg Bool.false_ne_true] at ht
      have hh := holding_step h hfree ht.1 hused
      obtain ⟨hchange, hkeeps, hmap⟩ := hh.freed h hfree fun vb hvb =>
        (ht.1.map vb hvb).trans (translate_hold h hfree vb)
      rw [if_neg Bool.false_ne_true, wp_pure, if_pos (by decide), wp_bind]
      have hupper' : UpperKept pt s (t.release f) := fun i hi =>
        (congrFun (update_of_ne hroot _ _) i).trans (hupper ht.1 i hi)
      refine wp_of_eq (kfree_run (h.ram f (head_free hfree)) t) ⟨hchange, hkeeps, hupper', fun g hg => ?_, .inr ⟨rfl, hmap⟩⟩
      rcases List.mem_cons.mp hg with rfl | hin
      · exact head_free hfree
      · exact mem_free_of_rest hfree (hh.free g hin)

/-! ### `uvmunmap` -/

theorem table_of_translate {m : Nat × Nat} (h : translate s pt va = some m) : ∃ b, table s pt (down va 2) = some b := by
  unfold translate entry at h
  cases hb : table s pt (down va 2) with
  | none =>
    rw [show node next s.mem pt (down va 2) = none from hb] at h
    cases h
  | some b => exact ⟨b, rfl⟩

/-- A page is freed, and its entry cleared. -/
theorem unmapPage_run {m : Nat × Nat} (ha : a < MAXVA) (hm : translate s pt a = some m) (hleaf : m.2 ≠ PTE_V)
    (hram : RamPage kend m.1) : ∃ b, table s pt (down a 2) = some b ∧
      unmapPage kend pt a true s = .ok ((), (s.release m.1).store b (PX 0 a) 0) := by
  obtain ⟨b, hb⟩ := table_of_translate hm
  refine ⟨b, hb, ?_⟩
  rw [translate_eq hb, leaf] at hm
  split at hm
  · rename_i hv
    cases hm
    rw [unmapPage, bind_ok (walk_eq ha), hb]
    simp only [Option.map_some]
    rw [bind_ok rfl, if_neg hv, if_neg hleaf]
    simp only [if_true]
    rw [bind_ok (kfree_run hram s)]
    rfl
  · cases hm

/-- The pages of a range have been freed. -/
structure Shrunk (kend pt lo hi : Nat) (s t : State) : Prop where
  change : Change kend pt s t
  keeps : Keeps pt (fun va => va < lo ∨ hi ≤ va) s t
  map : ∀ va, va < MAXVA → translate t pt va = if lo ≤ va ∧ va < hi then none else translate s pt va
  freed : ∀ va m, va < MAXVA → lo ≤ va → va < hi → translate s pt va = some m → m.1 ∈ t.free
  free : ∀ f, f ∈ s.free → f ∈ t.free
  back : ∀ f, f ∈ t.free → f ∈ s.free ∨ ∃ va m, va < MAXVA ∧ lo ≤ va ∧ va < hi ∧ translate s pt va = some m ∧ m.1 = f

namespace Shrunk

variable {lo mid hi : Nat}

theorem refl (h : AddressSpace kend s pt) (lo : Nat) : Shrunk kend pt lo lo s s :=
  ⟨.refl h, .refl _ _ _, fun va _ => (if_neg (by omega)).symm, fun _ _ _ _ _ _ => by omega, fun _ => id, fun _ => .inl⟩

theorem trans (h : Shrunk kend pt lo mid s t) (h' : Shrunk kend pt mid hi t u) (hlo : lo ≤ mid) (hhi : mid ≤ hi) :
    Shrunk kend pt lo hi s u := by
  refine ⟨h.change.trans h'.change, (h.keeps.mono fun va hva => ?_).trans (h'.keeps.mono fun va hva => ?_),
    fun va hva => ?_, fun va m hva hl hh hm => ?_, fun f hf => h'.free f (h.free f hf), fun f hf => ?_⟩
  · omega
  · omega
  · rw [h'.map va hva, h.map va hva]
    by_cases h₁ : mid ≤ va ∧ va < hi
    · rw [if_pos h₁, if_pos (by omega)]
    · rw [if_neg h₁]
      by_cases h₂ : lo ≤ va ∧ va < mid
      · rw [if_pos h₂, if_pos (by omega)]
      · rw [if_neg h₂, if_neg (by omega)]
  · by_cases hmid : va < mid
    · exact h'.free _ (h.freed va m hva hl hmid hm)
    · refine h'.freed va m hva (by omega) hh ?_
      rw [h.map va hva, if_neg (by omega), hm]
  · rcases h'.back f hf with hf | ⟨va, m, hva, hl, hh, hm, rfl⟩
    · rcases h.back f hf with hf | ⟨va, m, hva, hl, hh, hm, rfl⟩
      · exact .inl hf
      · exact .inr ⟨va, m, hva, hl, by omega, hm, rfl⟩
    · rw [h.map va hva, if_neg (by omega)] at hm
      exact .inr ⟨va, m, hva, by omega, hh, hm, rfl⟩

end Shrunk

theorem unmapPage_shrunk {m : Nat × Nat} (h : AddressSpace kend s pt) (hal : a % PGSIZE = 0) (ha : a < MAXVA)
    (hm : translate s pt a = some m) (hleaf : m.2 ≠ PTE_V) (hram : RamPage kend m.1) :
    ∃ t, unmapPage kend pt a true s = .ok ((), t) ∧ UpperKept pt s t ∧ Shrunk kend pt a (a + PGSIZE) s t := by
  obtain ⟨b, hb, hrun⟩ := unmapPage_run ha hm hleaf hram
  obtain ⟨hnot, hout⟩ := h.data a m ha hm
  have hok : wp (fun _ => False) (unmapPage kend pt a true)
      (fun _ t => Unmapped pt (withoutPage (translate s pt) a) s t) s :=
    unmapPage_ok h.sound.table ha hm ⟨hleaf, fun _ => hram, fun _ => hout⟩
  have hun : Unmapped pt (withoutPage (translate s pt) a) s ((s.release m.1).store b (PX 0 a) 0) := by
    obtain ⟨_, t, hrun', hun⟩ := hok.returns
    rw [hrun] at hrun'
    cases hrun'
    exact hun
  obtain ⟨t, ht⟩ : ∃ t, t = (s.release m.1).store b (PX 0 a) 0 := ⟨_, rfl⟩
  have hfree : t.free = m.1 :: s.free := by rw [ht]; rfl
  have hmem : ∀ g, g ≠ m.1 → g ≠ b → t.mem g = s.mem g := fun g hgm hgb => by
    rw [ht]
    exact (update_of_ne hgb _ _).trans (update_of_ne hgm _ _)
  rw [← ht] at hrun hun
  -- an address is on the page that goes, or keeps its own
  have hpage : ∀ {va n}, va < MAXVA → translate s pt va = some n →
      (va / PGSIZE = a / PGSIZE ∧ n = m) ∨ (va / PGSIZE ≠ a / PGSIZE ∧ n.1 ≠ m.1 ∧ translate t pt va = some n) :=
    fun {va n} hva hn => by
      by_cases heq : va / PGSIZE = a / PGSIZE
      · rw [translate_page heq, hm] at hn
        exact .inl ⟨heq, (Option.some.inj hn).symm⟩
      · exact .inr ⟨heq, fun hnm => heq (h.distinct va a n m hva ha hn hm hnm),
          by rw [hun.map va hva, withoutPage, if_neg heq, hn]⟩
  have hback : ∀ {va n}, va < MAXVA → translate t pt va = some n → va / PGSIZE ≠ a / PGSIZE ∧ translate s pt va = some n :=
    fun {va n} hva hn => by
      rw [hun.map va hva, withoutPage] at hn
      split at hn
      · cases hn
      · rename_i hne
        exact ⟨hne, hn⟩
  have hspace : AddressSpace kend t pt := by
    refine ⟨⟨hun.wellFormed h.sound.table, fun g hg => ?_, ?_, fun g hg => hun.outside ?_⟩, fun g hg => ?_,
      fun va n hva hn => ?_, fun va vb n n' hva hvb hn hn' heq => ?_, fun va n hva hn => ?_⟩
    · rw [hfree] at hg
      rcases List.mem_cons.mp hg with rfl | hin
      · exact ⟨hram.1, hram.2.2.trans (by decide)⟩
      · exact h.sound.alloc.page g hin
    · rw [hfree]
      exact List.nodup_cons.mpr ⟨hnot, h.sound.alloc.nodup⟩
    · rw [hfree] at hg
      rcases List.mem_cons.mp hg with rfl | hin
      · exact hout
      · exact h.sound.alloc.outside g hin
    · rw [hfree] at hg
      rcases List.mem_cons.mp hg with rfl | hin
      · exact hram
      · exact h.ram g hin
    · obtain ⟨hne, hs⟩ := hback hva hn
      refine ⟨fun hin => ?_, hun.outside (h.data va n hva hs).2⟩
      rw [hfree] at hin
      rcases List.mem_cons.mp hin with heq | hin
      · exact hne (h.distinct va a n m hva ha hs hm heq)
      · exact (h.data va n hva hs).1 hin
    · exact h.distinct va vb n n' hva hvb (hback hva hn).2 (hback hvb hn').2 heq
    · exact h.user va n hva (hback (hva.trans (by decide)) hn).2
  have hupper : UpperKept pt s t := fun i _ => by
    refine congrFun (hmem pt (fun heq => hout [] (Nat.zero_le 2) (congrArg some heq)) fun heq => ?_) i
    have := h.sound.table [] (down a 2) pt (Nat.zero_le 2) (Nat.le_refl 2) rfl (heq ▸ hb)
    cases this
  refine ⟨t, hrun, hupper, ⟨hspace, fun g => ⟨fun hg => ?_, fun hg => ?_⟩, fun g hg => ?_,
    fun q g hq hg => (hun.table q hq).trans hg⟩, fun va n hva hV hn => ?_,
    fun va hva => ?_, fun va n hva hlo hhi hn => ?_, fun g hg => ?_, fun g hg => ?_⟩
  · rcases hg with hg | ⟨q, hq, hg⟩ | ⟨va, n, hva, hn, rfl⟩
    · rw [hfree] at hg
      rcases List.mem_cons.mp hg with rfl | hin
      · exact .inr (.inr ⟨a, m, ha, hm, rfl⟩)
      · exact .inl hin
    · exact .inr (.inl ⟨q, hq, (hun.table q hq).symm.trans hg⟩)
    · exact .inr (.inr ⟨va, n, hva, (hback hva hn).2, rfl⟩)
  · rcases hg with hg | ⟨q, hq, hg⟩ | ⟨va, n, hva, hn, rfl⟩
    · exact .inl (hfree ▸ List.mem_cons_of_mem _ hg)
    · exact .inr (.inl ⟨q, hq, (hun.table q hq).trans hg⟩)
    · rcases hpage hva hn with ⟨-, rfl⟩ | ⟨-, -, hn'⟩
      · exact .inl (hfree ▸ List.mem_cons_self)
      · exact .inr (.inr ⟨va, n, hva, hn', rfl⟩)
  · exact hmem g (fun heq => hg (.inr (.inr ⟨a, m, ha, hm, heq.symm⟩))) fun heq =>
      hg (.inr (.inl ⟨down a 2, Nat.le_refl 2, heq ▸ hb⟩))
  · rcases hpage hva hn with ⟨heq, -⟩ | ⟨-, hne, hn'⟩
    · unfold PGSIZE at *
      omega
    · exact ⟨hn', hmem _ hne fun heq => (h.data va n hva hn).2 (down a 2) (Nat.le_refl 2) (heq ▸ hb)⟩
  · rw [hun.map va hva, withoutPage]
    refine if_congr ?_ rfl rfl
    unfold PGSIZE at *
    omega
  · rcases hpage hva hn with ⟨-, rfl⟩ | ⟨hne, -⟩
    · exact hfree ▸ List.mem_cons_self
    · unfold PGSIZE at *
      omega
  · exact hfree ▸ List.mem_cons_of_mem _ hg
  · rw [hfree] at hg
    rcases List.mem_cons.mp hg with rfl | hin
    · exact .inr ⟨a, m, ha, le_rfl, Nat.lt_add_of_pos_right (by decide), hm, rfl⟩
    · exact .inl hin

theorem page_le_MAXVA (hal : a % PGSIZE = 0) (ha : a < MAXVA) : a + PGSIZE ≤ MAXVA := by
  unfold MAXVA PGSIZE at *
  omega

/-- The pages from `lo` to `hi` are mapped, and such that `uvmunmap` can free. -/
def Freeable (kend pt lo hi : Nat) (s : State) : Prop :=
  ∀ va, lo ≤ va → va < hi → ∃ m, translate s pt va = some m ∧ m.2 ≠ PTE_V ∧ RamPage kend m.1

theorem unmapLoop_shrunk (n : Nat) {fuel : Nat} (hfuel : n < fuel) (h : AddressSpace kend s pt) (hal : a % PGSIZE = 0)
    (hend : a + n * PGSIZE < MAXVA) (hmap : Freeable kend pt a (a + (n + 1) * PGSIZE) s) :
    ∃ t, unmapLoop kend pt (a + n * PGSIZE) true fuel a s = .ok ((), t) ∧ UpperKept pt s t ∧
      Shrunk kend pt a (a + (n + 1) * PGSIZE) s t := by
  have hsize : PGSIZE = 4096 := rfl
  have hlt : MAXVA < 2 ^ 64 := by decide
  induction n generalizing fuel a s with
  | zero =>
    obtain ⟨fuel, rfl⟩ : ∃ k, fuel = k + 1 := ⟨fuel - 1, by omega⟩
    simp only [Nat.zero_mul, Nat.add_zero, Nat.zero_add, Nat.one_mul] at *
    obtain ⟨m, hm, hleaf, hram⟩ := hmap a le_rfl (by omega)
    obtain ⟨t, hrun, hupper, ht⟩ := unmapPage_shrunk h hal hend hm hleaf hram
    rw [unmapLoop, bind_ok hrun, if_pos rfl]
    exact ⟨t, rfl, hupper, ht⟩
  | succ n ih =>
    obtain ⟨fuel, rfl⟩ : ∃ k, fuel = k + 1 := ⟨fuel - 1, by omega⟩
    have hnext : ∀ k, a + (k + 1) * PGSIZE = a + PGSIZE + k * PGSIZE := fun k => by ring
    rw [hnext n] at hend ⊢
    rw [hnext (n + 1)] at hmap ⊢
    obtain ⟨m, hm, hleaf, hram⟩ := hmap a le_rfl (by omega)
    obtain ⟨t, hrun, hupper, ht⟩ := unmapPage_shrunk h hal (by omega) hm hleaf hram
    have hmap' : Freeable kend pt (a + PGSIZE) (a + PGSIZE + (n + 1) * PGSIZE) t := fun va hlo hhi => by
      obtain ⟨m, hm, hleaf, hram⟩ := hmap va (by omega) hhi
      have hva : va < MAXVA := by
        have := page_le_MAXVA (by rw [Nat.add_mul_mod_self_right, Nat.add_mod_right, hal]) hend
        rw [Nat.add_one_mul] at hhi
        omega
      exact ⟨m, by rw [ht.map va hva, if_neg (by omega), hm], hleaf, hram⟩
    obtain ⟨u, hrun', hupper', hu⟩ := ih (show n < fuel by omega) ht.change.space (by rwa [Nat.add_mod_right]) hend hmap'
    rw [unmapLoop, bind_ok hrun, if_neg (by omega), Nat.mod_eq_of_lt (show a + PGSIZE < 2 ^ 64 by omega)]
    exact ⟨u, hrun', hupper.trans hupper', ht.trans hu (by omega) (by omega)⟩

theorem uvmunmap_shrunk {size : Nat} (h : AddressSpace kend s pt) (hal : va % PGSIZE = 0) (hsize : 0 < size)
    (hend : va + size ≤ MAXVA) (hmap : Freeable kend pt va (PGROUNDUP (va + size)) s) :
    ∃ t, uvmunmap kend pt va size true s = .ok ((), t) ∧ UpperKept pt s t ∧
      Shrunk kend pt va (PGROUNDUP (va + size)) s t := by
  have hdown : PGROUNDDOWN va = va := by
    unfold PGROUNDDOWN PGSIZE at *
    omega
  have hup : PGROUNDUP (va + size) = va + (pageCount va size - 1 + 1) * PGSIZE := by
    unfold PGROUNDUP pageCount MAXVA PGSIZE at *
    omega
  have hlast := last_lt hsize hend
  rw [hdown] at hlast
  rw [hup] at hmap ⊢
  rw [uvmunmap, lastPage_eq hsize hend, hdown]
  exact unmapLoop_shrunk (pageCount va size - 1) (count_lt hsize hend) h hal hlast hmap

/-! ### Ranges that have been added -/

/-- The pages from `lo` to `hi` have been added; `C` says what each of them is. -/
structure Extended (kend pt lo hi : Nat) (C : Nat → Nat → (Fin 512 → Nat) → Prop) (s t : State) : Prop where
  change : Change kend pt s t
  keeps : Keeps pt (fun _ => True) s t
  free : ∀ f, f ∈ t.free → f ∈ s.free
  map : ∀ va, va < MAXVA → va < lo ∨ hi ≤ va → translate t pt va = translate s pt va
  new : ∀ va, va < MAXVA → lo ≤ va → va < hi → ∃ f flags, f ∈ s.free ∧ translate t pt va = some (f, flags) ∧
    C va flags (t.mem f)

namespace Extended

variable {lo mid hi : Nat} {C : Nat → Nat → (Fin 512 → Nat) → Prop}

theorem refl (h : AddressSpace kend s pt) (lo : Nat) : Extended kend pt lo lo C s s :=
  ⟨.refl h, .refl _ _ _, fun _ => id, fun _ _ _ => rfl, fun _ _ _ _ => by omega⟩

theorem trans (h : Extended kend pt lo mid C s t) (h' : Extended kend pt mid hi C t u) (hlo : lo ≤ mid) (hhi : mid ≤ hi) :
    Extended kend pt lo hi C s u := by
  refine ⟨h.change.trans h'.change, h.keeps.trans h'.keeps, fun f hf => h.free f (h'.free f hf), fun va hva hout => ?_,
    fun va hva hl hh => ?_⟩
  · rw [h'.map va hva (by omega), h.map va hva (by omega)]
  · by_cases hmid : va < mid
    · obtain ⟨f, flags, hf, hm, hC⟩ := h.new va hva hl hmid
      obtain ⟨hm', hmem⟩ := h'.keeps va _ hva trivial hm
      exact ⟨f, flags, hf, hm', by rwa [hmem]⟩
    · obtain ⟨f, flags, hf, hm, hC⟩ := h'.new va hva (by omega) hh
      exact ⟨f, flags, h.free f hf, hm, hC⟩

end Extended

/-- `mapNew` adds one page, or nothing. -/
theorem mapNew_extended {fill : Nat → M Unit} {C : Nat → Nat → (Fin 512 → Nat) → Prop} (h : AddressSpace kend s pt)
    (hal : a % PGSIZE = 0) (ha : a < MAXVA) (hnew : translate s pt a = none) (hperm : perm < 2 ^ 10)
    (hfill : ∀ f rest c, s.free = f :: rest → ∃ c', fill f (s.hold f rest c) = .ok ((), s.hold f rest c') ∧
      ∀ va, va / PGSIZE = a / PGSIZE → C va (perm ||| PTE_V) c') :
    wp E (mapNew kend pt a perm fill) (fun r t => UpperKept pt s t ∧
      (r = true ∧ Extended kend pt a (a + PGSIZE) C s t ∨ r = false ∧ Extended kend pt a a C s t)) s := by
  refine (mapNew_ok h hal ha hnew hperm hfill).mono fun r t ⟨hchange, hkeeps, hupper, hfree, hr⟩ => ⟨hupper, ?_⟩
  rcases hr with ⟨hr, f, hf, hC, hmap⟩ | ⟨hr, hmap⟩
  · refine .inl ⟨hr, hchange, hkeeps, hfree, fun va hva hout => ?_, fun va hva hl hh => ?_⟩
    · rw [hmap va hva, withPage, if_neg]
      unfold PGSIZE at *
      omega
    · have hpage : va / PGSIZE = a / PGSIZE := by
        unfold PGSIZE at *
        omega
      exact ⟨f, perm ||| PTE_V, hf, by rw [hmap va hva, withPage, if_pos hpage], hC va hpage⟩
  · exact .inr ⟨hr, hchange, hkeeps, hfree, fun va hva _ => hmap va hva, fun _ _ _ _ => by omega⟩

end Xv6.Sv39
