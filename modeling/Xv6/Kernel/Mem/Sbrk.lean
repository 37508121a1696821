import Xv6.Kernel.Mem.AddressSpace
import Xv6.Kernel.Mem.Process

/-! `uvmalloc` adds all pages of a range or none, `uvmdealloc` takes them away, and `growproc` uses both.

    ```
    s ──mapNew──▶ · ──mapNew──▶ ⋯ ──▶ t      all pages are there
    │                           │
    └◀────────uvmdealloc────────┘            a page is missing
    ```
 -/

namespace Xv6.Sv39
open Hoare Radix
open Mem (PGSIZE PGROUNDUP MAXVA TRAPFRAME addInt)

variable {kend pt a oldsz newsz : Nat} {s t u : State}

/-! ### Sizes -/

section Sizes

variable {sz : Nat}

theorem PGROUNDUP_mod (sz : Nat) : PGROUNDUP sz % PGSIZE = 0 := Nat.mul_mod_left _ _

theorem le_PGROUNDUP (h : sz ≤ MAXVA) : sz ≤ PGROUNDUP sz := by
  unfold PGROUNDUP MAXVA PGSIZE at *
  omega

theorem PGROUNDUP_le (h : sz ≤ a) (hal : a % PGSIZE = 0) (ha : a ≤ MAXVA) : PGROUNDUP sz ≤ a := by
  unfold PGROUNDUP MAXVA PGSIZE at *
  omega

theorem PGROUNDUP_of_mod (hal : a % PGSIZE = 0) (ha : a ≤ MAXVA) : PGROUNDUP a = a := by
  unfold PGROUNDUP MAXVA PGSIZE at *
  omega

theorem next_le_PGROUNDUP (hal : a % PGSIZE = 0) (h : a < sz) (hsz : sz ≤ MAXVA) : a + PGSIZE ≤ PGROUNDUP sz := by
  unfold PGROUNDUP MAXVA PGSIZE at *
  omega

theorem PGROUNDUP_le_TRAPFRAME (h : sz < TRAPFRAME) : PGROUNDUP sz ≤ TRAPFRAME :=
  PGROUNDUP_le h.le (by decide) (by decide)

theorem TRAPFRAME_lt : TRAPFRAME < MAXVA := by decide

end Sizes

/-! ### `uvmdealloc` -/

theorem uvmdealloc_run (h : AddressSpace kend s pt) (hle : newsz ≤ oldsz) (hlt : oldsz ≤ MAXVA)
    (hmap : Freeable kend pt (PGROUNDUP newsz) (PGROUNDUP oldsz) s) :
    ∃ t, uvmdealloc kend pt oldsz newsz s = .ok (newsz, t) ∧ UpperKept pt s t ∧
      Shrunk kend pt (PGROUNDUP newsz) (PGROUNDUP oldsz) s t := by
  rw [uvmdealloc]
  by_cases heq : oldsz ≤ newsz
  · obtain rfl : oldsz = newsz := Nat.le_antisymm heq hle
    rw [if_pos le_rfl]
    exact ⟨s, rfl, .refl _ _, .refl h _⟩
  rw [if_neg heq]
  by_cases hup : PGROUNDUP newsz < PGROUNDUP oldsz
  · have hsub : (oldsz + 2 ^ 64 - PGROUNDUP newsz) % 2 ^ 64 = oldsz - PGROUNDUP newsz := by
      unfold PGROUNDUP MAXVA PGSIZE at *
      omega
    have hadd : PGROUNDUP newsz + (oldsz - PGROUNDUP newsz) = oldsz := by
      unfold PGROUNDUP MAXVA PGSIZE at *
      omega
    obtain ⟨t, hrun, hupper, ht⟩ := uvmunmap_shrunk h (PGROUNDUP_mod newsz)
      (show 0 < oldsz - PGROUNDUP newsz by unfold PGROUNDUP MAXVA PGSIZE at *; omega) (by rwa [hadd]) (by rwa [hadd])
    rw [hadd] at ht
    simp only [if_pos hup, hsub]
    rw [bind_ok hrun]
    exact ⟨t, rfl, hupper, ht⟩
  · have hsame : PGROUNDUP oldsz = PGROUNDUP newsz := by
      unfold PGROUNDUP MAXVA PGSIZE at *
      omega
    simp only [if_neg hup]
    refine ⟨s, rfl, .refl _ _, ?_⟩
    rw [hsame]
    exact .refl h _

/-! ### `uvmalloc` -/

/-- A page of zeros, with all permissions. -/
def Zeroed (_ flags : Nat) (c : Fin 512 → Nat) : Prop := flags = userPerm ||| PTE_V ∧ c = fun _ => 0

/-- Everything is as before, but for page-table pages that map nothing. -/
structure Undone (kend pt : Nat) (s t : State) : Prop where
  change : Change kend pt s t
  keeps : Keeps pt (fun _ => True) s t
  map : ∀ va, va < MAXVA → translate t pt va = translate s pt va
  free : ∀ f, f ∈ t.free → f ∈ s.free

variable {lo hi : Nat} {C : Nat → Nat → (Fin 512 → Nat) → Prop}

/-- The pages that have been added are taken away again. -/
theorem Extended.undone (h : Extended kend pt lo hi C s t)
    (h' : Shrunk kend pt lo hi t u) (hnone : ∀ va, lo ≤ va → va < hi → translate s pt va = none) : Undone kend pt s u := by
  refine ⟨h.change.trans h'.change, fun va m hva _ hm => ?_, fun va hva => ?_, fun f hf => ?_⟩
  · obtain ⟨hm', hmem⟩ := h.keeps va m hva trivial hm
    have hout : va < lo ∨ hi ≤ va := by
      by_contra hin
      rw [hnone va (by omega) (by omega)] at hm
      cases hm
    obtain ⟨hm'', hmem'⟩ := h'.keeps va m hva hout hm'
    exact ⟨hm'', hmem'.trans hmem⟩
  · rw [h'.map va hva]
    split
    · rename_i hin
      exact (hnone va hin.1 hin.2).symm
    · rename_i hout
      exact h.map va hva (by omega)
  · rcases h'.back f hf with hf | ⟨va, m, hva, hl, hh, hm, rfl⟩
    · exact h.free f hf
    · obtain ⟨g, flags, hg, hm', -⟩ := h.new va hva hl hh
      rw [hm] at hm'
      cases hm'
      exact hg

theorem Extended.freeable (h : Extended kend pt lo hi Zeroed s t) (hs : AddressSpace kend s pt)
    (hhi : hi ≤ MAXVA) : Freeable kend pt lo hi t := fun va hlo hva => by
  obtain ⟨f, flags, hf, hm, rfl, -⟩ := h.new va (by omega) hlo hva
  have hleaf : userPerm ||| PTE_V ≠ PTE_V := by decide
  exact ⟨_, hm, hleaf, hs.ram f hf⟩

theorem userPerm_lt : userPerm < 2 ^ 10 := by decide

variable {f : Nat}

/-- The page is filled with zeros. -/
theorem memset_hold {rest : List Nat} {c : Fin 512 → Nat} :
    memset f 0 (s.hold f rest c) = .ok ((), s.hold f rest fun _ => 0) := by
  have hset : (s.hold f rest c).memset f 0 = s.hold f rest fun _ => 0 := by
    unfold State.memset State.hold
    simp only [Function.update_idem, Nat.zero_mul]
  rw [← hset]
  rfl

theorem uvmallocLoop_run {fuel : Nat} (hs : AddressSpace kend s pt) (hlo : lo % PGSIZE = 0) (hnew : newsz < TRAPFRAME)
    (hnone : ∀ va, lo ≤ va → va < TRAPFRAME → translate s pt va = none) (h : Extended kend pt lo a Zeroed s t)
    (hal : a % PGSIZE = 0) (hle : lo ≤ a) (hup : a ≤ PGROUNDUP newsz ∨ a = lo) (hend : a ≤ TRAPFRAME)
    (hfuel : Enough fuel a) :
    ∃ r u, uvmallocLoop kend pt lo newsz fuel a t = .ok (r, u) ∧ UpperKept pt t u ∧
      (r = newsz ∧ Extended kend pt lo (max lo (PGROUNDUP newsz)) Zeroed s u ∨ r = 0 ∧ Undone kend pt s u) := by
  have htop := TRAPFRAME_lt
  induction fuel generalizing a t with
  | zero => exact absurd hfuel.1 (Nat.lt_irrefl 0)
  | succ fuel ih =>
    rw [uvmallocLoop]
    by_cases hdone : newsz ≤ a
    · rw [if_pos hdone]
      have hmax : max lo (PGROUNDUP newsz) = a := by
        have := PGROUNDUP_le hdone hal (by omega)
        omega
      exact ⟨newsz, t, rfl, .refl _ _, .inl ⟨rfl, hmax ▸ h⟩⟩
    rw [if_neg hdone]
    have hnext := next_le_PGROUNDUP hal (Nat.lt_of_not_le hdone) (by omega)
    have htrap := PGROUNDUP_le_TRAPFRAME hnew
    have hfree : translate t pt a = none := by
      rw [h.map a (by omega) (.inr le_rfl)]
      exact hnone a hle (by omega)
    obtain ⟨r, t', hrun, hupper, hr⟩ := (mapNew_extended (C := Zeroed) h.change.space hal (by omega) hfree
      userPerm_lt fun f rest c _ => ⟨_, memset_hold, fun _ _ => ⟨rfl, rfl⟩⟩).returns
    rw [bind_ok hrun]
    rcases hr with ⟨rfl, ht'⟩ | ⟨rfl, ht'⟩
    · have hmod : (a + PGSIZE) % 2 ^ 64 = a + PGSIZE := by
        unfold MAXVA at *
        omega
      have hfuel' : Enough fuel (a + PGSIZE) := by
        have := (hfuel.step (by omega)).1
        rwa [hal, Nat.sub_zero] at this
      have hal' : (a + PGSIZE) % PGSIZE = 0 := by rw [Nat.add_mod_right, hal]
      rw [if_pos rfl, hmod]
      obtain ⟨r, u, hrun', hupper', hr⟩ := ih (h.trans ht' hle (Nat.le_add_right _ _)) hal' (by omega) (.inl hnext) (by omega)
        hfuel'
      exact ⟨r, u, hrun', hupper.trans hupper', hr⟩
    · have hall : Extended kend pt lo a Zeroed s t' := h.trans ht' hle le_rfl
      have hlo' : PGROUNDUP lo = lo := PGROUNDUP_of_mod hlo (by omega)
      have ha' : PGROUNDUP a = a := PGROUNDUP_of_mod hal (by omega)
      obtain ⟨u, hrun', hupper', hu⟩ := uvmdealloc_run hall.change.space hle (by omega)
        (by rw [hlo', ha']; exact hall.freeable hs (by omega))
      rw [hlo', ha'] at hu
      rw [if_neg Bool.false_ne_true, bind_ok hrun']
      exact ⟨0, u, rfl, hupper.trans hupper', .inr ⟨rfl, hall.undone hu fun va hl hh => hnone va hl (by omega)⟩⟩

/-- The user pages are those below `hi`. -/
def MappedBelow (s : State) (pt hi : Nat) : Prop := ∀ va, va < TRAPFRAME → ((translate s pt va).isSome ↔ va < hi)

theorem MappedBelow.none {va : Nat} (h : MappedBelow s pt hi) (hlo : hi ≤ va) (hva : va < TRAPFRAME) :
    translate s pt va = none := by
  rw [← Option.not_isSome_iff_eq_none, h va hva]
  omega

theorem PGROUNDUP_mono (hle : oldsz ≤ newsz) (hlt : newsz ≤ MAXVA) : PGROUNDUP oldsz ≤ PGROUNDUP newsz := by
  unfold PGROUNDUP MAXVA PGSIZE at *
  omega

theorem uvmalloc_run (h : AddressSpace kend s pt) (hpages : MappedBelow s pt (PGROUNDUP oldsz)) (hle : oldsz ≤ newsz)
    (hlt : newsz < TRAPFRAME) : ∃ r t, uvmalloc kend pt oldsz newsz s = .ok (r, t) ∧ UpperKept pt s t ∧
      (r = newsz ∧ Extended kend pt (PGROUNDUP oldsz) (PGROUNDUP newsz) Zeroed s t ∨ r = 0 ∧ Undone kend pt s t) := by
  have htop := TRAPFRAME_lt
  have hmono := PGROUNDUP_mono hle (by omega)
  have htrap := PGROUNDUP_le_TRAPFRAME hlt
  rw [uvmalloc, if_neg (by omega)]
  obtain ⟨r, t, hrun, hupper, hr⟩ := uvmallocLoop_run h (PGROUNDUP_mod oldsz) hlt
    (fun va hlo hva => hpages.none hlo hva) (.refl h _) (PGROUNDUP_mod oldsz) le_rfl (.inr rfl) (by omega) (enough_rounds _)
  rw [Nat.max_eq_right hmono] at hr
  exact ⟨r, t, hrun, hupper, hr⟩

/-- The pages of the range and those before it are all there are. -/
theorem Extended.mappedBelow (h : Extended kend pt lo hi C s t)
    (hpages : MappedBelow s pt lo) (hle : lo ≤ hi) : MappedBelow t pt hi := fun va hva => by
  have htop := TRAPFRAME_lt
  by_cases hin : lo ≤ va ∧ va < hi
  · obtain ⟨f, flags, -, hm, -⟩ := h.new va (by omega) hin.1 hin.2
    rw [hm]
    exact iff_of_true rfl hin.2
  · rw [h.map va (by omega) (by omega), hpages va hva]
    omega

/-- A page that has not come back is a page-table page without a mapping below it. -/
theorem Undone.leftover (h : Undone kend pt s t) (hs : AddressSpace kend s pt) (hf : f ∈ s.free)
    (hnot : f ∉ t.free) : ∃ q : List (Fin 512), q.length ≤ 2 ∧ table t pt q = some f ∧
      ∀ va, va < MAXVA → q <+: down va 2 → translate t pt va = none := by
  rcases (h.change.owns f).mpr (.inl hf) with hin | ⟨q, hq, hn⟩ | ⟨va, m, hva, hm, rfl⟩
  · exact absurd hin hnot
  · refine ⟨q, hq, hn, fun va hva hpre => ?_⟩
    rw [h.map va hva, translate, entry]
    cases hg : table s pt q with
    | none => rw [node_none_above hg hpre]; rfl
    | some g =>
      have heq := Option.some.inj ((h.change.kept q g hq hg).symm.trans hn)
      exact absurd (heq ▸ hg) (hs.sound.alloc.outside f hf q hq)
  · rw [h.map va hva] at hm
    exact absurd hf (hs.data va m hva hm).1

/-! ### Main results -/

variable {kend : Nat} {s : State}

/-- `uvmalloc` adds the pages between the sizes, filled with zeros, and `uvmdealloc` takes them away again;
    or it leaves everything as it was, but for page-table pages that map nothing. -/
theorem uvmalloc_all_or_nothing {pt oldsz newsz : Nat} (h : AddressSpace kend s pt)
    (hpages : MappedBelow s pt (PGROUNDUP oldsz)) (hle : oldsz ≤ newsz) (hlt : newsz < TRAPFRAME) :
    ∃ r t, uvmalloc kend pt oldsz newsz s = .ok (r, t) ∧
      (r = newsz ∧ MappedBelow t pt (PGROUNDUP newsz) ∧ Keeps pt (fun _ => True) s t ∧
        (∀ va, PGROUNDUP oldsz ≤ va → va < PGROUNDUP newsz →
          ∃ f, translate t pt va = some (f, userPerm ||| PTE_V) ∧ f ∈ s.free ∧ t.mem f = fun _ => 0) ∧
        (∃ u, uvmdealloc kend pt newsz oldsz t = .ok (oldsz, u) ∧ Undone kend pt s u ∧
          ∀ va m, PGROUNDUP oldsz ≤ va → va < PGROUNDUP newsz → translate t pt va = some m → m.1 ∈ u.free) ∨
       r = 0 ∧ Undone kend pt s t ∧
        ∀ f, f ∈ s.free → f ∉ t.free → ∃ q : List (Fin 512), q.length ≤ 2 ∧ table t pt q = some f ∧
          ∀ va, va < MAXVA → q <+: down va 2 → translate t pt va = none) := by
  have htop := TRAPFRAME_lt
  have hmono := PGROUNDUP_mono hle (by omega)
  have htrap := PGROUNDUP_le_TRAPFRAME hlt
  obtain ⟨r, t, hrun, -, ⟨hr, ht⟩ | ⟨hr, ht⟩⟩ := uvmalloc_run h hpages hle hlt
  · refine ⟨r, t, hrun, .inl ⟨hr, ht.mappedBelow hpages hmono, ht.keeps, fun va hlo hhi => ?_, ?_⟩⟩
    · obtain ⟨f, flags, hf, hm, rfl, hzero⟩ := ht.new va (by omega) hlo hhi
      exact ⟨f, hm, hf, hzero⟩
    · obtain ⟨u, hrun', -, hu⟩ := uvmdealloc_run ht.change.space hle (by omega) (ht.freeable h (by omega))
      exact ⟨u, hrun', ht.undone hu fun va hlo hhi => hpages.none hlo (by omega),
        fun va m hlo hhi hm => hu.freed va m (by omega) hlo hhi hm⟩
  · exact ⟨r, t, hrun, .inr ⟨hr, ht, fun f hf hnot => ht.leftover h hf hnot⟩⟩

/-- The memory after `uvmcreate`, with three more pages free. -/
def three : State := ⟨[0x87ffe000, 0x87ffd000, 0x87ffc000], fun _ _ => 0⟩

theorem addressSpace_three : AddressSpace 0x80020000 three 0x87fff000 :=
  addressSpace_zero (fun _ => rfl) (by unfold RamPage; decide) (by decide) (by decide)

theorem mappedBelow_three : MappedBelow three 0x87fff000 (PGROUNDUP 0) := fun va _ => by
  rw [translate_zero fun _ => rfl]
  exact iff_of_false Bool.false_ne_true (Nat.not_lt_zero va)

theorem uvmalloc_all_or_nothing_three : AddressSpace 0x80020000 three 0x87fff000 ∧
    MappedBelow three 0x87fff000 (PGROUNDUP 0) ∧ ∃ r t, uvmalloc 0x80020000 0x87fff000 0 5 three = .ok (r, t) ∧
      (r = 5 ∧ MappedBelow t 0x87fff000 (PGROUNDUP 5) ∨ r = 0 ∧ Undone 0x80020000 0x87fff000 three t) := by
  refine ⟨addressSpace_three, mappedBelow_three, ?_⟩
  obtain ⟨r, t, hrun, hr⟩ := uvmalloc_all_or_nothing addressSpace_three mappedBelow_three (Nat.zero_le 5) (by decide)
  exact ⟨r, t, hrun, hr.imp (fun h => ⟨h.1, h.2.1⟩) fun h => ⟨h.1, h.2.1⟩⟩

/-! ### `growproc` -/

/-- The address space of a process of size `sz`. -/
structure UserSpace (kend pt sz : Nat) (s : State) : Prop where
  space : AddressSpace kend s pt
  leaf : ∀ va m, va < TRAPFRAME → translate s pt va = some m → m.2 ≠ PTE_V
  pages : MappedBelow s pt (PGROUNDUP sz)

theorem UserSpace.freeable {sz : Nat} (h : UserSpace kend pt sz s) (lo : Nat) (hsz : sz < TRAPFRAME) :
    Freeable kend pt lo (PGROUNDUP sz) s := fun va _ hva => by
  have htrap := PGROUNDUP_le_TRAPFRAME hsz
  obtain ⟨m, hm⟩ := Option.isSome_iff_exists.mp ((h.pages va (by omega)).mpr hva)
  exact ⟨m, hm, h.leaf va m (by omega) hm, h.space.user va m (by omega) hm⟩

/-- The pages below the smaller size are left. -/
theorem Shrunk.mappedBelow (h : Shrunk kend pt lo hi s t) (hpages : MappedBelow s pt hi) (hle : lo ≤ hi) :
    MappedBelow t pt lo := fun va hva => by
  have htop := TRAPFRAME_lt
  rw [h.map va (by omega)]
  split
  · exact iff_of_false Bool.false_ne_true (by omega)
  · rw [hpages va hva]
    omega

/-- What the result of `growproc` says about the process: it has the size that was asked for and the pages
    of that size, or nothing has changed. -/
def Reported (p : Proc) (n : Int) (s : State) (r : Int) (q : Proc) (t : State) : Prop :=
  r = 0 ∧ (q.sz : Int) = p.sz + n ∧ q.pagetable = p.pagetable ∧ MappedBelow t q.pagetable (PGROUNDUP q.sz) ∨
  r = -1 ∧ q = p ∧ Keeps p.pagetable (fun _ => True) s t ∧
    ∀ va, va < MAXVA → translate t p.pagetable va = translate s p.pagetable va

variable {p : Proc} {n : Int}

theorem growproc_reported (h : UserSpace kend p.pagetable p.sz s) (hsz : p.sz ≤ 128 * 1024 * 1024)
    (hn : n < 2 ^ 31) (hpos : 0 ≤ p.sz + n) :
    ∃ r q t, growproc kend p n s = .ok ((r, q), t) ∧ Reported p n s r q t := by
  have hmod : p.sz % 2 ^ 32 = p.sz := Nat.mod_eq_of_lt (by omega)
  have hadd : (addInt p.sz n : Int) = p.sz + n := by
    rw [addInt, Int.emod_eq_of_lt hpos (by omega)]
    omega
  have htop : TRAPFRAME = 2 ^ 38 - 8192 := rfl
  have hmax : MAXVA = 2 ^ 38 := rfl
  have hlt : addInt p.sz n < TRAPFRAME := by omega
  have hmod' : addInt p.sz n % 2 ^ 32 = addInt p.sz n := Nat.mod_eq_of_lt (by omega)
  rw [growproc, hmod]
  by_cases hgrow : 0 < n
  · rw [if_pos hgrow]
    obtain ⟨r, t, hrun, -, ⟨rfl, ht⟩ | ⟨rfl, ht⟩⟩ := uvmalloc_run h.space h.pages (show p.sz ≤ addInt p.sz n by omega) hlt
    · rw [bind_ok hrun, hmod', if_neg (by omega)]
      exact ⟨0, _, t, rfl, .inl ⟨rfl, hadd, rfl, ht.mappedBelow h.pages (PGROUNDUP_mono (by omega) (by omega))⟩⟩
    · rw [bind_ok hrun, if_pos (Nat.zero_mod _)]
      exact ⟨-1, p, t, rfl, .inr ⟨rfl, rfl, ht.keeps, ht.map⟩⟩
  rw [if_neg hgrow]
  by_cases hneg : n < 0
  · rw [if_pos hneg]
    have hle : addInt p.sz n ≤ p.sz := by omega
    obtain ⟨t, hrun, -, ht⟩ := uvmdealloc_run h.space hle (by omega) (h.freeable _ (by omega))
    rw [bind_ok hrun, hmod']
    exact ⟨0, _, t, rfl, .inl ⟨rfl, hadd, rfl, ht.mappedBelow h.pages (PGROUNDUP_mono hle (by omega))⟩⟩
  · rw [if_neg hneg]
    exact ⟨0, _, s, rfl, .inl ⟨rfl, by simp only; omega, rfl, h.pages⟩⟩

/-- Below zero the sum wraps around: `uvmdealloc` is told to shrink to a larger size, and does nothing. -/
theorem growproc_wrapped (hsz : p.sz ≤ 128 * 1024 * 1024) (hn : -2 ^ 31 ≤ n) (hneg : p.sz + n < 0) :
    growproc kend p n s = .ok ((0, p), s) := by
  have hmod : p.sz % 2 ^ 32 = p.sz := Nat.mod_eq_of_lt (by omega)
  have hle : p.sz ≤ addInt p.sz n := by
    rw [addInt]
    omega
  rw [growproc, hmod, if_neg (by omega), if_pos (by omega), uvmdealloc, if_pos hle]
  simp only [pure_bind, hmod]
  rfl

/-- `growproc` returns, and does what it reports exactly when the size does not become negative. -/
theorem growproc_exact (h : UserSpace kend p.pagetable p.sz s)
    (hsz : p.sz ≤ 128 * 1024 * 1024) (hn : -2 ^ 31 ≤ n ∧ n < 2 ^ 31) :
    ∃ r q t, growproc kend p n s = .ok ((r, q), t) ∧ (Reported p n s r q t ↔ 0 ≤ p.sz + n) := by
  by_cases hpos : 0 ≤ p.sz + n
  · obtain ⟨r, q, t, hrun, hrep⟩ := growproc_reported h hsz hn.2 hpos
    exact ⟨r, q, t, hrun, iff_of_true hrep hpos⟩
  · refine ⟨0, p, s, growproc_wrapped hsz hn.1 (by omega), iff_of_false ?_ hpos⟩
    rintro (⟨-, hq, -⟩ | ⟨hr, -⟩) <;> omega

/-- A process without memory. -/
def empty : Proc := ⟨0x87fff000, 0, 0, []⟩

theorem userSpace_three : UserSpace 0x80020000 empty.pagetable empty.sz three := by
  refine ⟨addressSpace_three, fun va m _ hm => ?_, mappedBelow_three⟩
  rw [translate_zero fun _ => rfl] at hm
  cases hm

theorem growproc_exact_empty : UserSpace 0x80020000 empty.pagetable empty.sz three ∧
    ∃ q t, growproc 0x80020000 empty 5 three = .ok ((0, q), t) ∧ q.sz = 5 ∧ MappedBelow t q.pagetable PGSIZE := by
  refine ⟨userSpace_three, ?_⟩
  obtain ⟨r, q, t, hrun, hiff⟩ := growproc_exact (n := 5) userSpace_three (by decide) (by decide)
  have hr : (growproc 0x80020000 empty 5 three).map (fun x => x.1.1) = .ok 0 := rfl
  rw [hrun] at hr
  obtain rfl : r = 0 := Except.ok.inj hr
  rcases hiff.mpr (by decide) with ⟨-, hq, -, hmap⟩ | ⟨hr, -⟩
  · have hfive : q.sz = 5 := Int.ofNat.inj hq
    rw [hfive] at hmap
    exact ⟨q, t, hrun, hfive, hmap⟩
  · cases hr

/-- A request for less than nothing succeeds, and does nothing. -/
theorem growproc_negative : UserSpace 0x80020000 empty.pagetable empty.sz three ∧ (empty.sz : Int) + -4096 < 0 ∧
    growproc 0x80020000 empty (-4096) three = .ok ((0, empty), three) :=
  ⟨userSpace_three, by decide, rfl⟩

end Xv6.Sv39
