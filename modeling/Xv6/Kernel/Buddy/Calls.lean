import Xv6.Kernel.Buddy.Refine

/-! What `bd_malloc`, `size` and `bd_free` do to the division of the heap. -/

namespace Xv6.Buddy
open Circular Halving
open Hoare (bind_ok)

variable {h : Heap} {D : h.Div} {k k' i j p n m : Nat} {s : State}

/-! ### `bd_malloc` -/

/-- `k` is the first level whose blocks have `n` bytes. -/
def First (n k : Nat) : Prop := n ≤ BLK_SIZE k ∧ ∀ j, j < k → BLK_SIZE j < n

theorem firstkLoop_run (hn : n ≤ 2 ^ 63) {fuel : Nat} (hk : k ≤ 59) (hfuel : 59 < k + fuel)
    (hbelow : ∀ j, j < k → BLK_SIZE j < n) : ∃ k', firstkLoop n fuel k (BLK_SIZE k) s = .ok (k', s) ∧ First n k' := by
  induction fuel generalizing k with
  | zero => omega
  | succ fuel ih =>
    unfold firstkLoop
    split
    · rename_i hlt
      have hk' : k < 59 := by
        by_contra hcon
        have hpow : 2 ^ 59 ≤ 2 ^ k := Nat.pow_le_pow_right (by decide) (by omega)
        unfold BLK_SIZE LEAF_SIZE at hlt
        omega
      have hsize : BLK_SIZE k * 2 % 2 ^ 64 = BLK_SIZE (k + 1) := by
        rw [Nat.mul_comm, ← BLK_SIZE_succ]
        refine Nat.mod_eq_of_lt ?_
        have hpow : 2 ^ (k + 1) ≤ 2 ^ 59 := Nat.pow_le_pow_right (by decide) (by omega)
        unfold BLK_SIZE LEAF_SIZE
        omega
      rw [hsize]
      refine ih (by omega) (by omega) fun j hj => ?_
      rcases Nat.lt_succ_iff_lt_or_eq.mp hj with hj | rfl
      · exact hbelow j hj
      · exact hlt
    · exact ⟨k, rfl, by omega, hbelow⟩

/-- `firstk` returns. -/
theorem firstk_run (hn : n ≤ 2 ^ 63) (s : State) : ∃ k, firstk n s = .ok (k, s) ∧ First n k :=
  firstkLoop_run hn (by omega) (by omega) nofun

theorem findLoop_run (m k : Nat) (s : State) :
    ∃ k', findLoop m k s = .ok (k', s) ∧ k ≤ k' ∧ k' ≤ k + m ∧ (k' < k + m → s.cells.next (head k') ≠ head k') ∧
      ∀ j, k ≤ j → j < k' → s.cells.next (head j) = head j := by
  induction m generalizing k with
  | zero => exact ⟨k, rfl, le_rfl, le_rfl, fun hlt => absurd hlt (by omega), fun j _ _ => by omega⟩
  | succ m ih =>
    have hround : findLoop (m + 1) k s =
        (if (s.cells.next (head k) == head k) = true then findLoop m (k + 1) else pure k : M Nat) s := rfl
    rw [hround]
    split
    · rename_i heq
      obtain ⟨k', hrun, h₁, h₂, h₃, h₄⟩ := ih (k + 1)
      refine ⟨k', hrun, by omega, by omega, fun hlt => h₃ (by omega), fun j hj hj' => ?_⟩
      rcases Nat.eq_or_lt_of_le hj with rfl | hj
      · exact beq_iff_eq.mp heq
      · exact h₄ j hj hj'
    · rename_i hne
      exact ⟨k, rfl, le_rfl, by omega, fun _ heq => hne (beq_iff_eq.mpr heq), fun j _ _ => by omega⟩

theorem mul_div_BLK_SIZE (i k : Nat) : i * BLK_SIZE k / BLK_SIZE k = i := Nat.mul_div_cancel _ (BLK_SIZE_pos k)

/-- One round of the second loop. -/
theorem splitLoop_round (hu : D.used (k + 1) i) (hp : i * BLK_SIZE (k + 1) < 2 ^ 31) (m : Nat) :
    splitLoop h.nsizes (i * BLK_SIZE (k + 1)) (m + 1) (k + 1) s =
      splitLoop h.nsizes (i * BLK_SIZE (k + 1)) m k { (s.setSplit (k + 1) i).setAlloc k (2 * i) with
        cells := s.cells.push (head k) ((2 * i + 1) * BLK_SIZE k) } := by
  have hsize := BLK_SIZE_succ k
  obtain ⟨hk, hi⟩ := Rep.bounds (D.leaf _ _ hu)
  have hleft : i * BLK_SIZE (k + 1) = 2 * i * BLK_SIZE k := by
    rw [hsize]
    ring
  have hright : i * BLK_SIZE (k + 1) + BLK_SIZE k = (2 * i + 1) * BLK_SIZE k := by
    rw [hsize]
    ring
  have hindex : blkIndex (k + 1) (i * BLK_SIZE (k + 1)) = i := by rw [blkIndex_eq hp, mul_div_BLK_SIZE]
  have hindex' : blkIndex k (i * BLK_SIZE (k + 1)) = (2 * i : Nat) := by
    rw [blkIndex_eq hp, hleft, mul_div_BLK_SIZE]
  have hhalf : 2 * i < NBLK h.nsizes k := ((D.divide k i hu).leaf k (2 * i) (.inr ⟨rfl, rfl⟩)).2.1
  rw [splitLoop]
  simp only [Nat.add_sub_cancel, hindex, hindex', hright]
  rw [bind_ok (splitSet_run hk hi), bind_ok (allocSet_run (by omega) hhalf)]
  rfl

/-- The second loop of `bd_malloc` divides a used block, down to its first part of level `k`. -/
theorem splitLoop_run (m : Nat) (hr : Rep h s D) (hu : D.used (k + m) i) (hp : i * BLK_SIZE (k + m) < 2 ^ 31) :
    ∃ t D', splitLoop h.nsizes (i * BLK_SIZE (k + m)) m (k + m) s = .ok ((), t) ∧ Rep h t D' ∧
      ∀ a b, D'.used a b ↔ D.used a b ∧ ¬ (a = k + m ∧ b = i) ∨ a = k ∧ b = i * 2 ^ m := by
  induction m generalizing i s D with
  | zero =>
    refine ⟨s, D, rfl, hr, fun a b => ?_⟩
    rw [Nat.pow_zero, Nat.mul_one, Nat.add_zero]
    constructor
    · intro hab
      by_cases heq : a = k ∧ b = i
      · exact .inr heq
      · exact .inl ⟨hab, heq⟩
    · rintro (hab | ⟨rfl, rfl⟩)
      · exact hab.1
      · exact hu
  | succ m ih =>
    have hleft : i * BLK_SIZE (k + (m + 1)) = 2 * i * BLK_SIZE (k + m) := by
      rw [← Nat.add_assoc, BLK_SIZE_succ]
      ring
    obtain ⟨t, D', hrun, hr', hused⟩ := ih (hr.divide hu) (.inr ⟨rfl, rfl⟩) (hleft ▸ hp)
    refine ⟨t, D', ?_, hr', fun a b => (hused a b).trans ?_⟩
    · rw [← Nat.add_assoc, splitLoop_round hu hp, ← Nat.add_assoc] at *
      rw [hleft]
      exact hrun
    · have hbelow : ¬ D.used (k + m) (2 * i) := fun hu' => by
        have hin := (D.leaf _ _ hu').2.2.1 (by have := (D.leaf _ _ hu).1; omega)
        rw [show 2 * i / 2 = i by omega] at hin
        exact (D.leaf _ _ hu).2.2.2 hin
      have hpow : 2 * i * 2 ^ m = i * 2 ^ (m + 1) := by ring
      rw [hpow, ← Nat.add_assoc]
      constructor
      · rintro (⟨hab | hab, hne⟩ | hab)
        · exact .inl hab
        · exact absurd hab hne
        · exact .inr hab
      · rintro (hab | hab)
        · exact .inl ⟨.inl hab, fun ⟨ha, hb⟩ => hbelow (ha ▸ hb ▸ hab.1)⟩
        · exact .inr hab

/-- What `bd_malloc` returns: a block of the requested level, which was in use by nobody, if there is a free
    block of this level or above. -/
def Returns (h : Heap) (D : h.Div) (fk : Nat) (s : State) : Option Nat → State → Prop
  | none, t => t = s ∧ ∀ k i, fk ≤ k → ¬ D.Free k i
  | some p, t => (∃ k i, fk ≤ k ∧ D.Free k i) ∧ ∃ i D', p = i * BLK_SIZE fk ∧ Rep h t D' ∧
      (∀ a b, D.used a b → b * BLK_SIZE a ≠ p) ∧ ∀ a b, D'.used a b ↔ D.used a b ∨ a = fk ∧ b = i

theorem bdMalloc_run (hr : Rep h s D) (hn : n ≤ 2 ^ 63) :
    ∃ fk r t, firstk n s = .ok (fk, s) ∧ bdMalloc h.nsizes n s = .ok (r, t) ∧ First n fk ∧ Returns h D fk s r t := by
  obtain ⟨fk, hfk, hle⟩ := firstk_run hn s
  obtain ⟨k, hfind, hk, hkn, hne, hempty⟩ := findLoop_run (h.nsizes - fk) fk s
  unfold bdMalloc
  rw [bind_ok hfk, bind_ok hfind]
  by_cases hnone : h.nsizes ≤ k
  · refine ⟨fk, none, s, hfk, by rw [if_pos hnone]; rfl, hle, rfl, fun j i hj hf => ?_⟩
    have hjn := (Rep.bounds hf.1).1
    exact (hr.lists.next_head hjn).mp (hempty j hj (by omega)) i hf
  · have hne := hne (by omega)
    obtain ⟨i, hnext, hf⟩ := hr.lists.first (by omega) hne
    have hrange := Heap.free_range hr.reserves hf
    have hp := Heap.addr_small hrange.2
    have hpop : lstPop (head k) s = .ok (i * BLK_SIZE k, { s with cells := s.cells.remove (i * BLK_SIZE k) }) := by
      show (if s.cells.next (head k) = head k then throw "lst_pop"
        else do
          lstRemove (s.cells.next (head k))
          pure (s.cells.next (head k)) : M Nat) s = _
      rw [if_neg hne, hnext]
      rfl
    obtain ⟨m, rfl⟩ := Nat.exists_eq_add_of_le hk
    obtain ⟨t, D', hrun, hr', hused⟩ := splitLoop_run m (hr.take hf) (.inr ⟨rfl, rfl⟩) hp
    have hindex : blkIndex (fk + m) (i * BLK_SIZE (fk + m)) = i := by rw [blkIndex_eq hp, mul_div_BLK_SIZE]
    refine ⟨fk, some (i * BLK_SIZE (fk + m)), t, hfk, ?_, hle, ⟨_, i, hk, hf⟩, i * 2 ^ m, D', ?_, hr', ?_,
      fun a b => (hused a b).trans ?_⟩
    · rw [if_neg hnone, bind_ok hpop, hindex, bind_ok (allocSet_run (by omega) (Rep.bounds hf.1).2),
        Nat.add_sub_cancel_left, bind_ok hrun]
      rfl
    · unfold BLK_SIZE
      ring
    · intro a b hu heq
      obtain ⟨rfl, rfl⟩ := Heap.leaf_inj (D.leaf _ _ hu) hf.1 heq
      exact hf.2 hu
    · constructor
      · rintro (⟨hu | heq, hne⟩ | heq)
        · exact .inl hu
        · exact absurd heq hne
        · exact .inr heq
      · rintro (hu | heq)
        · exact .inl ⟨.inl hu, fun ⟨ha, hb⟩ => hf.2 (ha ▸ hb ▸ hu)⟩
        · exact .inr heq

/-! ### `size` -/

/-- A block in use other than the reserved ones is not the whole heap. -/
theorem lt_MAXSIZE (hr : Rep h s D) (hu : D.used k i) (hout : ¬ (k = 0 ∧ h.Outer i)) : k < MAXSIZE h.nsizes := by
  have hl := D.leaf _ _ hu
  refine Nat.lt_of_le_of_ne hl.1 fun heq => ?_
  have hzero : i = 0 := by
    have hi := hl.2.1
    rw [heq, Nat.sub_self, Nat.pow_zero] at hi
    omega
  have hleft := (Heap.leaf_range hr.reserves hl hout).1
  have hpos := Nat.lt_of_le_of_lt (Nat.zero_le _) (head_lt h.sizes_pos)
  rw [hzero, Nat.zero_mul] at hleft
  omega

/-- Inside a leaf nothing is divided. -/
theorem not_inner_below (hl : Leaf (MAXSIZE h.nsizes) D.inner k i) (hj : j ≤ k) : ¬ D.inner j (i * BLK_SIZE k / BLK_SIZE j) := by
  intro hin
  obtain ⟨d, rfl⟩ := Nat.exists_eq_add_of_le hj
  have hdiv : i * BLK_SIZE (j + d) / BLK_SIZE j = i * 2 ^ d := by
    have : i * BLK_SIZE (j + d) = i * 2 ^ d * BLK_SIZE j := by
      unfold BLK_SIZE
      ring
    rw [this, mul_div_BLK_SIZE]
  have hup := D.inner_up (hdiv ▸ hin) hl.1
  rw [Nat.mul_div_cancel _ (Nat.two_pow_pos d)] at hup
  exact hl.2.2.2 hup

theorem index_lt (hp : p < h.right) (hk : k ≤ MAXSIZE h.nsizes) : p / BLK_SIZE k < NBLK h.nsizes k := by
  have hsize : NBLK h.nsizes k * BLK_SIZE k = BLK_SIZE (MAXSIZE h.nsizes) := by
    unfold NBLK BLK_SIZE
    rw [← Nat.mul_assoc, ← Nat.pow_add, Nat.sub_add_cancel hk]
  rw [Nat.div_lt_iff_lt_mul (BLK_SIZE_pos k), hsize]
  exact Nat.lt_of_lt_of_le hp h.right_le

theorem sizeLoop_run (hr : Rep h s D) (hu : D.used k i) (hp : i * BLK_SIZE k < h.right) (hk : k < MAXSIZE h.nsizes) (m : Nat)
    (hj : j ≤ k) (hm : j + m = h.nsizes) : sizeLoop h.nsizes (i * BLK_SIZE k) m j s = .ok (k, s) := by
  have hl := D.leaf _ _ hu
  induction m generalizing j with
  | zero =>
    unfold MAXSIZE at hk
    omega
  | succ m ih =>
    have hj' : j + 1 ≤ MAXSIZE h.nsizes := by omega
    have hlt := index_lt hp hj'
    have hbit := hr.split (j + 1) _ (Nat.succ_pos j) (Heap.lt_sizes.mp hj') hlt
    rw [sizeLoop, blkIndex_eq (hp.trans h.small), bind_ok (splitIsset_run (Heap.lt_sizes.mp hj') hlt)]
    by_cases heq : j = k
    · subst heq
      have hindex : i * BLK_SIZE j / BLK_SIZE (j + 1) = i / 2 := by
        rw [BLK_SIZE_succ, Nat.mul_div_mul_right _ _ (BLK_SIZE_pos j)]
      rw [if_pos (hbit.mpr (hindex ▸ hl.2.2.1 hk))]
      rfl
    · rw [if_neg fun hb => not_inner_below hl (by omega) (hbit.mp hb)]
      exact ih (by omega) (by omega)

theorem size_run (hr : Rep h s D) (hu : D.used k i) (hout : ¬ (k = 0 ∧ h.Outer i)) :
    size h.nsizes (i * BLK_SIZE k) s = .ok (k, s) :=
  sizeLoop_run hr hu (Heap.addr_lt (Heap.leaf_range hr.reserves (D.leaf _ _ hu) hout).2) (lt_MAXSIZE hr hu hout) _ (Nat.zero_le k) (Nat.zero_add _)

/-! ### `bd_free` -/

/-- The cell at `a` is on the free list of level `k`. -/
def OnList (s : State) (k a : Nat) : Prop := ∃ l, Linked s.cells (head k) l (head k) ∧ (head k :: l).Nodup ∧ a ∈ l

theorem onList_iff {F : Nat → Nat → Prop} {a : Nat} (hc : Listed s.cells n F) (hk : k < n) :
    OnList s k a ↔ ∃ i, a = i * BLK_SIZE k ∧ F k i := by
  obtain ⟨L, hL, hmem⟩ := hc
  rw [← hmem k hk a]
  constructor
  · rintro ⟨l, hl, hnodup, ha⟩
    rwa [(hL.linked k hk).unique hl (List.nodup_cons.mp (hL.nodup k hk)).1 (List.nodup_cons.mp hnodup).1]
  · exact fun ha => ⟨L k, hL.linked k hk, hL.nodup k hk, ha⟩

/-- `remove k` is only relied on for cells of the list of level `k`. -/
def Careful (remove : Nat → Nat → M Unit) : Prop := ∀ k q s, OnList s k q → remove k q s = lstRemove q s

theorem buddy_lt (hu : D.used k i) (hk : k < MAXSIZE h.nsizes) : buddy i < NBLK h.nsizes k :=
  Heap.buddy_lt_of hk (D.leaf _ _ hu).2.1

/-- The bit of the buddy is tested after the one of the block has been cleared. -/
theorem buddy_bit (hr : Rep h s D) (hu : D.used k i) (hk : k < MAXSIZE h.nsizes) :
    State.bit (s.clearAlloc k i).alloc k (buddy i) = true ↔ D.inner k (buddy i) ∨ D.used k (buddy i) := by
  rw [State.clearAlloc, State.bit_clear, hr.alloc k _ (Heap.lt_sizes.mp hk.le) (buddy_lt hu hk)]
  exact and_iff_left fun heq => buddy_ne i heq.2

section Round

variable {remove : Nat → Nat → M Unit} (hr : Rep h s D) (hu : D.used k i) (hp : i * BLK_SIZE k < 2 ^ 31)
  (hk : k < MAXSIZE h.nsizes)

include hr hu hp hk

/-- The buddy is in use: the loop ends. -/
theorem freeLoop_stop (hb : D.inner k (buddy i) ∨ D.used k (buddy i)) (m : Nat) :
    freeLoop h.nsizes remove (m + 1) k (i * BLK_SIZE k) s = .ok ((k, i * BLK_SIZE k), s.clearAlloc k i) := by
  obtain ⟨hkn, hi⟩ := Rep.bounds (D.leaf _ _ hu)
  have hindex : blkIndex k (i * BLK_SIZE k) = i := by rw [blkIndex_eq hp, mul_div_BLK_SIZE]
  rw [freeLoop]
  simp only [hindex, buddy_eq]
  rw [bind_ok (allocClear_run hkn hi), bind_ok (allocIsset_run hkn (buddy_lt hu hk)), if_pos ((buddy_bit hr hu hk).mpr hb)]
  rfl

/-- The buddy is free: the loop goes on with both. -/
theorem freeLoop_merge (hremove : Careful remove) (hf : D.Free k (buddy i)) (m : Nat) :
    freeLoop h.nsizes remove (m + 1) k (i * BLK_SIZE k) s =
      freeLoop h.nsizes remove m (k + 1) (i / 2 * BLK_SIZE (k + 1)) (State.clearSplit
        { s.clearAlloc k i with cells := s.cells.remove (buddy i * BLK_SIZE k) } (k + 1) (i / 2)) := by
  obtain ⟨hkn, hi⟩ := Rep.bounds (D.leaf _ _ hu)
  have hindex : blkIndex k (i * BLK_SIZE k) = i := by rw [blkIndex_eq hp, mul_div_BLK_SIZE]
  have hbuddy := Heap.free_range hr.reserves hf
  have hq : addr k (buddy i : Nat) = buddy i * BLK_SIZE k := addr_eq (Heap.addr_small hbuddy.2)
  have hmod : ((buddy i : Nat) : Int).tmod 2 = (buddy i % 2 : Nat) := (Int.ofNat_tmod _ 2).symm
  have hnot : ¬ State.bit (s.clearAlloc k i).alloc k (buddy i) = true := fun hb =>
    ((buddy_bit hr hu hk).mp hb).elim hf.not_inner hf.2
  -- the first of the two blocks
  have hfirst : (if ((buddy i : Nat) : Int).tmod 2 = 0 then buddy i * BLK_SIZE k else i * BLK_SIZE k) =
      i / 2 * BLK_SIZE (k + 1) := by
    have hhalf : i / 2 * BLK_SIZE (k + 1) = 2 * (i / 2) * BLK_SIZE k := by
      rw [BLK_SIZE_succ]
      ring
    rw [hmod, hhalf]
    split
    · rw [buddy_of_even (by omega)]
    · rw [← eq_of_buddy_odd (by omega)]
  have hup : blkIndex (k + 1) (i / 2 * BLK_SIZE (k + 1)) = (i / 2 : Nat) := by
    have hlt : i / 2 * BLK_SIZE (k + 1) < 2 ^ 31 := by
      rw [← hfirst]
      split
      · exact Heap.addr_small hbuddy.2
      · exact hp
    rw [blkIndex_eq hlt, mul_div_BLK_SIZE]
  have hin := D.range _ _ ((D.leaf _ _ hu).2.2.1 hk)
  have hlist : OnList (s.clearAlloc k i) k (buddy i * BLK_SIZE k) := (onList_iff hr.lists hkn).mpr ⟨_, rfl, hf⟩
  rw [freeLoop]
  simp only [hindex, buddy_eq, hq, hfirst, hup]
  rw [bind_ok (allocClear_run hkn hi), bind_ok (allocIsset_run hkn (buddy_lt hu hk)), if_neg hnot,
    bind_ok (hremove k _ _ hlist), bind_ok (splitClear_run (Heap.lt_sizes.mp hin.2.1) hin.2.2)]
  rfl

end Round

/-- The loop of `bd_free` and the insertion after it, whichever way careful cells are removed. -/
theorem freeLoop_run (m : Nat) (hr : Rep h s D) (hu : D.used k i) (hout : ¬ (k = 0 ∧ h.Outer i))
    (hm : k + m = MAXSIZE h.nsizes) :
    ∃ k' p t D', (∀ remove, Careful remove → freeLoop h.nsizes remove m k (i * BLK_SIZE k) s = .ok ((k', p), t)) ∧
      Rep h { t with cells := t.cells.push (head k') p } D' ∧ ∀ a b, D'.used a b ↔ D.used a b ∧ ¬ (a = k ∧ b = i) := by
  have hk := lt_MAXSIZE hr hu hout
  induction m generalizing k i s D with
  | zero => omega
  | succ m ih =>
    have hp := Heap.addr_small (Heap.leaf_range hr.reserves (D.leaf _ _ hu) hout).2
    by_cases hb : D.inner k (buddy i) ∨ D.used k (buddy i)
    · exact ⟨k, i * BLK_SIZE k, s.clearAlloc k i, D.give k i fun _ => hb, fun _ _ => freeLoop_stop hr hu hp hk hb m,
        hr.give hu hout fun _ => hb, fun _ _ => Iff.rfl⟩
    · obtain ⟨h₁, h₂, h₃, -⟩ := D.leaf _ _ hu
      have hf : D.Free k (buddy i) :=
        ⟨⟨h₁, buddy_lt hu hk, fun hlt => by rw [buddy_div]; exact h₃ hlt, fun hin => hb (.inl hin)⟩, fun hu' => hb (.inr hu')⟩
      have hr' := hr.unite hu hout hf hk
      have hu' : (D.unite k i hu hf hk).used (k + 1) (i / 2) := .inr ⟨rfl, rfl⟩
      have hout' : ¬ (k + 1 = 0 ∧ h.Outer (i / 2)) := fun heq => Nat.succ_ne_zero k heq.1
      obtain ⟨k', p, t, D', hrun, hrep, hused⟩ := ih hr' hu' hout' (by omega) (lt_MAXSIZE hr' hu' hout')
      refine ⟨k', p, t, D', fun remove hremove => ?_, hrep, fun a b => (hused a b).trans ?_⟩
      · rw [freeLoop_merge hr hu hp hk hremove hf, hrun remove hremove]
      · have hup : ¬ D.used (k + 1) (i / 2) := fun hu' => (D.leaf _ _ hu').2.2.2 (h₃ hk)
        constructor
        · rintro ⟨hab | hab, hne⟩
          · exact hab
          · exact absurd hab hne
        · exact fun hab => ⟨.inl hab, fun ⟨ha, hb⟩ => hup (ha ▸ hb ▸ hab.1)⟩

theorem bdFree_run (hr : Rep h s D) (hu : D.used k i) (hout : ¬ (k = 0 ∧ h.Outer i)) :
    ∃ t D', (∀ remove, Careful remove → bdFreeWith h.nsizes remove (i * BLK_SIZE k) s = .ok ((), t)) ∧ Rep h t D' ∧
      ∀ a b, D'.used a b ↔ D.used a b ∧ ¬ (a = k ∧ b = i) := by
  have hk := lt_MAXSIZE hr hu hout
  obtain ⟨k', p, t, D', hrun, hrep, hused⟩ := freeLoop_run (MAXSIZE h.nsizes - k) hr hu hout (by omega)
  refine ⟨_, D', fun remove hremove => ?_, hrep, hused⟩
  rw [bdFreeWith, bind_ok (size_run hr hu hout), bind_ok (hrun remove hremove)]
  rfl

end Xv6.Buddy
