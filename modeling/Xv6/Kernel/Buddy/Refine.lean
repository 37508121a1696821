import Mathlib.Tactic.Ring
import Xv6.Schemes.Halving
import Xv6.Kernel.Buddy.Machine

/-! The arrays and the lists of the buddy allocator are a division of the heap by halving.

    ```
    division   D ──take, divide, give, unite──▶ D'
               ▲                                ▲
              Rep                              Rep
               │                                │
    arrays     s ────────one round────────────▶ s'
    ```

    A round of `bd_malloc` takes or divides a block, and a round of `bd_free` gives one back or unites
    it with its buddy. -/

namespace Xv6.Buddy
open Circular Halving Function

variable {k k' i j p n : Nat} {s : State}

/-! ### Bits and words -/

theorem mask_eq (b : BitVec 8) {r : Nat} (hr : r < 8) : (b &&& 1#8 <<< r == 1#8 <<< r) = b.getLsbD r := by
  have h : ∀ (b : BitVec 8) (r : Fin 8), (b &&& 1#8 <<< r.val == 1#8 <<< r.val) = b.getLsbD r.val := by decide +kernel
  exact h b ⟨r, hr⟩

theorem bitIsset_eq (array : Nat → BitVec 8) (i : Nat) : bitIsset array i = (array (i / 8)).getLsbD (i % 8) :=
  mask_eq _ (Nat.mod_lt i (by decide))

theorem getLsbD_mask {r r' : Nat} (hr : r < 8) : (1#8 <<< r').getLsbD r = decide (r = r') := by
  rw [BitVec.getLsbD_shiftLeft]
  by_cases h : r = r'
  · subst h
    simp [hr]
  · simp [hr, h]
    omega

theorem bitIsset_bitSet (array : Nat → BitVec 8) (i j : Nat) :
    bitIsset (bitSet array i) j = (decide (j = i) || bitIsset array j) := by
  rw [bitIsset_eq, bitIsset_eq, bitSet]
  by_cases hb : j / 8 = i / 8
  · rw [hb, update_self, BitVec.getLsbD_or, getLsbD_mask (Nat.mod_lt j (by decide)), Bool.or_comm]
    congr 2
    exact propext ⟨fun h => by omega, fun h => by rw [h]⟩
  · rw [update_of_ne hb, decide_eq_false (fun h => hb (by rw [h])), Bool.false_or]

theorem bitIsset_bitClear (array : Nat → BitVec 8) (i j : Nat) :
    bitIsset (bitClear array i) j = (!decide (j = i) && bitIsset array j) := by
  rw [bitIsset_eq, bitIsset_eq, bitClear]
  have hlt := Nat.mod_lt j (show 0 < 8 by decide)
  by_cases hb : j / 8 = i / 8
  · rw [hb, update_self, BitVec.getLsbD_and, BitVec.getLsbD_not, getLsbD_mask hlt, Bool.and_comm,
      decide_eq_true hlt, Bool.true_and]
    congr 3
    exact propext ⟨fun h => by omega, fun h => by rw [h]⟩
  · rw [update_of_ne hb, decide_eq_false (fun h => hb (by rw [h])), Bool.not_false, Bool.true_and]

theorem toInt_eq (h : p < 2 ^ 31) : toInt p = p := by
  unfold toInt
  exact Int.bmod_eq_of_le (by omega) (by omega)

theorem BLK_SIZE_pos (k : Nat) : 0 < BLK_SIZE k := Nat.mul_pos (Nat.two_pow_pos k) (by decide)

theorem BLK_SIZE_succ (k : Nat) : BLK_SIZE (k + 1) = 2 * BLK_SIZE k := by
  unfold BLK_SIZE
  ring

theorem blkIndex_eq (hp : p < 2 ^ 31) : blkIndex k p = (p / BLK_SIZE k : Nat) := by
  unfold blkIndex
  rw [toInt_eq hp, ← Int.ofNat_tdiv]
  exact toInt_eq (Nat.lt_of_le_of_lt (Nat.div_le_self _ _) hp)

theorem addr_eq (h : i * BLK_SIZE k < 2 ^ 31) : addr k i = i * BLK_SIZE k := by
  unfold addr
  rw [← Int.natCast_mul, toInt_eq h]
  omega

theorem buddy_eq (i : Nat) : (if (i : Int).tmod 2 = 0 then (i : Int) + 1 else i - 1) = (buddy i : Nat) := by
  unfold buddy
  have : (i : Int).tmod 2 = (i % 2 : Nat) := (Int.ofNat_tmod i 2).symm
  rw [this]
  split <;> split <;> omega

/-! ### The heap -/

/-- The memory from `left`, the end of the metadata, to `right`, which is `bd_end`. -/
structure Heap where
  nsizes : Nat
  left : Nat
  right : Nat
  sizes_pos : 0 < nsizes
  head_le : head nsizes ≤ left
  left_le : left ≤ right
  right_le : right ≤ BLK_SIZE (MAXSIZE nsizes)
  left_leaf : left % LEAF_SIZE = 0
  right_leaf : right % LEAF_SIZE = 0
  small : right < 2 ^ 31

namespace Heap

variable (h : Heap)

/-- The smallest blocks with metadata, or after the end. -/
def Outer (i : Nat) : Prop := i < NBLK h.nsizes 0 ∧ (i * LEAF_SIZE < h.left ∨ h.right ≤ i * LEAF_SIZE)

abbrev Div (h : Heap) : Type := Division (MAXSIZE h.nsizes)

/-- What is not handed out is always in use. -/
def Reserves (D : h.Div) : Prop := ∀ i, h.Outer i → D.used 0 i

variable {h} {D : h.Div}

theorem lt_sizes : k ≤ MAXSIZE h.nsizes ↔ k < h.nsizes := by
  have := h.sizes_pos
  unfold MAXSIZE
  omega

theorem NBLK_succ (hk : k < MAXSIZE h.nsizes) : NBLK h.nsizes k = 2 * NBLK h.nsizes (k + 1) := by
  unfold NBLK
  rw [← Nat.pow_succ', Nat.succ_eq_add_one, Nat.sub_add_eq, Nat.sub_add_cancel (by omega)]

theorem half_lt (hk : k < MAXSIZE h.nsizes) (hi : i < NBLK h.nsizes k) : i / 2 < NBLK h.nsizes (k + 1) := by
  have := NBLK_succ hk
  omega

theorem buddy_lt_of (hk : k < MAXSIZE h.nsizes) (hi : i < NBLK h.nsizes k) : buddy i < NBLK h.nsizes k := by
  have := NBLK_succ hk
  have := buddy_div i
  omega

/-- Leaves other than the reserved ones are between `left` and `right`. -/
theorem leaf_range (hres : h.Reserves D) (hl : Leaf (MAXSIZE h.nsizes) D.inner k i) (hout : ¬ (k = 0 ∧ h.Outer i)) :
    h.left ≤ i * BLK_SIZE k ∧ (i + 1) * BLK_SIZE k ≤ h.right := by
  -- a reserved unit in the leaf is the leaf
  have hunit : ∀ x, x / 2 ^ k = i → ¬ h.Outer x := fun x hx ho => by
    have hl₀ : Leaf (MAXSIZE h.nsizes) D.inner 0 (x / 2 ^ 0) := by
      rw [Nat.pow_zero, Nat.div_one]
      exact D.leaf _ _ (hres x ho)
    have hk := D.leaf_unique (hx ▸ hl) hl₀
    subst hk
    rw [Nat.pow_zero, Nat.div_one] at hx
    exact hout ⟨rfl, hx ▸ ho⟩
  have hpos := Nat.two_pow_pos k
  have hlt : (i + 1) * 2 ^ k ≤ NBLK h.nsizes 0 := by
    unfold NBLK
    rw [Nat.sub_zero, ← Nat.sub_add_cancel hl.1, Nat.pow_add]
    exact Nat.mul_le_mul_right _ hl.2.1
  have hsucc : (i + 1) * 2 ^ k = i * 2 ^ k + 2 ^ k := Nat.succ_mul i (2 ^ k)
  have hleft := h.left_leaf
  have hright := h.right_leaf
  unfold BLK_SIZE LEAF_SIZE at *
  rw [← Nat.mul_assoc, ← Nat.mul_assoc]
  constructor
  · by_contra hcon
    refine hunit (i * 2 ^ k) (Nat.mul_div_cancel _ hpos) ⟨by omega, .inl ?_⟩
    unfold LEAF_SIZE
    omega
  · by_contra hcon
    refine hunit ((i + 1) * 2 ^ k - 1) ?_ ⟨by omega, .inr ?_⟩
    · rw [hsucc, show i * 2 ^ k + 2 ^ k - 1 = 2 ^ k - 1 + i * 2 ^ k by omega, Nat.add_mul_div_right _ _ hpos,
        Nat.div_eq_of_lt (by omega), Nat.zero_add]
    · unfold LEAF_SIZE
      omega

theorem free_range (hres : h.Reserves D) (hf : D.Free k i) : h.left ≤ i * BLK_SIZE k ∧ (i + 1) * BLK_SIZE k ≤ h.right :=
  leaf_range hres hf.1 fun ⟨hk, ho⟩ => hf.2 (hk ▸ hres i ho)

theorem addr_lt (hle : (i + 1) * BLK_SIZE k ≤ h.right) : i * BLK_SIZE k < h.right := by
  have := Nat.add_one_mul i (BLK_SIZE k)
  have := BLK_SIZE_pos k
  omega

theorem addr_small (hle : (i + 1) * BLK_SIZE k ≤ h.right) : i * BLK_SIZE k < 2 ^ 31 := (addr_lt hle).trans h.small

/-- Leaves are at different addresses. -/
theorem leaf_inj (hl : Leaf (MAXSIZE h.nsizes) D.inner k i) (hl' : Leaf (MAXSIZE h.nsizes) D.inner k' j)
    (heq : i * BLK_SIZE k = j * BLK_SIZE k') : k = k' ∧ i = j := by
  have hx : i * 2 ^ k = j * 2 ^ k' := by
    unfold BLK_SIZE at heq
    rw [← Nat.mul_assoc, ← Nat.mul_assoc] at heq
    exact Nat.eq_of_mul_eq_mul_right (by decide) heq
  have hi : i = i * 2 ^ k / 2 ^ k := (Nat.mul_div_cancel _ (Nat.two_pow_pos k)).symm
  have hj : j = i * 2 ^ k / 2 ^ k' := by rw [hx, Nat.mul_div_cancel _ (Nat.two_pow_pos k')]
  have hk := D.leaf_unique (hi ▸ hl) (hj ▸ hl')
  exact ⟨hk, by rw [hi, hj, hk]⟩

end Heap

/-! ### Operations on the arrays -/

namespace State

def setAlloc (s : State) (k i : Nat) : State := { s with alloc := update s.alloc k (bitSet (s.alloc k) i) }

def clearAlloc (s : State) (k i : Nat) : State := { s with alloc := update s.alloc k (bitClear (s.alloc k) i) }

def setSplit (s : State) (k i : Nat) : State := { s with split := update s.split k (bitSet (s.split k) i) }

def clearSplit (s : State) (k i : Nat) : State := { s with split := update s.split k (bitClear (s.split k) i) }

/-- The bit of block `i` of level `k` in one of the two arrays. -/
def bit (a : Nat → Nat → BitVec 8) (k i : Nat) : Bool := bitIsset (a k) i

theorem bit_set (a : Nat → Nat → BitVec 8) (k i k' j : Nat) :
    bit (update a k (bitSet (a k) i)) k' j = true ↔ bit a k' j = true ∨ k' = k ∧ j = i := by
  unfold bit
  by_cases hk : k' = k
  · subst hk
    rw [update_self, bitIsset_bitSet, Bool.or_eq_true, decide_eq_true_iff, or_comm, and_iff_right rfl]
  · rw [update_of_ne hk]
    exact ⟨.inl, fun hb => hb.resolve_right fun heq => hk heq.1⟩

theorem bit_clear (a : Nat → Nat → BitVec 8) (k i k' j : Nat) :
    bit (update a k (bitClear (a k) i)) k' j = true ↔ bit a k' j = true ∧ ¬ (k' = k ∧ j = i) := by
  unfold bit
  by_cases hk : k' = k
  · subst hk
    rw [update_self, bitIsset_bitClear, Bool.and_eq_true, Bool.not_eq_true', decide_eq_false_iff_not, and_comm,
      and_iff_right rfl]
  · rw [update_of_ne hk]
    exact ⟨fun hb => ⟨hb, fun heq => hk heq.1⟩, And.left⟩

end State

section Access

variable (hk : k < n) (hi : i < NBLK n k)

include hk hi

theorem checkIndex_run : checkIndex n k i s = .ok (i, s) := by
  unfold checkIndex
  rw [if_pos ⟨hk, Int.natCast_nonneg i, by rw [Int.toNat_natCast]; omega⟩]
  rfl

theorem allocIsset_run : allocIsset n k i s = .ok (State.bit s.alloc k i, s) := Hoare.bind_ok (checkIndex_run hk hi)

theorem allocSet_run : allocSet n k i s = .ok ((), s.setAlloc k i) := Hoare.bind_ok (checkIndex_run hk hi)

theorem allocClear_run : allocClear n k i s = .ok ((), s.clearAlloc k i) := Hoare.bind_ok (checkIndex_run hk hi)

theorem splitIsset_run : splitIsset n k i s = .ok (State.bit s.split k i, s) := Hoare.bind_ok (checkIndex_run hk hi)

theorem splitSet_run : splitSet n k i s = .ok ((), s.setSplit k i) := Hoare.bind_ok (checkIndex_run hk hi)

theorem splitClear_run : splitClear n k i s = .ok ((), s.clearSplit k i) := Hoare.bind_ok (checkIndex_run hk hi)

end Access

/-! ### Representation -/

/-- The lists of the first `n` levels have the blocks in `F`. -/
def Listed (c : Cells Nat) (n : Nat) (F : Nat → Nat → Prop) : Prop :=
  ∃ L, Lists c n head L ∧ ∀ k, k < n → ∀ a, a ∈ L k ↔ ∃ i, a = i * BLK_SIZE k ∧ F k i

/-- The arrays and lists of `s` say what `D` says. -/
structure Rep (h : Heap) (s : State) (D : h.Div) : Prop where
  alloc : ∀ k i, k < h.nsizes → i < NBLK h.nsizes k → (State.bit s.alloc k i = true ↔ D.inner k i ∨ D.used k i)
  split : ∀ k i, 0 < k → k < h.nsizes → i < NBLK h.nsizes k → (State.bit s.split k i = true ↔ D.inner k i)
  reserves : h.Reserves D
  lists : Listed s.cells h.nsizes D.Free

variable {h : Heap} {D D' : h.Div} {c : Cells Nat} {F F' : Nat → Nat → Prop}

theorem head_lt (hk : k < h.nsizes) : head k < h.left :=
  Nat.lt_of_lt_of_le (Nat.mul_lt_mul_of_pos_left hk (by decide)) h.head_le

theorem mul_BLK_SIZE_inj (heq : i * BLK_SIZE k = j * BLK_SIZE k) : i = j :=
  Nat.eq_of_mul_eq_mul_right (BLK_SIZE_pos k) heq

theorem Listed.congr (hc : Listed c n F) (hF : ∀ k i, F' k i ↔ F k i) : Listed c n F' := by
  obtain ⟨L, hL, hmem⟩ := hc
  exact ⟨L, hL, fun k hk a => (hmem k hk a).trans (exists_congr fun i => by rw [hF])⟩

theorem Listed.remove (hc : Listed c n F) (hk : k < n) (hF : F k i) :
    Listed (c.remove (i * BLK_SIZE k)) n fun a b => F a b ∧ ¬ (a = k ∧ b = i) := by
  obtain ⟨L, hL, hmem⟩ := hc
  have hin : i * BLK_SIZE k ∈ L k := (hmem k hk _).mpr ⟨i, rfl, hF⟩
  refine ⟨_, hL.remove hk hin, fun k' hk' a => ?_⟩
  by_cases hkk : k' = k
  · subst hkk
    rw [update_self, (List.nodup_cons.mp (hL.nodup k' hk)).2.mem_erase_iff, hmem k' hk]
    constructor
    · rintro ⟨hne, j, rfl, hj⟩
      exact ⟨j, rfl, hj, fun heq => hne (by rw [heq.2])⟩
    · rintro ⟨j, rfl, hj, hne⟩
      exact ⟨fun heq => hne ⟨rfl, mul_BLK_SIZE_inj heq⟩, j, rfl, hj⟩
  · rw [update_of_ne hkk, hmem k' hk']
    exact exists_congr fun j => and_congr_right fun _ => ⟨fun hj => ⟨hj, fun heq => hkk heq.1⟩, And.left⟩

theorem Listed.push (hc : Listed c n F) (hk : k < n)
    (hnew : ∀ k' j, k' < n → F k' j → i * BLK_SIZE k ≠ j * BLK_SIZE k') (hhead : ∀ k', k' < n → i * BLK_SIZE k ≠ head k') :
    Listed (c.push (head k) (i * BLK_SIZE k)) n fun a b => F a b ∨ a = k ∧ b = i := by
  obtain ⟨L, hL, hmem⟩ := hc
  have hfresh : ∀ k', k' < n → i * BLK_SIZE k ∉ head k' :: L k' := fun k' hk' hin => by
    rcases List.mem_cons.mp hin with heq | hin
    · exact hhead k' hk' heq
    · obtain ⟨j, heq, hj⟩ := (hmem k' hk' _).mp hin
      exact hnew k' j hk' hj heq
  refine ⟨_, hL.push hk hfresh, fun k' hk' a => ?_⟩
  by_cases hkk : k' = k
  · subst hkk
    rw [update_self, List.mem_cons, hmem k' hk]
    constructor
    · rintro (rfl | ⟨j, rfl, hj⟩)
      · exact ⟨i, rfl, .inr ⟨rfl, rfl⟩⟩
      · exact ⟨j, rfl, .inl hj⟩
    · rintro ⟨j, rfl, hj | ⟨-, rfl⟩⟩
      · exact .inr ⟨j, rfl, hj⟩
      · exact .inl rfl
  · rw [update_of_ne hkk, hmem k' hk']
    exact exists_congr fun j => and_congr_right fun _ => ⟨.inl, fun hj => hj.resolve_right fun heq => hkk heq.1⟩

/-- The list of a level is empty when its head points to itself. -/
theorem Listed.next_head (hc : Listed c n F) (hk : k < n) : c.next (head k) = head k ↔ ∀ i, ¬ F k i := by
  obtain ⟨L, hL, hmem⟩ := hc
  rw [hL.next_head hk, List.eq_nil_iff_forall_not_mem]
  constructor
  · exact fun hnil i hF => hnil _ ((hmem k hk _).mpr ⟨i, rfl, hF⟩)
  · intro hnone a ha
    obtain ⟨i, -, hF⟩ := (hmem k hk a).mp ha
    exact hnone i hF

theorem Listed.first (hc : Listed c n F) (hk : k < n) (hne : c.next (head k) ≠ head k) :
    ∃ i, c.next (head k) = i * BLK_SIZE k ∧ F k i := by
  obtain ⟨L, hL, hmem⟩ := hc
  have hlink := hL.linked k hk
  cases hl : L k with
  | nil => exact absurd ((hL.next_head hk).mpr hl) hne
  | cons a l =>
    rw [hl] at hlink
    exact (hmem k hk _).mp (by rw [hlink.1.1, hl]; exact List.mem_cons_self)

namespace Rep

/-- Blocks of the division are within the arrays. -/
theorem bounds (hl : Leaf (MAXSIZE h.nsizes) D.inner k i) : k < h.nsizes ∧ i < NBLK h.nsizes k :=
  ⟨Heap.lt_sizes.mp hl.1, hl.2.1⟩

/-- A block becomes free, and its cell is put on the list. -/
theorem push (hc : Listed c h.nsizes D.Free) (hres : h.Reserves D')
    (hF : ∀ a b, D'.Free a b ↔ D.Free a b ∨ a = k ∧ b = i) (hnew : ¬ D.Free k i) :
    Listed (c.push (head k) (i * BLK_SIZE k)) h.nsizes D'.Free := by
  have hf : D'.Free k i := (hF k i).mpr (.inr ⟨rfl, rfl⟩)
  refine (hc.push (bounds hf.1).1 (fun k' j _ hj heq => ?_) fun k' hk' heq => ?_).congr hF
  · obtain ⟨rfl, rfl⟩ := Heap.leaf_inj hf.1 ((hF k' j).mpr (.inl hj)).1 heq
    exact hnew hj
  · have := head_lt hk'
    have := (Heap.free_range hres hf).1
    omega

/-- `bd_malloc` takes a block off its list. -/
theorem take (hr : Rep h s D) (hf : D.Free k i) :
    Rep h (State.setAlloc { s with cells := s.cells.remove (i * BLK_SIZE k) } k i) (D.take k i hf) where
  alloc a b ha hb := by
    rw [State.setAlloc, State.bit_set, hr.alloc a b ha hb, Division.take, or_assoc]
  split := hr.split
  reserves j hj := .inl (hr.reserves j hj)
  lists := (hr.lists.remove (bounds hf.1).1 hf).congr fun _ _ => Division.free_take hf

/-- `bd_malloc` splits a block. -/
theorem divide (hr : Rep h s D) (hu : D.used (k + 1) i) :
    Rep h { (s.setSplit (k + 1) i).setAlloc k (2 * i) with
      cells := s.cells.push (head k) ((2 * i + 1) * BLK_SIZE k) } (D.divide k i hu) where
  alloc a b ha hb := by
    show State.bit (update s.alloc k (bitSet (s.alloc k) (2 * i))) a b = true ↔ _
    rw [State.bit_set, hr.alloc a b ha hb]
    constructor
    · rintro ((hin | hab) | heq)
      · exact .inl (.inl hin)
      · by_cases heq : a = k + 1 ∧ b = i
        · exact .inl (.inr heq)
        · exact .inr (.inl ⟨hab, heq⟩)
      · exact .inr (.inr heq)
    · rintro ((hin | ⟨rfl, rfl⟩) | (hab | heq))
      · exact .inl (.inl hin)
      · exact .inl (.inr hu)
      · exact .inl (.inr hab.1)
      · exact .inr heq
  split a b hpos ha hb := by
    show State.bit (update s.split (k + 1) (bitSet (s.split (k + 1)) i)) a b = true ↔ _
    rw [State.bit_set, hr.split a b hpos ha hb, Division.divide]
  reserves j hj := .inl ⟨hr.reserves j hj, by omega⟩
  lists := by
    obtain ⟨hk, -, -, hnot⟩ := D.leaf _ _ hu
    refine push hr.lists (fun j hj => .inl ⟨hr.reserves j hj, by omega⟩) (fun _ _ => Division.free_divide hu) fun hf => ?_
    have hin := hf.1.2.2.1 (by omega)
    rw [show (2 * i + 1) / 2 = i by omega] at hin
    exact hnot hin

/-- `bd_free` gives a block back. -/
theorem give (hr : Rep h s D) (hu : D.used k i) (hout : ¬ (k = 0 ∧ h.Outer i))
    (hb : k < MAXSIZE h.nsizes → D.inner k (buddy i) ∨ D.used k (buddy i)) :
    Rep h { s.clearAlloc k i with cells := s.cells.push (head k) (i * BLK_SIZE k) } (D.give k i hb) where
  alloc a b ha hb := by
    show State.bit (update s.alloc k (bitClear (s.alloc k) i)) a b = true ↔ _
    rw [State.bit_clear, hr.alloc a b ha hb]
    constructor
    · exact fun ⟨hab, hne⟩ => hab.imp_right (⟨·, hne⟩)
    · rintro (hin | hab)
      · exact ⟨.inl hin, fun heq => (D.leaf _ _ hu).2.2.2 (heq.1 ▸ heq.2 ▸ hin)⟩
      · exact ⟨.inr hab.1, hab.2⟩
  split := hr.split
  reserves j hj := ⟨hr.reserves j hj, fun heq => hout ⟨heq.1.symm, heq.2 ▸ hj⟩⟩
  lists := push hr.lists (fun j hj => ⟨hr.reserves j hj, fun heq => hout ⟨heq.1.symm, heq.2 ▸ hj⟩⟩)
    (fun _ _ => Division.free_give hu hb) fun hf => hf.2 hu

/-- `bd_free` merges a block with its buddy. -/
theorem unite (hr : Rep h s D) (hu : D.used k i) (hout : ¬ (k = 0 ∧ h.Outer i)) (hf : D.Free k (buddy i))
    (hk : k < MAXSIZE h.nsizes) :
    Rep h (State.clearSplit { s.clearAlloc k i with cells := s.cells.remove (buddy i * BLK_SIZE k) } (k + 1) (i / 2))
      (D.unite k i hu hf hk) where
  alloc a b ha hb := by
    show State.bit (update s.alloc k (bitClear (s.alloc k) i)) a b = true ↔ _
    rw [State.bit_clear, hr.alloc a b ha hb]
    constructor
    · rintro ⟨hin | hab, hne⟩
      · by_cases hup : a = k + 1 ∧ b = i / 2
        · exact .inr (.inr hup)
        · exact .inl ⟨hin, hup⟩
      · exact .inr (.inl ⟨hab, hne⟩)
    · rintro (hin | (hab | ⟨rfl, rfl⟩))
      · exact ⟨.inl hin.1, fun heq => (D.leaf _ _ hu).2.2.2 (heq.1 ▸ heq.2 ▸ hin.1)⟩
      · exact ⟨.inr hab.1, hab.2⟩
      · exact ⟨.inl ((D.leaf _ _ hu).2.2.1 hk), by omega⟩
  split a b hpos ha hb := by
    show State.bit (update s.split (k + 1) (bitClear (s.split (k + 1)) (i / 2))) a b = true ↔ _
    rw [State.bit_clear, hr.split a b hpos ha hb, Division.unite]
  reserves j hj := .inl ⟨hr.reserves j hj, fun heq => hout ⟨heq.1.symm, heq.2 ▸ hj⟩⟩
  lists := (hr.lists.remove (bounds hf.1).1 hf).congr fun _ _ => Division.free_unite hu hf hk

end Rep

end Xv6.Buddy
