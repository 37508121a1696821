import Mathlib.Tactic.IntervalCases
import Xv6.Schemes.System
import Xv6.Kernel.Buddy.Calls

/-! The buddy allocator over sequences of calls.

    ```
    malloc n ─▶ a block of the level of n is live
    free p   ─▶ it is not live any more
    write    ─▶ the owner of a live block changes what is in it
    ```

    The live blocks and the blocks of the free lists divide the memory from the metadata to `bd_end`. -/

namespace Xv6.Buddy
open Circular Halving Function

/-- A block that `bd_malloc` has returned: its address and level, and what was asked for. -/
structure Block where
  p : Nat
  level : Nat
  bytes : Nat
  deriving DecidableEq

structure Trace where
  s : State
  live : List Block

inductive Call
  | malloc (nbytes : Nat)
  | free (p : Nat)
  | write (a next prev : Nat)

/-- The allocator does not look at the contents of live blocks, and their owners may change them. -/
def State.write (s : State) (a next prev : Nat) : State :=
  { s with cells := ⟨update s.cells.next a next, update s.cells.prev a prev⟩ }

/-- One call; the level of a block is the result of `firstk`. -/
def step (nsizes : Nat) (x : Trace) : Call → Option Trace
  | .malloc nbytes =>
    match firstk nbytes x.s, bdMalloc nsizes nbytes x.s with
    | .ok (k, _), .ok (some p, t) => some ⟨t, ⟨p, k, nbytes⟩ :: x.live⟩
    | _, .ok (none, t) => some ⟨t, x.live⟩
    | _, _ => none
  | .free p =>
    match bdFree nsizes p x.s with
    | .ok (_, t) => some ⟨t, x.live.filter (·.p ≠ p)⟩
    | .error _ => none
  | .write a next prev => some ⟨x.s.write a next prev, x.live⟩

/-- Requests are of at most 2^63 bytes, only live blocks are freed, and only their contents change. -/
def Admissible (x : Trace) : Call → Prop
  | .malloc nbytes => nbytes ≤ 2 ^ 63
  | .free p => ∃ b ∈ x.live, b.p = p
  | .write a _ _ => ∃ b ∈ x.live, b.p ≤ a ∧ a < b.p + BLK_SIZE b.level

/-! ### Initial states -/

/-- Block `i` of level `k` is not inside of the memory from `left` to `right`. -/
def Heap.Overlaps (h : Heap) (k i : Nat) : Prop := i * BLK_SIZE k < h.left ∨ h.right < (i + 1) * BLK_SIZE k

/-- What `bd_mark` and `bd_initfree` are to set up: blocks that are not inside are marked as allocated
    and split, and a block is on a free list when it is inside and its buddy is not. -/
structure Initialised (h : Heap) (s : State) : Prop where
  alloc : ∀ k i, k < h.nsizes → i < NBLK h.nsizes k → (bitIsset (s.alloc k) i = true ↔ h.Overlaps k i)
  split : ∀ k i, 0 < k → k < h.nsizes → i < NBLK h.nsizes k → (bitIsset (s.split k) i = true ↔ h.Overlaps k i)
  free : Listed s.cells h.nsizes fun k i =>
    k < MAXSIZE h.nsizes ∧ i < NBLK h.nsizes k ∧ ¬ h.Overlaps k i ∧ h.Overlaps k (buddy i)

namespace Heap

variable {h : Heap} {k i j : Nat}

theorem outer_iff : h.Outer i ↔ i < NBLK h.nsizes 0 ∧ h.Overlaps 0 i := by
  have hleaf := h.right_leaf
  unfold Outer Overlaps BLK_SIZE LEAF_SIZE at *
  rw [Nat.pow_zero, Nat.one_mul]
  omega

/-- A block is the two halves of it. -/
theorem overlaps_halves (k i : Nat) : h.Overlaps (k + 1) i ↔ h.Overlaps k (2 * i) ∨ h.Overlaps k (2 * i + 1) := by
  have hfirst : i * BLK_SIZE (k + 1) = 2 * i * BLK_SIZE k := by
    rw [BLK_SIZE_succ]
    ring
  have hlast : (i + 1) * BLK_SIZE (k + 1) = 2 * i * BLK_SIZE k + BLK_SIZE k + BLK_SIZE k := by
    rw [BLK_SIZE_succ]
    ring
  unfold Overlaps
  rw [hfirst, hlast, Nat.add_one_mul (2 * i + 1), Nat.add_one_mul (2 * i)]
  omega

theorem overlaps_up (k i : Nat) : h.Overlaps (k + 1) (i / 2) ↔ h.Overlaps k i ∨ h.Overlaps k (buddy i) := by
  rw [overlaps_halves]
  rcases Nat.mod_two_eq_zero_or_one (buddy i) with hb | hb
  · rw [← buddy_of_even hb, show buddy i + 1 = i by have := buddy_of_even hb; have := buddy_ne i; omega, or_comm]
  · have hi := eq_of_buddy_odd hb
    rw [← hi, show i + 1 = buddy i by have := buddy_div i; omega]

/-- The division of the memory before the first call. -/
def initial (h : Heap) : h.Div where
  inner k i := 0 < k ∧ k ≤ MAXSIZE h.nsizes ∧ i < NBLK h.nsizes k ∧ h.Overlaps k i
  used k i := k = 0 ∧ i < NBLK h.nsizes 0 ∧ h.Overlaps 0 i
  range k i hin := ⟨hin.1, hin.2.1, hin.2.2.1⟩
  up k i hk hin := ⟨Nat.succ_pos k, hk, half_lt hk hin.2.2.1, (overlaps_up k i).mpr (.inl hin.2.2.2)⟩
  leaf k i hu := by
    obtain ⟨rfl, hi, ho⟩ := hu
    exact ⟨Nat.zero_le _, hi, fun hk => ⟨Nat.one_pos, hk, half_lt hk hi, (overlaps_up 0 i).mpr (.inl ho)⟩,
      fun hin => absurd hin.1 (by decide)⟩
  buddies k i hk hl := by
    obtain ⟨-, hi, hup, hnot⟩ := hl
    have hb : buddy i < NBLK h.nsizes k := buddy_lt_of hk hi
    rcases (overlaps_up k i).mp (hup hk).2.2.2 with ho | ho
    · rcases Nat.eq_zero_or_pos k with rfl | hpos
      · exact .inl ⟨rfl, hi, ho⟩
      · exact absurd ⟨hpos, hk.le, hi, ho⟩ hnot
    · rcases Nat.eq_zero_or_pos k with rfl | hpos
      · exact .inr (.inr ⟨rfl, hb, ho⟩)
      · exact .inr (.inl ⟨hpos, hk.le, hb, ho⟩)

theorem free_initial : h.initial.Free k i ↔
    k < MAXSIZE h.nsizes ∧ i < NBLK h.nsizes k ∧ ¬ h.Overlaps k i ∧ h.Overlaps k (buddy i) := by
  constructor
  · rintro ⟨⟨hk, hi, hup, hnot⟩, hused⟩
    have hno : ¬ h.Overlaps k i := fun ho => by
      rcases Nat.eq_zero_or_pos k with rfl | hpos
      · exact hused ⟨rfl, hi, ho⟩
      · exact hnot ⟨hpos, hk, hi, ho⟩
    have hlt : k < MAXSIZE h.nsizes := by
      refine Nat.lt_of_le_of_ne hk fun heq => hno (.inl ?_)
      have hzero : i = 0 := by
        rw [heq, Nat.sub_self, Nat.pow_zero] at hi
        omega
      rw [hzero, Nat.zero_mul]
      exact Nat.lt_of_le_of_lt (Nat.zero_le _) (head_lt h.sizes_pos)
    exact ⟨hlt, hi, hno, ((overlaps_up k i).mp (hup hlt).2.2.2).resolve_left hno⟩
  · rintro ⟨hk, hi, hno, ho⟩
    refine ⟨⟨hk.le, hi, fun _ => ⟨Nat.succ_pos k, hk, half_lt hk hi, (overlaps_up k i).mpr (.inr ho)⟩, ?_⟩, ?_⟩
    · exact fun hin => hno hin.2.2.2
    · rintro ⟨rfl, -, ho'⟩
      exact hno ho'

end Heap

theorem Initialised.rep {h : Heap} {s : State} (hs : Initialised h s) : Rep h s h.initial where
  alloc k i hk hi := by
    refine (hs.alloc k i hk hi).trans ⟨fun ho => ?_, fun hor => hor.elim (·.2.2.2) ?_⟩
    · rcases Nat.eq_zero_or_pos k with rfl | hpos
      · exact .inr ⟨rfl, hi, ho⟩
      · exact .inl ⟨hpos, Heap.lt_sizes.mpr hk, hi, ho⟩
    · rintro ⟨rfl, -, ho⟩
      exact ho
  split k i hpos hk hi := (hs.split k i hpos hk hi).trans ⟨fun ho => ⟨hpos, Heap.lt_sizes.mpr hk, hi, ho⟩, (·.2.2.2)⟩
  reserves i hi := ⟨rfl, Heap.outer_iff.mp hi⟩
  lists := hs.free.congr fun _ _ => Heap.free_initial

/-! ### Calls -/

variable {h : Heap} {D D' : h.Div} {k k' i j a n : Nat} {s t : State} {live : List Block} {b : Block}

/-- An address is in one leaf. -/
theorem leaf_at (ha : i * BLK_SIZE k ≤ a) (ha' : a < (i + 1) * BLK_SIZE k) : a / LEAF_SIZE / 2 ^ k = i := by
  rw [Nat.div_div_eq_div_mul, Nat.mul_comm LEAF_SIZE]
  exact Nat.div_eq_of_lt_le ha ha'

theorem leaf_eq (hl : Leaf (MAXSIZE h.nsizes) D.inner k i) (hl' : Leaf (MAXSIZE h.nsizes) D.inner k' j)
    (ha : i * BLK_SIZE k ≤ a ∧ a < (i + 1) * BLK_SIZE k) (ha' : j * BLK_SIZE k' ≤ a ∧ a < (j + 1) * BLK_SIZE k') :
    k = k' ∧ i = j := by
  have hi := leaf_at ha.1 ha.2
  have hj := leaf_at ha'.1 ha'.2
  have hk := D.leaf_unique (hi ▸ hl) (hj ▸ hl')
  exact ⟨hk, by rw [← hi, ← hj, hk]⟩

/-- The blocks in use are the reserved ones and the live ones. -/
structure Accounts (h : Heap) (D : h.Div) (live : List Block) : Prop where
  used : ∀ k i, D.used k i ↔ k = 0 ∧ h.Outer i ∨ ∃ b ∈ live, b.level = k ∧ b.p = i * BLK_SIZE k
  block : ∀ b ∈ live, ∃ i, b.p = i * BLK_SIZE b.level ∧ ¬ (b.level = 0 ∧ h.Outer i)
  fits : ∀ b ∈ live, b.bytes ≤ BLK_SIZE b.level
  nodup : (live.map Block.p).Nodup

namespace Accounts

theorem of_live (hacc : Accounts h D live) (hb : b ∈ live) :
    ∃ i, b.p = i * BLK_SIZE b.level ∧ D.used b.level i ∧ ¬ (b.level = 0 ∧ h.Outer i) := by
  obtain ⟨i, hp, hout⟩ := hacc.block b hb
  exact ⟨i, hp, (hacc.used _ _).mpr (.inr ⟨b, hb, rfl, hp⟩), hout⟩

theorem malloc (hacc : Accounts h D live) (hn : n ≤ BLK_SIZE k) (hfresh : ∀ a b, D.used a b → b * BLK_SIZE a ≠ i * BLK_SIZE k)
    (hres : h.Reserves D) (hused : ∀ a b, D'.used a b ↔ D.used a b ∨ a = k ∧ b = i) :
    Accounts h D' (⟨i * BLK_SIZE k, k, n⟩ :: live) where
  used a b := by
    rw [hused, hacc.used]
    constructor
    · rintro ((hout | ⟨c, hc, hab⟩) | ⟨rfl, rfl⟩)
      · exact .inl hout
      · exact .inr ⟨c, List.mem_cons_of_mem _ hc, hab⟩
      · exact .inr ⟨_, List.mem_cons_self, rfl, rfl⟩
    · rintro (hout | ⟨c, hc, hk, hp⟩)
      · exact .inl (.inl hout)
      · rcases List.mem_cons.mp hc with rfl | hc
        · subst hk
          exact .inr ⟨rfl, (mul_BLK_SIZE_inj hp).symm⟩
        · exact .inl (.inr ⟨c, hc, hk, hp⟩)
  block b hb := by
    rcases List.mem_cons.mp hb with rfl | hb
    · exact ⟨i, rfl, fun ⟨hk, hout⟩ => hfresh 0 i (hres i hout) (by rw [show k = 0 from hk])⟩
    · exact hacc.block b hb
  fits b hb := by
    rcases List.mem_cons.mp hb with rfl | hb
    · exact hn
    · exact hacc.fits b hb
  nodup := by
    rw [List.map_cons, List.nodup_cons]
    refine ⟨fun hin => ?_, hacc.nodup⟩
    obtain ⟨b, hb, hp⟩ := List.mem_map.mp hin
    obtain ⟨j, hj, hu, -⟩ := hacc.of_live hb
    exact hfresh _ _ hu (hj.symm.trans hp)

theorem free (hacc : Accounts h D live) (hu : D.used k i) (hout : ¬ (k = 0 ∧ h.Outer i))
    (hused : ∀ a b, D'.used a b ↔ D.used a b ∧ ¬ (a = k ∧ b = i)) :
    Accounts h D' (live.filter (·.p ≠ i * BLK_SIZE k)) where
  used a b := by
    rw [hused, hacc.used]
    constructor
    · rintro ⟨hres | ⟨c, hc, rfl, hp⟩, hne⟩
      · exact .inl hres
      · refine .inr ⟨c, List.mem_filter.mpr ⟨hc, decide_eq_true fun heq => hne ?_⟩, rfl, hp⟩
        exact Heap.leaf_inj (D.leaf _ _ ((hacc.used _ _).mpr (.inr ⟨c, hc, rfl, hp⟩))) (D.leaf _ _ hu) (hp.symm.trans heq)
    · rintro (hres | ⟨c, hc, rfl, hp⟩)
      · refine ⟨.inl hres, ?_⟩
        rintro ⟨ha, hb⟩
        exact hout ⟨ha ▸ hres.1, hb ▸ hres.2⟩
      · obtain ⟨hc, hne⟩ := List.mem_filter.mp hc
        refine ⟨.inr ⟨c, hc, rfl, hp⟩, ?_⟩
        rintro ⟨ha, hb⟩
        exact of_decide_eq_true hne (by rw [hp, ha, hb])
  block b hb := hacc.block b (List.mem_of_mem_filter hb)
  fits b hb := hacc.fits b (List.mem_of_mem_filter hb)
  nodup := hacc.nodup.sublist (List.filter_sublist.map _)

end Accounts

/-- The cells of the lists are outside of the live blocks. -/
theorem Rep.write (hr : Rep h s D) (hu : D.used k i) (hout : ¬ (k = 0 ∧ h.Outer i))
    (ha : i * BLK_SIZE k ≤ a ∧ a < (i + 1) * BLK_SIZE k) (next prev : Nat) : Rep h (s.write a next prev) D where
  alloc := hr.alloc
  split := hr.split
  reserves := hr.reserves
  lists := by
    obtain ⟨L, hL, hmem⟩ := hr.lists
    refine ⟨L, hL.congr fun k' hk' c hc => ?_, hmem⟩
    have hne : c ≠ a := by
      rintro rfl
      rcases List.mem_cons.mp hc with rfl | hc
      · have := head_lt hk'
        have := (Heap.leaf_range hr.reserves (D.leaf _ _ hu) hout).1
        omega
      · obtain ⟨j, rfl, hf⟩ := (hmem k' hk' _).mp hc
        have hin : j * BLK_SIZE k' < (j + 1) * BLK_SIZE k' := Nat.mul_lt_mul_of_pos_right (Nat.lt_succ_self j) (BLK_SIZE_pos k')
        obtain ⟨rfl, rfl⟩ := leaf_eq (D.leaf _ _ hu) hf.1 ha ⟨le_rfl, hin⟩
        exact hf.2 hu
    exact ⟨update_of_ne hne _ _, update_of_ne hne _ _⟩

/-- The arrays and lists, and the live blocks, are those of one division. -/
def Inv (h : Heap) (x : Trace) : Prop := ∃ D, Rep h x.s D ∧ Accounts h D x.live

theorem Initialised.inv (hs : Initialised h s) : Inv h ⟨s, []⟩ := by
  refine ⟨h.initial, hs.rep, fun k i => ?_, by simp, by simp, List.nodup_nil⟩
  rw [Heap.outer_iff]
  exact ⟨.inl, fun hor => hor.elim id fun ⟨b, hb, _⟩ => absurd hb List.not_mem_nil⟩

theorem careful_lstRemove : Careful fun _ q => lstRemove q := fun _ _ _ _ => rfl

/-- Every call keeps the invariant. -/
theorem Inv.call {x y : Trace} {c : Call} (hinv : Inv h x) (hok : Admissible x c) (hstep : step h.nsizes x c = some y) :
    Inv h y := by
  obtain ⟨D, hr, hacc⟩ := hinv
  cases c with
  | malloc nbytes =>
    obtain ⟨fk, r, t, hfk, hrun, hn, hret⟩ := bdMalloc_run hr hok
    unfold step at hstep
    simp only [hfk, hrun] at hstep
    cases r with
    | none =>
      cases hstep
      obtain rfl : t = x.s := hret.1
      exact ⟨D, hr, hacc⟩
    | some p =>
      cases hstep
      obtain ⟨-, i, D', rfl, hr', hfresh, hused⟩ := hret
      exact ⟨D', hr', hacc.malloc hn.1 hfresh hr.reserves hused⟩
  | free p =>
    obtain ⟨b, hb, rfl⟩ := hok
    obtain ⟨i, hp, hu, hout⟩ := hacc.of_live hb
    obtain ⟨t, D', hrun, hr', hused⟩ := bdFree_run hr hu hout
    unfold step at hstep
    simp only [bdFree, hp, hrun _ careful_lstRemove] at hstep
    cases hstep
    exact ⟨D', hr', hacc.free hu hout hused⟩
  | write a next prev =>
    obtain ⟨b, hb, hle, hlt⟩ := hok
    obtain ⟨i, hp, hu, hout⟩ := hacc.of_live hb
    cases hstep
    rw [hp] at hle hlt
    exact ⟨D, hr.write hu hout ⟨hle, by rwa [Nat.add_one_mul]⟩ next prev, hacc⟩

/-! ### What holds between calls -/

/-- A free or live block. -/
def Piece (h : Heap) (x : Trace) (p k : Nat) : Prop :=
  k < h.nsizes ∧ OnList x.s k p ∨ ∃ b ∈ x.live, b.p = p ∧ b.level = k

/-- Free and live blocks divide the memory into aligned blocks, each of them either free or live and
    large enough; `size` finds the level of a live block, the calls return, and whatever
    `lst_remove` would do to a cell that is not on the list of its level does not matter. -/
structure Sound (h : Heap) (x : Trace) : Prop where
  aligned : ∀ p k, Piece h x p k → p % BLK_SIZE k = 0
  disjoint : ∀ p k p' k', Piece h x p k → Piece h x p' k' →
    p = p' ∧ k = k' ∨ p + BLK_SIZE k ≤ p' ∨ p' + BLK_SIZE k' ≤ p
  cover : ∀ a, h.left ≤ a ∧ a < h.right ↔ ∃ p k, Piece h x p k ∧ p ≤ a ∧ a < p + BLK_SIZE k
  once : (x.live.map Block.p).Nodup
  apart : ∀ b ∈ x.live, ∀ k, k < h.nsizes → ¬ OnList x.s k b.p
  fits : ∀ b ∈ x.live, b.bytes ≤ BLK_SIZE b.level
  buddies : ∀ k i, k < MAXSIZE h.nsizes → ¬ (OnList x.s k (i * BLK_SIZE k) ∧ OnList x.s k (buddy i * BLK_SIZE k))
  size : ∀ b ∈ x.live, size h.nsizes b.p x.s = .ok (b.level, x.s)
  malloc : ∀ nbytes, nbytes ≤ 2 ^ 63 → ∃ r t, bdMalloc h.nsizes nbytes x.s = .ok (r, t)
  free : ∀ b ∈ x.live, ∃ t, ∀ remove, Careful remove → bdFreeWith h.nsizes remove b.p x.s = .ok ((), t)

/-- The pieces are the leaves that are not reserved. -/
theorem piece_iff {x : Trace} {p : Nat} (hr : Rep h x.s D) (hacc : Accounts h D x.live) :
    Piece h x p k ↔ ∃ i, p = i * BLK_SIZE k ∧ Leaf (MAXSIZE h.nsizes) D.inner k i ∧ ¬ (k = 0 ∧ h.Outer i) := by
  constructor
  · rintro (⟨hk, hon⟩ | ⟨b, hb, rfl, rfl⟩)
    · obtain ⟨i, rfl, hf⟩ := (onList_iff hr.lists hk).mp hon
      exact ⟨i, rfl, hf.1, fun ⟨hk, hout⟩ => hf.2 (hk ▸ hr.reserves i hout)⟩
    · obtain ⟨i, hp, hu, hout⟩ := hacc.of_live hb
      exact ⟨i, hp, D.leaf _ _ hu, hout⟩
  · rintro ⟨i, rfl, hl, hout⟩
    by_cases hu : D.used k i
    · obtain ⟨b, hb, hk, hp⟩ := ((hacc.used k i).mp hu).resolve_left hout
      exact .inr ⟨b, hb, hp, hk⟩
    · exact .inl ⟨(Rep.bounds hl).1, (onList_iff hr.lists (Rep.bounds hl).1).mpr ⟨i, rfl, hl, hu⟩⟩

theorem cover_of_leaf (ha : h.left ≤ a ∧ a < h.right) :
    ∃ k i, Leaf (MAXSIZE h.nsizes) D.inner k i ∧ ¬ (k = 0 ∧ h.Outer i) ∧ i * BLK_SIZE k ≤ a ∧ a < (i + 1) * BLK_SIZE k := by
  have hunits : a / LEAF_SIZE < 2 ^ MAXSIZE h.nsizes := by
    rw [Nat.div_lt_iff_lt_mul (by decide)]
    exact Nat.lt_of_lt_of_le ha.2 h.right_le
  obtain ⟨k, hl⟩ := D.leaf_exists hunits
  refine ⟨k, _, hl, ?_, ?_⟩
  · rintro ⟨rfl, -, hout⟩
    have hleft := h.left_leaf
    rw [Nat.pow_zero, Nat.div_one] at hout
    unfold LEAF_SIZE at *
    omega
  · rw [Nat.div_div_eq_div_mul, Nat.mul_comm LEAF_SIZE]
    exact ⟨Nat.div_mul_le_self _ _, Nat.lt_mul_of_div_lt (Nat.lt_succ_self _) (BLK_SIZE_pos k)⟩

theorem Inv.sound {x : Trace} (hinv : Inv h x) : Sound h x := by
  obtain ⟨D, hr, hacc⟩ := hinv
  refine ⟨fun p k hp => ?_, fun p k p' k' hp hp' => ?_, fun a => ⟨fun ha => ?_, ?_⟩, hacc.nodup, fun b hb k hk hon => ?_,
    hacc.fits, fun k i hk ⟨hi, hb⟩ => ?_, fun b hb => ?_, fun nbytes hn => ?_, fun b hb => ?_⟩
  · obtain ⟨i, rfl, -⟩ := (piece_iff hr hacc).mp hp
    exact Nat.mul_mod_left _ _
  · obtain ⟨i, rfl, hl, -⟩ := (piece_iff hr hacc).mp hp
    obtain ⟨j, rfl, hl', -⟩ := (piece_iff hr hacc).mp hp'
    by_contra hcon
    -- both have the later one of the two addresses
    have hi := Nat.add_one_mul i (BLK_SIZE k)
    have hj := Nat.add_one_mul j (BLK_SIZE k')
    have hpos := BLK_SIZE_pos k
    have hpos' := BLK_SIZE_pos k'
    rcases Nat.le_total (i * BLK_SIZE k) (j * BLK_SIZE k') with hle | hle
    · obtain ⟨rfl, rfl⟩ := leaf_eq hl hl' ⟨hle, by omega⟩ ⟨le_rfl, by omega⟩
      exact hcon (.inl ⟨rfl, rfl⟩)
    · obtain ⟨rfl, rfl⟩ := leaf_eq hl hl' ⟨le_rfl, by omega⟩ ⟨hle, by omega⟩
      exact hcon (.inl ⟨rfl, rfl⟩)
  · obtain ⟨k, i, hl, hout, hle, hlt⟩ := cover_of_leaf (D := D) ha
    exact ⟨_, k, (piece_iff hr hacc).mpr ⟨i, rfl, hl, hout⟩, hle, by rwa [← Nat.add_one_mul]⟩
  · rintro ⟨p, k, hp, hle, hlt⟩
    obtain ⟨i, rfl, hl, hout⟩ := (piece_iff hr hacc).mp hp
    obtain ⟨hleft, hright⟩ := Heap.leaf_range hr.reserves hl hout
    rw [Nat.add_one_mul] at hright
    omega
  · obtain ⟨i, hp, hu, hout⟩ := hacc.of_live hb
    obtain ⟨j, hj, hf⟩ := (onList_iff hr.lists hk).mp hon
    obtain ⟨rfl, rfl⟩ := Heap.leaf_inj (D.leaf _ _ hu) hf.1 (hp.symm.trans hj)
    exact hf.2 hu
  · have hkn := Heap.lt_sizes.mp hk.le
    obtain ⟨i', hi', hf⟩ := (onList_iff hr.lists hkn).mp hi
    obtain ⟨j, hj, hf'⟩ := (onList_iff hr.lists hkn).mp hb
    obtain rfl := mul_BLK_SIZE_inj hi'
    obtain rfl := mul_BLK_SIZE_inj hj
    rcases D.buddies k i hk hf.1 with hu | hin | hu
    · exact hf.2 hu
    · exact hf'.not_inner hin
    · exact hf'.2 hu
  · obtain ⟨i, hp, hu, hout⟩ := hacc.of_live hb
    rw [hp]
    exact size_run hr hu hout
  · obtain ⟨fk, r, t, -, hrun, -⟩ := bdMalloc_run hr hn
    exact ⟨r, t, hrun⟩
  · obtain ⟨i, hp, hu, hout⟩ := hacc.of_live hb
    obtain ⟨t, D', hrun, -⟩ := bdFree_run hr hu hout
    exact ⟨t, fun remove hremove => by rw [hp]; exact hrun remove hremove⟩

/-- The buddy allocator is sound after every sequence of calls from an initialised heap. -/
theorem buddy_sound {s : State} {x : Trace} {cs : List Call} (hs : Initialised h s)
    (hrun : (System.ofStep (step h.nsizes)).Run Admissible ⟨s, []⟩ cs x) : Sound h x :=
  (hrun.step_invariant (fun _ _ _ hinv hok hstep => hinv.call hok hstep) hs.inv).sound

/-! ### A small heap -/

instance (h : Heap) (k i : Nat) : Decidable (h.Overlaps k i) := inferInstanceAs (Decidable (_ ∨ _))

/-- 256 bytes, of which the metadata has the first 176. -/
def smallHeap : Heap where
  nsizes := 5
  left := 176
  right := 256
  sizes_pos := by decide
  head_le := by decide
  left_le := by decide
  right_le := by decide
  left_leaf := by decide
  right_leaf := by decide
  small := by decide

def smallBits : Nat → Nat → BitVec 8
  | 0, 0 => 0xFF
  | 0, 1 => 0x07
  | 1, 0 => 0x3F
  | 2, 0 => 0x07
  | 3, 0 => 0x03
  | 4, 0 => 0x01
  | _, _ => 0

/-- Two lists have one block each. -/
def smallCells : Nat → Nat
  | 0 => 176
  | 176 => 0
  | 64 => 192
  | 192 => 64
  | a => a

def smallLists : Nat → List Nat
  | 0 => [176]
  | 2 => [192]
  | _ => []

def smallState : State := ⟨smallBits, smallBits, ⟨smallCells, smallCells⟩⟩

theorem smallState_initialised : Initialised smallHeap smallState where
  alloc k i hk hi := by
    have hall : ∀ k, k < smallHeap.nsizes → ∀ i, i < NBLK smallHeap.nsizes k →
        (bitIsset (smallState.alloc k) i = true ↔ smallHeap.Overlaps k i) := by decide +kernel
    exact hall k hk i hi
  split k i _ hk hi := by
    have hall : ∀ k, k < smallHeap.nsizes → ∀ i, i < NBLK smallHeap.nsizes k →
        (bitIsset (smallState.split k) i = true ↔ smallHeap.Overlaps k i) := by decide +kernel
    exact hall k hk i hi
  free := by
    have hmem : ∀ k, k < smallHeap.nsizes → ∀ i, i < NBLK smallHeap.nsizes k →
        (i * BLK_SIZE k ∈ smallLists k ↔ k < MAXSIZE smallHeap.nsizes ∧ ¬ smallHeap.Overlaps k i ∧
          smallHeap.Overlaps k (buddy i)) := by decide +kernel
    have hblock : ∀ k, k < smallHeap.nsizes → ∀ a ∈ smallLists k,
        a / BLK_SIZE k < NBLK smallHeap.nsizes k ∧ a = a / BLK_SIZE k * BLK_SIZE k := by decide +kernel
    have hapart : ∀ k, k < smallHeap.nsizes → ∀ k', k' < smallHeap.nsizes →
        ∀ a ∈ head k :: smallLists k, a ∈ head k' :: smallLists k' → k = k' := by decide +kernel
    refine ⟨smallLists, ⟨fun k hk => ?_, by decide +kernel, fun k k' hk hk' hne a ha ha' => hne (hapart k hk k' hk' a ha ha')⟩,
      fun k hk a => ⟨fun ha => ?_, ?_⟩⟩
    · have hk : k < 5 := hk
      interval_cases k <;> simp [Linked, smallLists, smallState, smallCells, head]
    · obtain ⟨hlt, heq⟩ := hblock k hk a ha
      have := (hmem k hk _ hlt).mp (heq ▸ ha)
      exact ⟨_, heq, this.1, hlt, this.2⟩
    · rintro ⟨i, rfl, h₁, h₂, h₃⟩
      exact (hmem k hk i h₂).mpr ⟨h₁, h₃⟩

/-- After a request of 20 bytes. -/
def smallTrace : Trace := (System.ofStep (step 5)).next ⟨smallState, []⟩ (.malloc 20)

theorem buddy_sound_small : smallTrace.live = [⟨192, 1, 20⟩] ∧ Sound smallHeap smallTrace :=
  ⟨by decide +kernel, buddy_sound smallState_initialised (.snoc (.nil _) (by decide +kernel)
    (show 20 ≤ 2 ^ 63 by decide))⟩

end Xv6.Buddy
