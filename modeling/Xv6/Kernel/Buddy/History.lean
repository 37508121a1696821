import Xv6.Kernel.Buddy.Invariant

/-! Requests of any size, and what the free lists remember of the past.

    A block is divided exactly when there is a block in use inside of it. So the blocks in use determine
    the free lists, and when all blocks have been freed the lists are again as `bd_init` has left them. -/

namespace Xv6.Buddy
open Halving

variable {h : Heap} {D D' : h.Div} {n k j : Nat} {s t : State} {x y : Trace}

/-! ### Requests -/

/-- The sizes that `firstk` looks at: powers of two, and zero after the last of them. -/
def Doubling (size : Nat) : Prop := size = 0 ∨ ∃ j, j ≤ 63 ∧ size = 2 ^ j

theorem Doubling.double {size : Nat} (h : Doubling size) : Doubling (size * 2 % 2 ^ 64) := by
  rcases h with rfl | ⟨j, hj, rfl⟩
  · exact .inl rfl
  · rw [← Nat.pow_succ]
    rcases Nat.eq_or_lt_of_le hj with rfl | hj
    · exact .inl (by decide)
    · exact .inr ⟨j + 1, hj, Nat.mod_eq_of_lt (Nat.pow_lt_pow_right (by decide) (by omega))⟩

/-- For more than 2^63 bytes the loop of `firstk` does not end, however long it runs. -/
theorem firstkLoop_forever (hn : 2 ^ 63 < n) {size : Nat} (hsize : Doubling size) (fuel k : Nat) (s : State) :
    firstkLoop n fuel k size s = .error "firstk does not return" := by
  induction fuel generalizing k size with
  | zero => rfl
  | succ fuel ih =>
    have hlt : size < n := by
      rcases hsize with rfl | ⟨j, hj, rfl⟩
      · omega
      · exact Nat.lt_of_le_of_lt (Nat.pow_le_pow_right (by decide) hj) hn
    rw [firstkLoop, if_pos hlt]
    exact ih hsize.double (k + 1)

theorem bdMalloc_forever (hn : 2 ^ 63 < n) (nsizes : Nat) (s : State) :
    bdMalloc nsizes n s = .error "firstk does not return" := by
  have hfirst : firstk n s = .error "firstk does not return" := firstkLoop_forever hn (.inr ⟨4, by decide, rfl⟩) 64 0 s
  show (firstk n s >>= fun _ => _) = _
  rw [hfirst]
  rfl

theorem First.le_iff (hk : First n k) : n ≤ BLK_SIZE j ↔ k ≤ j := by
  constructor
  · intro hn
    by_contra hlt
    have := hk.2 j (by omega)
    omega
  · intro hkj
    exact hk.1.trans (Nat.mul_le_mul_right _ (Nat.pow_le_pow_right (by decide) hkj))

theorem LEAF_SIZE_le (k : Nat) : LEAF_SIZE ≤ BLK_SIZE k := Nat.le_mul_of_pos_left _ (Nat.two_pow_pos k)

/-- A request returns exactly if it is of at most 2^63 bytes; it fails iff no free block is large enough, and its
    block has the smallest size that is. -/
theorem bdMalloc_request (nbytes : Nat) (hr : ∃ D, Rep h s D) :
    (∃ r t, bdMalloc h.nsizes nbytes s = .ok (r, t) ∧
      (r = none ↔ ¬ ∃ k a, k < h.nsizes ∧ OnList s k a ∧ max nbytes LEAF_SIZE ≤ BLK_SIZE k) ∧
      ∀ p, r = some p → ∃ k, size h.nsizes p t = .ok (k, t) ∧ nbytes ≤ BLK_SIZE k ∧ ∀ j, nbytes ≤ BLK_SIZE j → k ≤ j) ↔
    nbytes ≤ 2 ^ 63 := by
  refine ⟨?_, fun hn => ?_⟩
  · rintro ⟨r, t, hrun, -⟩
    by_contra hlt
    rw [bdMalloc_forever (Nat.lt_of_not_le hlt)] at hrun
    cases hrun
  obtain ⟨D, hr⟩ := hr
  obtain ⟨fk, r, t, -, hrun, hfirst, hret⟩ := bdMalloc_run hr hn
  have hfree : (∃ k a, k < h.nsizes ∧ OnList s k a ∧ max nbytes LEAF_SIZE ≤ BLK_SIZE k) ↔ ∃ k i, fk ≤ k ∧ D.Free k i := by
    constructor
    · rintro ⟨k, a, hk, ha, hle⟩
      obtain ⟨i, -, hf⟩ := (onList_iff hr.lists hk).mp ha
      exact ⟨k, i, hfirst.le_iff.mp ((le_max_left _ _).trans hle), hf⟩
    · rintro ⟨k, i, hle, hf⟩
      have hk := (Rep.bounds hf.1).1
      exact ⟨k, _, hk, (onList_iff hr.lists hk).mpr ⟨i, rfl, hf⟩, max_le (hfirst.le_iff.mpr hle) (LEAF_SIZE_le k)⟩
  refine ⟨r, t, hrun, ?_, ?_⟩
  · rw [hfree]
    cases r with
    | none =>
      refine ⟨fun _ => ?_, fun _ => rfl⟩
      rintro ⟨k, i, hle, hf⟩
      exact hret.2 k i hle hf
    | some p => exact ⟨nofun, fun hno => absurd hret.1 hno⟩
  · rintro p rfl
    obtain ⟨-, i, D', rfl, hr', hfresh, hused⟩ := hret
    refine ⟨fk, size_run hr' ((hused _ _).mpr (.inr ⟨rfl, rfl⟩)) ?_, hfirst.1, fun j hj => hfirst.le_iff.mp hj⟩
    rintro ⟨rfl, hout⟩
    exact hfresh 0 i (hr.reserves i hout) rfl

theorem bdMalloc_request_small : ∃ r t, bdMalloc 5 20 smallState = .ok (r, t) ∧
    (r = none ↔ ¬ ∃ k a, k < 5 ∧ OnList smallState k a ∧ max 20 LEAF_SIZE ≤ BLK_SIZE k) ∧
    ∀ p, r = some p → ∃ k, size 5 p t = .ok (k, t) ∧ 20 ≤ BLK_SIZE k ∧ ∀ j, 20 ≤ BLK_SIZE j → k ≤ j :=
  (bdMalloc_request 20 ⟨_, smallState_initialised.rep⟩).mpr (by decide)

/-- `bd_malloc(2^63 + 1)` does not return. -/
theorem bdMalloc_request_forever : (∃ D, Rep smallHeap smallState D) ∧
    ¬ ∃ r t, bdMalloc 5 (2 ^ 63 + 1) smallState = .ok (r, t) := by
  refine ⟨⟨_, smallState_initialised.rep⟩, ?_⟩
  rintro ⟨r, t, hrun⟩
  rw [bdMalloc_forever (Nat.lt_succ_self _)] at hrun
  cases hrun

/-! ### Histories -/

/-- Only live blocks are freed, and only their contents change. -/
def Owned (x : Trace) : Call → Prop
  | .malloc _ => True
  | .free p => ∃ b ∈ x.live, b.p = p
  | .write a _ _ => ∃ b ∈ x.live, b.p ≤ a ∧ a < b.p + BLK_SIZE b.level

/-- A call that returns keeps the invariant. -/
theorem Inv.returned {c : Call} (hinv : Inv h x) (hok : Owned x c) (hstep : step h.nsizes x c = some y) : Inv h y := by
  refine hinv.call ?_ hstep
  cases c with
  | malloc nbytes =>
    by_contra hlt
    rw [step, bdMalloc_forever (Nat.lt_of_not_le hlt)] at hstep
    split at hstep <;> simp_all
  | free p | write a next prev => exact hok

/-- Block `p` of level `k` is allocated. -/
def Allocated (x : Trace) (p k : Nat) : Prop := ∃ b ∈ x.live, b.p = p ∧ b.level = k

/-- The same blocks are free when the same blocks are allocated. -/
theorem Inv.free_iff (hx : Inv h x) (hy : Inv h y) (hsame : ∀ p k, Allocated x p k ↔ Allocated y p k) (hk : k < h.nsizes)
    (a : Nat) : OnList x.s k a ↔ OnList y.s k a := by
  obtain ⟨D, hr, hacc⟩ := hx
  obtain ⟨D', hr', hacc'⟩ := hy
  have hlive : ∀ (z : Trace) k i, (∃ b ∈ z.live, b.level = k ∧ b.p = i * BLK_SIZE k) ↔ Allocated z (i * BLK_SIZE k) k :=
    fun z k i => exists_congr fun b => and_congr_right fun _ => and_comm
  have hused : ∀ k i, D.used k i ↔ D'.used k i := by
    intro k i
    rw [hacc.used, hacc'.used, hlive x, hlive y, hsame]
  rw [onList_iff hr.lists hk, onList_iff hr'.lists hk]
  exact exists_congr fun i => and_congr_right fun _ => Division.free_congr hused k i

/-- After every sequence of calls the free lists have the blocks that they have after any other sequence with
    the same allocated blocks; when nothing is allocated these are the first ones. -/
theorem free_history (cs : List Call) (hs : Initialised h s)
    (hx : (System.ofStep (step h.nsizes)).Run Owned ⟨s, []⟩ cs x) :
    (x.live = [] → ∀ k, k < h.nsizes → ∀ a, OnList x.s k a ↔ OnList s k a) ∧
    ∀ cs' y, (System.ofStep (step h.nsizes)).Run Owned ⟨s, []⟩ cs' y → (∀ p k, Allocated x p k ↔ Allocated y p k) →
      ∀ k, k < h.nsizes → ∀ a, OnList x.s k a ↔ OnList y.s k a := by
  have hinv : ∀ {cs y}, (System.ofStep (step h.nsizes)).Run Owned ⟨s, []⟩ cs y → Inv h y := fun hrun =>
    hrun.step_invariant (fun _ _ _ hinv hok hstep => hinv.returned hok hstep) hs.inv
  refine ⟨fun hnil k hk a => ?_, fun cs' y hy hsame k hk a => (hinv hx).free_iff (hinv hy) hsame hk a⟩
  refine (hinv hx).free_iff (hinv (.nil _)) (fun p k => ?_) hk a
  simp [Allocated, hnil]

/-- After a block of 20 bytes has been allocated and freed. -/
def smallFreed : Trace := (System.ofStep (step 5)).next smallTrace (.free 192)

theorem free_history_small : smallFreed.live = [] ∧ ∀ k, k < 5 → ∀ a, OnList smallFreed.s k a ↔ OnList smallState k a := by
  have hnil : smallFreed.live = [] := by decide +kernel
  exact ⟨hnil, (free_history [.malloc 20, .free 192] smallState_initialised
    (.snoc (.snoc (.nil _) (by decide +kernel) trivial) (by decide +kernel)
      ⟨⟨192, 1, 20⟩, by decide +kernel, rfl⟩)).1 hnil⟩

end Xv6.Buddy
