import Xv6.Schemes.Ledger
import Xv6.Kernel.Fs.Files

/-! Who owns which block.

    ```
    slot   0 … 11        12                13 … 268
           direct     indirect block    entries of the indirect block
    ```

    An allocated inode owns the blocks in its slots. `Acct` says that the free map is exact for the
    owners and the pending blocks, that files have no holes, and that directories hold only numbers
    of inodes. It is stated for a table of inodes `T` and the contents `v` of all blocks. -/

namespace Xv6.Fs
open Bytes Ledger Function

/-! ### Slots -/

/-- The number of slots of an inode. -/
def NSLOT : Nat := NDIRECT + 1 + NINDIRECT

/-- The address in a slot; 0 when there is none. -/
def slot (d : Dinode) (v : Disk) (k : Nat) : Nat :=
  if k ≤ NDIRECT then (d.addr k).toNat
  else if k < NSLOT ∧ d.addr NDIRECT ≠ 0 then
    getLE (v (d.addr NDIRECT).toNat) (4 * (k - NDIRECT - 1)) 4
  else 0

/-- The slot of a file's `n`th block. -/
def dataSlot (n : Nat) : Nat := if n < NDIRECT then n else n + 1

theorem dataSlot_ne (n : Nat) : dataSlot n ≠ NDIRECT := by
  unfold dataSlot
  split <;> omega

theorem dataSlot_inj {n m : Nat} (h : dataSlot n = dataSlot m) : n = m := by
  unfold dataSlot at h
  split at h <;> split at h <;> omega

variable {k : Nat}

theorem slot_direct (d : Dinode) (v : Disk) (hk : k ≤ NDIRECT) :
    slot d v k = (d.addr k).toNat := if_pos hk

variable {d : Dinode} {v : Disk} {j : Nat}

theorem slot_indirect (hj : j < NINDIRECT) (hne : d.addr NDIRECT ≠ 0) :
    slot d v (NDIRECT + 1 + j) = getLE (v (d.addr NDIRECT).toNat) (4 * j) 4 := by
  have hlt : NDIRECT + 1 + j < NSLOT := by unfold NSLOT; omega
  rw [slot, if_neg (by omega), if_pos ⟨hlt, hne⟩]
  congr 2
  omega

variable {v' : Disk}

theorem slot_congr {d' : Dinode} (haddrs : d'.addrs = d.addrs)
    (hind : d.addr NDIRECT ≠ 0 → v' (d.addr NDIRECT).toNat = v (d.addr NDIRECT).toNat) (k : Nat) :
    slot d' v' k = slot d v k := by
  have haddr : ∀ j, d'.addr j = d.addr j := fun j => by unfold Dinode.addr; rw [haddrs]
  unfold slot
  rw [haddr, haddr]
  by_cases hne : d.addr NDIRECT = 0
  · simp [hne]
  · rw [hind hne]

theorem slot_ge (hk : NSLOT ≤ k) : slot d v k = 0 := by
  have : NDIRECT < NSLOT := by decide
  rw [slot, if_neg (by omega), if_neg (by omega)]

@[simp] theorem addr_setAddr (d : Dinode) (k j : Nat) (a : UInt32) (hk : k ≤ NDIRECT) :
    (d.setAddr k a).addr j = if j = k then a else d.addr j := by
  unfold Dinode.addr Dinode.setAddr
  by_cases hj : j < NDIRECT + 1
  · simp [hj]
  · rw [dif_neg hj, dif_neg hj, if_neg (by omega)]

theorem getLE_zero (off len : Nat) : getLE Block.zero off len = 0 := by
  induction len generalizing off with
  | zero => rfl
  | succ len ih =>
    have hbyte : byte Block.zero off = 0 := by
      unfold byte
      split <;> rfl
    rw [getLE, ih, hbyte]
    rfl

variable {b : Nat}

/-- A new block gets into a slot of the inode. -/
theorem slot_setAddr_new (hk : k ≤ NDIRECT) (hempty : d.addr k = 0)
    (hb : b < 2 ^ 32) (hzero : v b = Block.zero) (j : Nat) :
    slot (d.setAddr k (UInt32.ofNat b)) v j = if j = k then b else slot d v j := by
  have hb' : (UInt32.ofNat b).toNat = b := UInt32.toNat_ofNat_of_lt' hb
  by_cases hj' : j ≤ NDIRECT
  · rw [slot_direct _ _ hj', slot_direct _ _ hj', addr_setAddr _ _ _ _ hk]
    by_cases hj : j = k
    · rw [if_pos hj, if_pos hj, hb']
    · rw [if_neg hj, if_neg hj]
  · rw [if_neg (by omega)]
    by_cases hk' : NDIRECT = k
    · -- a new indirect block has no entries
      subst hk'
      rw [slot, slot, if_neg hj', if_neg hj', addr_setAddr _ _ _ _ hk, if_pos rfl, hb', hzero,
        getLE_zero, hempty]
      simp
    · rw [slot, slot, if_neg hj', if_neg hj', addr_setAddr _ _ _ _ hk, if_neg hk']

/-- A new block gets into an entry of the indirect block. -/
theorem slot_putEntry {a : Nat} (hj : j < NINDIRECT)
    (hne : d.addr NDIRECT ≠ 0) (ha : (d.addr NDIRECT).toNat = a) (hb : b < 2 ^ 32) (k : Nat) :
    slot d (update v a (putLE (v a) (4 * j) 4 b)) k =
      if k = NDIRECT + 1 + j then b else slot d v k := by
  have hfit : 4 * j + 4 ≤ BSIZE := by
    have : NINDIRECT = 256 := rfl
    have : BSIZE = 1024 := rfl
    omega
  by_cases hk : k = NDIRECT + 1 + j
  · rw [if_pos hk, hk, slot_indirect hj hne, ha, update_self,
      getLE_putLE_self _ _ _ _ hfit, Nat.mod_eq_of_lt (by omega)]
  · rw [if_neg hk, slot, slot, ha, update_self]
    by_cases hk' : k ≤ NDIRECT
    · rw [if_pos hk', if_pos hk']
    · rw [if_neg hk', if_neg hk', getLE_putLE_of_disjoint _ _ _ _ _ _ (by omega)]

/-! ### Owners -/

/-- The block a slot of an allocated inode owns. -/
def owns (d : Dinode) (v : Disk) (k : Nat) : Option Nat :=
  if d.type ≠ 0 ∧ slot d v k ≠ 0 then some (slot d v k) else none

theorem owns_eq_some :
    owns d v k = some b ↔ d.type ≠ 0 ∧ slot d v k = b ∧ b ≠ 0 := by
  unfold owns
  by_cases h : d.type ≠ 0 ∧ slot d v k ≠ 0
  · rw [if_pos h]
    constructor
    · rintro ⟨⟩; exact ⟨h.1, rfl, h.2⟩
    · rintro ⟨-, rfl, -⟩; rfl
  · rw [if_neg h]
    constructor
    · rintro ⟨⟩
    · rintro ⟨ht, rfl, hb⟩; exact absurd ⟨ht, hb⟩ h

/-- The owner `(i, k)` is slot `k` of inode `i`. -/
def own (sb : Superblock) (T : Nat → Dinode) (v : Disk) (x : Nat × Nat) : Option Nat :=
  if x.1 < sb.ninodes then owns (T x.1) v x.2 else none

variable {sb : Superblock}

theorem own_eq_some {T : Nat → Dinode} {i : Nat} :
    own sb T v (i, k) = some b ↔ i < sb.ninodes ∧ (T i).type ≠ 0 ∧ slot (T i) v k = b ∧ b ≠ 0 := by
  unfold own
  by_cases hi : i < sb.ninodes
  · rw [if_pos hi, owns_eq_some]
    exact ⟨fun h => ⟨hi, h⟩, fun h => h.2⟩
  · rw [if_neg hi]
    exact ⟨(nomatch ·), fun h => absurd h.1 hi⟩

/-- The slots in the order of `itrunc`: direct, entries of the indirect block, indirect block. -/
def slotOrder : List Nat :=
  List.range NDIRECT ++ ((List.range NINDIRECT).map (NDIRECT + 1 + ·) ++ [NDIRECT])

theorem mem_slotOrder : k ∈ slotOrder ↔ k < NSLOT := by
  simp only [slotOrder, NSLOT, List.mem_append, List.mem_range, List.mem_map, List.mem_singleton]
  constructor
  · rintro (h | ⟨j, hj, rfl⟩ | rfl) <;> omega
  · intro hk
    by_cases h₁ : k < NDIRECT
    · exact .inl h₁
    · by_cases h₂ : k = NDIRECT
      · exact .inr (.inr h₂)
      · exact .inr (.inl ⟨k - (NDIRECT + 1), by omega, by omega⟩)

theorem slotOrder_nodup : slotOrder.Nodup := by
  refine List.Nodup.append List.nodup_range (List.Nodup.append ?_ (List.nodup_singleton _) ?_) ?_
  · exact List.nodup_range.map fun _ _ h => Nat.add_left_cancel h
  · intro k hk hk'
    obtain ⟨j, -, rfl⟩ := List.mem_map.mp hk
    have := List.mem_singleton.mp hk'
    omega
  · intro k hk hk'
    have hk := List.mem_range.mp hk
    rcases List.mem_append.mp hk' with h | h
    · obtain ⟨j, -, rfl⟩ := List.mem_map.mp h
      omega
    · have := List.mem_singleton.mp h
      omega

/-- The blocks of an inode. -/
def ownedBlocks (d : Dinode) (v : Disk) : List Nat := slotOrder.filterMap (owns d v)

/-! ### Exact accounts -/

/-- Every entry of a directory block is the number of an inode. -/
def DirBlock (sb : Superblock) (blk : Block) : Prop := ∀ j, j < 64 → getLE blk (16 * j) 2 < sb.ninodes

/-- A data block that the free map marks as in use. -/
def Used (sb : Superblock) (v : Disk) (b : Nat) : Prop :=
  sb.nmeta ≤ b ∧ b < sb.size ∧ bitAt sb v b = true

/-- What block `b` in slot `k` of an inode of type `ty` must be, when `U` are the blocks whose buffers
    were modified without `log_write`: indirect blocks and blocks of directories are not among
    them. -/
def Sound (sb : Superblock) (U : Nat → Prop) (v : Disk) (ty : Int16) (k b : Nat) : Prop :=
  k = NDIRECT ∨ ty = T_DIR → ¬ U b ∧ (k ≠ NDIRECT → DirBlock sb (v b))

theorem Sound.mono {U U' : Nat → Prop} {ty : Int16}
    (h : Sound sb U v ty k b) (hU : U' b → U b) (hv : v' b = v b) : Sound sb U' v' ty k b := fun hk =>
  ⟨fun hu => (h hk).1 (hU hu), fun hne => hv ▸ (h hk).2 hne⟩

structure Acct (sb : Superblock) (T : Nat → Dinode) (v : Disk) (U : Nat → Prop)
    (pending : List Nat) : Prop where
  meta_used : ∀ b, b < sb.nmeta → bitAt sb v b = true
  ledger : Exact (own sb T v) (Used sb v) pending
  full : ∀ i, i < sb.ninodes → (T i).type ≠ 0 →
    ∀ n, n * BSIZE < (T i).size.toNat → slot (T i) v (dataSlot n) ≠ 0
  small : ∀ i, i < sb.ninodes → (T i).type ≠ 0 → (T i).size.toNat ≤ MAXFILE * BSIZE
  sound : ∀ i k b, own sb T v (i, k) = some b → Sound sb U v (T i).type k b

section Change

variable {sb : Superblock} {T T' : Nat → Dinode} {v v' : Disk} {U U' : Nat → Prop}
  {ps : List Nat} {b : Nat}

variable {i : Nat}

/-- The slots of a table only depend on the indirect blocks. -/
theorem slot_view (hT : ∀ i, i < sb.ninodes → (T' i).type = (T i).type ∧ (T' i).addrs = (T i).addrs)
    (hind : ∀ i a, own sb T v (i, NDIRECT) = some a → v' a = v a) (hi : i < sb.ninodes)
    (hty : (T i).type ≠ 0) (k : Nat) : slot (T' i) v' k = slot (T i) v k := by
  refine slot_congr (hT i hi).2 (fun hne => hind i _ ?_) k
  refine own_eq_some.mpr ⟨hi, hty, slot_direct _ _ le_rfl, fun h0 => hne ?_⟩
  exact UInt32.toNat_inj.mp h0

theorem own_view (hT : ∀ i, i < sb.ninodes → (T' i).type = (T i).type ∧ (T' i).addrs = (T i).addrs)
    (hind : ∀ i a, own sb T v (i, NDIRECT) = some a → v' a = v a) (x : Nat × Nat) :
    own sb T' v' x = own sb T v x := by
  unfold own owns
  by_cases hi : x.1 < sb.ninodes
  · rw [if_pos hi, if_pos hi, (hT _ hi).1]
    by_cases hty : (T x.1).type = 0
    · simp [hty]
    · rw [slot_view hT hind hi hty]
  · rw [if_neg hi, if_neg hi]

theorem own_update (hi : i < sb.ninodes) (d : Dinode) (j k : Nat) :
    own sb (update T i d) v (j, k) = if j = i then owns d v k else own sb T v (j, k) := by
  by_cases hj : j = i
  · subst hj
    simp [own, hi]
  · simp [own, hj]

namespace Acct

theorem owned (h : Acct sb T v U ps) {x : Nat × Nat} (hx : own sb T v x = some b) : Used sb v b :=
  (h.ledger.used_iff b).mpr (.inl ⟨x, hx⟩)

theorem pending (h : Acct sb T v U ps) (hb : b ∈ ps) : Used sb v b :=
  (h.ledger.used_iff b).mpr (.inr hb)

/-- Changes that move no block: to other fields of inodes, to the contents of files, and to the
    entries of directories as long as these stay numbers of inodes. -/
theorem congr (h : Acct sb T v U ps)
    (hT : ∀ i, i < sb.ninodes → (T' i).type = (T i).type ∧ (T' i).addrs = (T i).addrs)
    (hsize : ∀ i, i < sb.ninodes → (T' i).size = (T i).size)
    (hbits : ∀ c, c < sb.size → bitAt sb v' c = bitAt sb v c)
    (hind : ∀ i a, own sb T v (i, NDIRECT) = some a → v' a = v a)
    (hsound : ∀ i k a, own sb T v (i, k) = some a → Sound sb U v (T i).type k a →
      Sound sb U' v' (T i).type k a) : Acct sb T' v' U' ps where
  meta_used c hc := by
    rw [hbits c (hc.trans_le (Nat.sub_le _ _))]
    exact h.meta_used c hc
  ledger := h.ledger.congr (own_view hT hind) fun c => by
    refine and_congr_right fun _ => and_congr_right fun hc => ?_
    rw [hbits c hc]
  full i hi hty n hn := by
    rw [(hT i hi).1] at hty
    rw [hsize i hi] at hn
    rw [slot_view hT hind hi hty]
    exact h.full i hi hty n hn
  small i hi hty := by
    rw [(hT i hi).1] at hty
    rw [hsize i hi]
    exact h.small i hi hty
  sound i k c hc := by
    rw [own_view hT hind] at hc
    rw [(hT i (own_eq_some.mp hc).1).1]
    exact hsound i k c hc (h.sound i k c hc)

/-- A free block is marked, zeroed, and pending. -/
theorem alloc (h : Acct sb T v U ps) (hU : ∀ c, U' c → U c) (hb : b < sb.size)
    (hfree : bitAt sb v b = false) :
    Acct sb T (update (putBitAt sb v b true) b Block.zero) U' (b :: ps) := by
  have hmeta : sb.nmeta ≤ b := by
    by_contra hlt
    rw [h.meta_used b (by omega)] at hfree
    cases hfree
  have hbit : ∀ c, c < sb.size → bitAt sb (update (putBitAt sb v b true) b Block.zero) c =
      if c = b then true else bitAt sb v c := fun c hc => by
    rw [bitAt_update hc hmeta, bitAt_putBitAt]
  have hunused : ¬ Used sb v b := fun hu => by rw [hu.2.2] at hfree; cases hfree
  have hsame : ∀ x a, own sb T v x = some a →
      update (putBitAt sb v b true) b Block.zero a = v a := fun x a hx => by
    have hu := h.owned hx
    rw [update_of_ne (by rintro rfl; exact hunused hu), putBitAt_data hb hu.1]
  have hown := own_view (fun _ _ => (⟨rfl, rfl⟩ : (T _).type = (T _).type ∧ (T _).addrs = (T _).addrs)) fun i a => hsame (i, NDIRECT) a
  refine ⟨fun c hc => ?_, ?_, fun i hi hty n hn => ?_, h.small, fun i k c hc => ?_⟩
  · rw [hbit c (hc.trans_le (Nat.sub_le _ _)), if_neg (by omega), h.meta_used c hc]
  · refine (h.ledger.congr hown fun _ => Iff.rfl).alloc hunused fun c => ?_
    unfold Used
    by_cases hcb : c = b
    · subst hcb
      simp [hbit c hb, hmeta, hb]
    · refine ⟨fun hu => .inl ⟨hu.1, hu.2.1, ?_⟩, fun hu => ?_⟩
      · rw [← hu.2.2, hbit c hu.2.1, if_neg hcb]
      · obtain ⟨h₁, h₂, h₃⟩ := hu.resolve_right hcb
        exact ⟨h₁, h₂, by rw [hbit c h₂, if_neg hcb, h₃]⟩
  · rw [slot_view (fun _ _ => ⟨rfl, rfl⟩) (fun i a => hsame (i, NDIRECT) a) hi hty]
    exact h.full i hi hty n hn
  · rw [hown] at hc
    exact (h.sound i k c hc).mono (hU c) (hsame _ c hc)

/-- A pending block is marked free. -/
theorem free (h : Acct sb T v U (b :: ps)) (hU : ∀ c, U' c → U c) :
    Acct sb T (putBitAt sb v b false) U' ps := by
  obtain ⟨hmeta, hb, -⟩ := h.pending List.mem_cons_self
  have hsame : ∀ x a, own sb T v x = some a → putBitAt sb v b false a = v a := fun x a hx =>
    putBitAt_data hb (h.owned hx).1 _
  have hown := own_view (fun _ _ => (⟨rfl, rfl⟩ : (T _).type = (T _).type ∧ (T _).addrs = (T _).addrs)) fun i a => hsame (i, NDIRECT) a
  refine ⟨fun c hc => ?_, ?_, fun i hi hty n hn => ?_, h.small, fun i k c hc => ?_⟩
  · rw [bitAt_putBitAt, if_neg (by omega), h.meta_used c hc]
  · refine (h.ledger.congr hown fun _ => Iff.rfl).free fun c => ?_
    unfold Used
    rw [bitAt_putBitAt]
    by_cases hcb : c = b
    · simp [hcb]
    · simp [hcb]
  · rw [slot_view (fun _ _ => ⟨rfl, rfl⟩) (fun i a => hsame (i, NDIRECT) a) hi hty]
    exact h.full i hi hty n hn
  · rw [hown] at hc
    exact (h.sound i k c hc).mono (hU c) (hsame _ c hc)

variable {i k : Nat} {d : Dinode}

/-- A pending block gets into an empty slot of an inode. -/
theorem attach (h : Acct sb T v U (b :: ps)) (hi : i < sb.ninodes)
    (hty : (T i).type ≠ 0) (hdty : d.type = (T i).type) (hdsize : d.size = (T i).size)
    (hempty : slot (T i) v k = 0) (hself : slot d v' k = b)
    (hrest : ∀ j, j ≠ k → slot d v' j = slot (T i) v j)
    (hother : ∀ j, j < sb.ninodes → j ≠ i → (T j).type ≠ 0 → ∀ n, slot (T j) v' n = slot (T j) v n)
    (hbits : ∀ c, c < sb.size → bitAt sb v' c = bitAt sb v c)
    (hU : ∀ c, U' c → U c) (hdir : ∀ j n a, own sb T v (j, n) = some a → n ≠ NDIRECT → v' a = v a)
    (hnew : ¬ U' b ∧ DirBlock sb (v' b)) : Acct sb (update T i d) v' U' ps := by
  have hb0 : b ≠ 0 := by
    have h₁ := (h.pending List.mem_cons_self).1
    have h₂ := sb.bmapstart_lt
    omega
  have hown : ∀ j n, (j, n) ≠ (i, k) → own sb (update T i d) v' (j, n) = own sb T v (j, n) := by
    intro j n hne
    rw [own_update hi]
    by_cases hj : j = i
    · subst hj
      have hn : n ≠ k := fun hn => hne (by rw [hn])
      rw [if_pos rfl, own, if_pos hi]
      simp only [owns, hrest n hn, hdty]
    · rw [if_neg hj]
      unfold own owns
      by_cases hlt : j < sb.ninodes
      · by_cases htj : (T j).type = 0
        · simp [htj]
        · simp only [hother j hlt hj htj n]
      · simp [hlt]
  have hget : ∀ j, j ≠ i → update T i d j = T j := fun j hj => update_of_ne hj _ _
  refine ⟨fun c hc => ?_, ?_, fun j hj htj n hn => ?_, fun j hj htj => ?_, fun j n c hc => ?_⟩
  · rw [hbits c (hc.trans_le (Nat.sub_le _ _)), h.meta_used c hc]
  · have hused : ∀ c, Used sb v' c ↔ Used sb v c := fun c =>
      and_congr_right fun _ => and_congr_right fun hc => by rw [hbits c hc]
    refine (h.ledger.congr (fun _ => rfl) hused).attach (x := (i, k)) ?_ ?_ fun y hy => hown y.1 y.2 hy
    · rw [own, if_pos hi, owns, if_neg fun hc => hc.2 hempty]
    · rw [own_update hi, if_pos rfl]
      exact owns_eq_some.mpr ⟨hdty ▸ hty, hself, hb0⟩
  · by_cases hji : j = i
    · subst hji
      rw [update_self] at htj hn ⊢
      rw [hdsize] at hn
      by_cases hk : dataSlot n = k
      · rw [hk, hself]; exact hb0
      · rw [hrest _ hk]; exact h.full j hi hty n hn
    · rw [hget j hji] at htj hn ⊢
      rw [hother j hj hji htj]
      exact h.full j hj htj n hn
  · by_cases hji : j = i
    · subst hji
      rw [update_self, hdsize]
      exact h.small j hi hty
    · rw [hget j hji] at htj ⊢
      exact h.small j hj htj
  · by_cases hx : (j, n) = (i, k)
    · obtain ⟨rfl, rfl⟩ := Prod.mk.inj hx
      rw [own_update hi, if_pos rfl] at hc
      obtain rfl : c = b := by rw [← (owns_eq_some.mp hc).2.1, hself]
      exact fun _ => ⟨hnew.1, fun _ => hnew.2⟩
    · rw [hown j n hx] at hc
      have hsame : (update T i d j).type = (T j).type := by
        by_cases hji : j = i
        · subst hji
          rw [update_self, hdty]
        · rw [hget j hji]
      rw [hsame]
      intro hk
      obtain ⟨hu, hblk⟩ := h.sound j n c hc hk
      exact ⟨fun hc' => hu (hU c hc'), fun hn => hdir j n c hc hn ▸ hblk hn⟩

theorem attach_addr (h : Acct sb T v U (b :: ps)) (hi : i < sb.ninodes)
    (hty : (T i).type ≠ 0) (hk : k ≤ NDIRECT) (hempty : (T i).addr k = 0) (hzero : v b = Block.zero)
    (hu : ¬ U b) : Acct sb (update T i ((T i).setAddr k (UInt32.ofNat b))) v U ps := by
  have hb : b < 2 ^ 32 := by
    have h₁ := (h.pending List.mem_cons_self).2.1
    have h₂ := sb.int
    omega
  have hslot := slot_setAddr_new hk hempty hb hzero
  have hnew : DirBlock sb (v b) := fun j _ => by
    rw [hzero, getLE_zero]
    exact Nat.lt_of_le_of_lt (Nat.zero_le _) sb.root
  refine h.attach (k := k) hi hty rfl rfl ?_ ?_ (fun j hj => ?_) (fun _ _ _ _ _ => rfl)
    (fun _ _ => rfl) (fun _ => id) (fun _ _ _ _ _ => rfl) ⟨hu, hnew⟩
  · rw [slot_direct _ _ hk, hempty]; rfl
  · rw [hslot, if_pos rfl]
  · rw [hslot, if_neg hj]

theorem attach_entry (h : Acct sb T v U (b :: ps)) {j a : Nat} (hi : i < sb.ninodes)
    (hty : (T i).type ≠ 0) (hj : j < NINDIRECT) (hne : (T i).addr NDIRECT ≠ 0)
    (ha : ((T i).addr NDIRECT).toNat = a) (hempty : getLE (v a) (4 * j) 4 = 0)
    (hzero : v b = Block.zero) (hu : ¬ U b) (hU : ∀ c, U' c → U c) :
    Acct sb T (update v a (putLE (v a) (4 * j) 4 b)) U' ps := by
  have hown : own sb T v (i, NDIRECT) = some a := own_eq_some.mpr
    ⟨hi, hty, by rw [slot_direct _ _ le_rfl, ha], fun h0 => hne (UInt32.toNat_inj.mp (ha.trans h0))⟩
  have hab : b ≠ a := by
    rintro rfl
    exact h.ledger.unowned List.mem_cons_self _ hown
  have hslot := slot_putEntry (v := v) hj hne ha (b := b) (by
    have h₁ := (h.pending List.mem_cons_self).2.1
    have h₂ := sb.int
    omega)
  have hself : T = update T i (T i) := (update_eq_self i T).symm
  rw [hself]
  refine h.attach (k := NDIRECT + 1 + j) hi hty rfl rfl ?_ ?_ (fun n hn => ?_) (fun n hn hni htn m => ?_)
    (fun c hc => bitAt_update hc (h.owned hown).1 _) hU (fun n m c hc hm => ?_)
    ⟨fun hc => hu (hU b hc), ?_⟩
  · rw [slot_indirect hj hne, ha, hempty]
  · rw [hslot, if_pos rfl]
  · rw [hslot, if_neg hn]
  · -- another inode's indirect block is another block
    refine slot_congr rfl (fun hne' => update_of_ne (fun hac => hni ?_) _ _) m
    have : own sb T v (n, NDIRECT) = some a := own_eq_some.mpr
      ⟨hn, htn, by rw [slot_direct _ _ le_rfl, hac],
        fun h0 => hne' (UInt32.toNat_inj.mp (hac.trans h0))⟩
    exact (Prod.mk.inj (h.ledger.once this hown)).1
  · refine update_of_ne ?_ _ _
    rintro rfl
    exact hm (Prod.mk.inj (h.ledger.once hc hown)).2
  · intro n _
    rw [update_of_ne hab, hzero, getLE_zero]
    exact Nat.lt_of_le_of_lt (Nat.zero_le _) sb.root

/-- Inodes that own nothing come and go. -/
theorem blank (h : Acct sb T v U ps) (hi : i < sb.ninodes)
    (hold : ∀ k, owns (T i) v k = none) (hnew : ∀ k, owns d v k = none)
    (hsize : d.type ≠ 0 → d.size = 0) : Acct sb (update T i d) v U ps := by
  have hown : ∀ j k, own sb (update T i d) v (j, k) = own sb T v (j, k) := fun j k => by
    rw [own_update hi]
    by_cases hj : j = i
    · subst hj
      rw [if_pos rfl, hnew, own, if_pos hi, hold]
    · rw [if_neg hj]
  have hget : ∀ j, j ≠ i → update T i d j = T j := fun j hj => update_of_ne hj _ _
  refine ⟨h.meta_used, h.ledger.congr (fun x => hown x.1 x.2) fun _ => Iff.rfl, fun j hj htj n hn => ?_,
    fun j hj htj => ?_, fun j k c hc => ?_⟩
  · by_cases hji : j = i
    · subst hji
      rw [update_self] at htj hn
      rw [hsize htj] at hn
      exact absurd hn (Nat.not_lt_zero _)
    · rw [hget j hji] at htj hn ⊢
      exact h.full j hj htj n hn
  · by_cases hji : j = i
    · subst hji
      rw [update_self] at htj ⊢
      rw [hsize htj]
      exact Nat.zero_le _
    · rw [hget j hji] at htj ⊢
      exact h.small j hj htj
  · by_cases hji : j = i
    · subst hji
      rw [own_update hi, if_pos rfl, hnew] at hc
      cases hc
    · rw [hown] at hc
      rw [hget j hji]
      exact h.sound j k c hc

/-- An inode gives up its blocks. They are pending in the order in which `itrunc` frees them. -/
theorem release (h : Acct sb T v U []) (hi : i < sb.ninodes)
    (hnew : ∀ k, owns d v k = none) (hsize : d.size = 0) :
    Acct sb (update T i d) v U (ownedBlocks (T i) v) := by
  have hget : ∀ j, j ≠ i → update T i d j = T j := fun j hj => update_of_ne hj _ _
  have hmem : ∀ k, k < NSLOT → (i, k) ∈ slotOrder.map (i, ·) := fun k hk =>
    List.mem_map_of_mem (mem_slotOrder.mpr hk)
  have hblocks : ownedBlocks (T i) v = (slotOrder.map (i, ·)).filterMap (own sb T v) := by
    rw [ownedBlocks, List.filterMap_map]
    congr 1
    funext k
    simp [own, hi]
  rw [hblocks]
  have hown : ∀ j, j ≠ i → ∀ k, own sb (update T i d) v (j, k) = own sb T v (j, k) :=
    fun j hj k => by rw [own_update hi, if_neg hj]
  refine ⟨h.meta_used, h.ledger.release (slotOrder_nodup.map fun _ _ hk => (Prod.mk.inj hk).2)
    (fun x hx => ?_) (fun y hy => ?_), fun j hj htj n hn => ?_, fun j hj htj => ?_,
    fun j k c hc => ?_⟩
  · obtain ⟨k, -, rfl⟩ := List.mem_map.mp hx
    rw [own_update hi, if_pos rfl, hnew]
  · by_cases hji : y.1 = i
    · have hge : NSLOT ≤ y.2 := by
        by_contra hlt
        exact hy (hji ▸ hmem y.2 (by omega))
      have hnone : own sb T v (i, y.2) = none := by
        rw [own, if_pos hi, owns, if_neg fun hc => hc.2 (slot_ge hge)]
      rw [← Prod.eta y, hji, own_update hi, if_pos rfl, hnew, hnone]
    · exact hown y.1 hji y.2
  · by_cases hji : j = i
    · subst hji
      rw [update_self, hsize] at hn
      exact absurd hn (Nat.not_lt_zero _)
    · rw [hget j hji] at htj hn ⊢
      exact h.full j hj htj n hn
  · by_cases hji : j = i
    · subst hji
      rw [update_self, hsize]
      exact Nat.zero_le _
    · rw [hget j hji] at htj ⊢
      exact h.small j hj htj
  · by_cases hji : j = i
    · subst hji
      rw [own_update hi, if_pos rfl, hnew] at hc
      cases hc
    · rw [hown j hji] at hc
      rw [hget j hji]
      exact h.sound j k c hc

/-- A file may grow over blocks that it has. -/
theorem resize (h : Acct sb T v U ps) {n : UInt32} (hi : i < sb.ninodes)
    (hfull : ∀ m, m * BSIZE < n.toNat → slot (T i) v (dataSlot m) ≠ 0)
    (hsmall : n.toNat ≤ MAXFILE * BSIZE) :
    Acct sb (update T i { T i with size := n }) v U ps := by
  have hslot : ∀ k, slot { T i with size := n } v k = slot (T i) v k := fun k => rfl
  have hown : ∀ j k, own sb (update T i { T i with size := n }) v (j, k) =
      own sb T v (j, k) := fun j k => by
    rw [own_update hi]
    by_cases hj : j = i
    · subst hj
      rw [if_pos rfl, own, if_pos hi]
      rfl
    · rw [if_neg hj]
  have hget : ∀ j, j ≠ i → update T i { T i with size := n } j = T j :=
    fun j hj => update_of_ne hj _ _
  refine ⟨h.meta_used, h.ledger.congr (fun x => hown x.1 x.2) fun _ => Iff.rfl, fun j hj htj m hm => ?_,
    fun j hj htj => ?_, fun j k c hc => ?_⟩
  · by_cases hji : j = i
    · subst hji
      rw [update_self] at hm ⊢
      rw [hslot]
      exact hfull m hm
    · rw [hget j hji] at htj hm ⊢
      exact h.full j hj htj m hm
  · by_cases hji : j = i
    · subst hji
      rw [update_self]
      exact hsmall
    · rw [hget j hji] at htj ⊢
      exact h.small j hj htj
  · rw [hown] at hc
    by_cases hji : j = i
    · subst hji
      rw [update_self]
      exact h.sound j k c hc
    · rw [hget j hji]
      exact h.sound j k c hc

end Acct

end Change

end Xv6.Fs
