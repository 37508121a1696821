import Mathlib.Data.Finset.Card
import Xv6.Kernel.Fs.BlockSpec

/-! Room for a file to grow.

    With as many free blocks as a file lacks, `bmap` returns. It changes no block that is in use
    elsewhere, and no data block that the file has. -/

namespace Xv6.Fs
open Bytes Hoare

variable {sb : Superblock} {X : Option Pid} {l : List EntryId} {L : EntryId → Option Int16}
  {T : Nat → Dinode} {W : Option EntryId} {P : List Nat} {s t u : State} {e : EntryId}
  {E : Stop → Prop}

/-- The call returns. -/
def Never : Stop → Prop := fun _ => False

/-! ### Free blocks -/

/-- The number of blocks that the free map shows as free. -/
def avail (sb : Superblock) (v : Disk) : Nat :=
  ((Finset.range sb.size).filter fun b => bitAt sb v b = false).card

theorem avail_congr {v v' : Disk} (hbit : ∀ c, c < sb.size → bitAt sb v' c = bitAt sb v c) :
    avail sb v' = avail sb v := by
  unfold avail
  congr 1
  refine Finset.filter_congr fun c hc => ?_
  rw [hbit c (Finset.mem_range.mp hc)]

variable {b : Nat}

/-- One block less is free. -/
theorem Fresh.avail (h : Fresh sb s b t) : avail sb t.view + 1 = avail sb s.view := by
  have hmem : b ∈ (Finset.range sb.size).filter fun b => bitAt sb s.view b = false := by
    simp [h.lt, h.free]
  have heq : ((Finset.range sb.size).filter fun c => bitAt sb t.view c = false) =
      ((Finset.range sb.size).filter fun c => bitAt sb s.view c = false).erase b := by
    ext c
    simp only [Finset.mem_filter, Finset.mem_range, Finset.mem_erase]
    by_cases hc : c < sb.size
    · rw [h.bits c hc]
      by_cases hcb : c = b <;> simp [hcb]
    · simp [hc]
  rw [Fs.avail, heq, Fs.avail]
  exact Finset.card_erase_add_one hmem

theorem balloc_ok (h : Stored sb T W P s)
    (hav : ¬ E (.panic "balloc: out of blocks") → 0 < avail sb s.view) :
    wp E (balloc sb) (fun b t => Allocated sb T W P s b t ∧ Fresh sb s b t) s := by
  refine balloc_spec h fun hfull => ?_
  by_contra hE
  have hav := hav hE
  obtain ⟨b, hb⟩ := Finset.card_pos.mp hav
  obtain ⟨hlt, hfree⟩ := Finset.mem_filter.mp hb
  rw [hfull b (Finset.mem_range.mp hlt)] at hfree
  cases hfree

/-! ### Blocks that a file lacks -/

/-- The slots of `K` that are empty. -/
def lacking (d : Dinode) (v : Disk) (K : Finset Nat) : Finset Nat := K.filter fun k => slot d v k = 0

/-- There are enough free blocks to fill the slots of `K`. -/
def Room (sb : Superblock) (e : EntryId) (K : Finset Nat) (s : State) : Prop :=
  (lacking (s.icache e).din s.view K).card ≤ avail sb s.view

variable {K : Finset Nat} {k : Nat}

theorem Room.pos (h : Room sb e K s) (hk : k ∈ K)
    (hempty : slot (s.icache e).din s.view k = 0) : 0 < avail sb s.view :=
  (Finset.card_pos.mpr ⟨k, Finset.mem_filter.mpr ⟨hk, hempty⟩⟩).trans_le h

/-- The slots and the free map are the same. -/
theorem Room.congr (h : Room sb e K s)
    (hslot : ∀ k, slot (t.icache e).din t.view k = slot (s.icache e).din s.view k)
    (hbit : ∀ c, c < sb.size → bitAt sb t.view c = bitAt sb s.view c) : Room sb e K t := by
  unfold Room lacking
  simp only [hslot]
  rw [avail_congr hbit]
  exact h

/-- A free block `b` was put into the empty slot `k` of the file. -/
structure Grow (sb : Superblock) (e : EntryId) (s t : State) (k b : Nat) : Prop where
  fresh : Fresh sb s b t
  empty : slot (s.icache e).din s.view k = 0
  slots : ∀ j, slot (t.icache e).din t.view j = if j = k then b else slot (s.icache e).din s.view j
  data : ∀ c, sb.nmeta ≤ c → c ≠ b → c ≠ slot (s.icache e).din s.view NDIRECT → t.view c = s.view c

theorem Grow.room (h : Grow sb e s t k b) (hk : k ∈ K) (hb : b ≠ 0)
    (hroom : Room sb e K s) : Room sb e K t := by
  have heq : lacking (t.icache e).din t.view K = (lacking (s.icache e).din s.view K).erase k := by
    ext j
    simp only [lacking, Finset.mem_filter, Finset.mem_erase, h.slots]
    by_cases hj : j = k <;> simp [hj, hb]
  have hmem : k ∈ lacking (s.icache e).din s.view K := Finset.mem_filter.mpr ⟨hk, h.empty⟩
  have hcard := Finset.card_erase_add_one hmem
  have hav := h.fresh.avail
  unfold Room at hroom ⊢
  rw [heq]
  omega

/-- There is room, unless running out of blocks is admitted. -/
def Suffices (E : Stop → Prop) (sb : Superblock) (e : EntryId) (K : Finset Nat) (s : State) : Prop :=
  ¬ E (.panic "balloc: out of blocks") → Room sb e K s

/-! ### What growing leaves alone -/

/-- A block that is in use, and not by the file. -/
def Foreign (sb : Superblock) (e : EntryId) (s : State) (c : Nat) : Prop :=
  Used sb s.view c ∧ ∀ k, slot (s.icache e).din s.view k ≠ c

/-- The file may have got more blocks: the blocks of others and the data blocks that it had are as
    before, and so are the inodes on disk. -/
structure Extends (sb : Superblock) (e : EntryId) (s t : State) : Prop where
  dinodes : ∀ j, j < sb.ninodes → dinodeAt sb t.view j = dinodeAt sb s.view j
  foreign : ∀ c, Foreign sb e s c → Foreign sb e t c ∧ t.view c = s.view c
  kept : ∀ k, slot (s.icache e).din s.view k ≠ 0 →
    slot (t.icache e).din t.view k = slot (s.icache e).din s.view k
  data : ∀ k, k ≠ NDIRECT → slot (s.icache e).din s.view k ≠ 0 →
    t.view (slot (s.icache e).din s.view k) = s.view (slot (s.icache e).din s.view k)

theorem Extends.refl (sb : Superblock) (e : EntryId) (s : State) : Extends sb e s s :=
  ⟨fun _ _ => rfl, fun _ h => ⟨h, rfl⟩, fun _ _ => rfl, fun _ _ _ => rfl⟩

theorem Extends.trans (h : Extends sb e s t) (h' : Extends sb e t u) : Extends sb e s u where
  dinodes j hj := (h'.dinodes j hj).trans (h.dinodes j hj)
  foreign c hc := by
    obtain ⟨hct, hv⟩ := h.foreign c hc
    obtain ⟨hcu, hv'⟩ := h'.foreign c hct
    exact ⟨hcu, hv'.trans hv⟩
  kept k hk := by rw [h'.kept k (by rwa [h.kept k hk]), h.kept k hk]
  data k hk hne := by
    have := h'.data k hk (by rwa [h.kept k hne])
    rw [h.kept k hne] at this
    rw [this, h.data k hk hne]

theorem Grow.extends (h : Grow sb e s t k b) (hed : Editing sb X l L e T P s) :
    Extends sb e s t where
  dinodes := h.fresh.dinodes
  foreign c hc := by
    obtain ⟨⟨hmeta, hlt, hbit⟩, hslot⟩ := hc
    have hcb : c ≠ b := by
      rintro rfl
      rw [h.fresh.free] at hbit
      cases hbit
    refine ⟨⟨⟨hmeta, hlt, ?_⟩, fun j => ?_⟩, h.data c hmeta hcb (hslot _).symm⟩
    · rw [h.fresh.bits c hlt, if_neg hcb, hbit]
    · rw [h.slots]
      split
      · exact hcb.symm
      · exact hslot j
  kept j hj := by
    rw [h.slots, if_neg]
    rintro rfl
    exact hj h.empty
  data j hj hne := by
    have hown := hed.owns_iff.mpr ⟨rfl, hne⟩
    obtain ⟨hmeta, -, hbit⟩ := hed.inv.stored.acct.owned hown
    refine h.data _ hmeta (fun heq => ?_) fun heq => ?_
    · rw [heq, h.fresh.free] at hbit
      cases hbit
    · have hown' := hed.owns_iff.mpr ⟨heq.symm, hne⟩
      exact hj (Prod.mk.inj (hed.inv.stored.acct.ledger.once hown hown')).2

/-! ### Addresses -/

theorem Fresh.logWrite {a : Nat} {blk : Block} (h : Fresh sb s b t) (ha : sb.nmeta ≤ a) :
    Fresh sb s b (t.logWrite a blk) where
  lt := h.lt
  free := h.free
  bits c hc := by rw [view_logWrite, bitAt_update hc ha, h.bits c hc]
  dinodes j hj := by rw [view_logWrite, dinodeAt_update hj ha, h.dinodes j hj]

theorem Fresh.lt_int (h : Fresh sb s b t) : b < 2 ^ 32 := by
  have h₁ := h.lt
  have h₂ := sb.int
  omega

theorem Allocated.ne_zero (h : Allocated sb T W P s b t) : b ≠ 0 := by
  have h₁ := (h.stored.acct.pending List.mem_cons_self).1
  have h₂ := sb.bmapstart_lt
  omega

theorem addrAlloc_ok (h : Editing sb X l L e T [] s) (hk : k ≤ NDIRECT)
    (hmem : k ∈ K) (hroom : Suffices E sb e K s) :
    wp E (addrAlloc sb e k) (fun r t => (Extends sb e s t ∧ Suffices E sb e K t) ∧ ∃ T',
      Editing sb X l L e T' [] t ∧ Mapped e s t ∧ slot (t.icache e).din t.view k = r ∧ r ≠ 0) s := by
  unfold addrAlloc
  simp only [wp_bind, wp_entry]
  refine wp_ite (fun hempty => ?_) fun hne => ⟨⟨Extends.refl sb e s, hroom⟩, T, h, Mapped.refl e s,
    slot_direct _ _ hk, fun h0 => hne (UInt32.toNat_inj.mp h0)⟩
  have hslot : slot (s.icache e).din s.view k = 0 := by rw [slot_direct _ _ hk, hempty]; rfl
  refine (balloc_ok h.inv.stored fun hE => (hroom hE).pos hmem hslot).seq fun b t hbt => ?_
  obtain ⟨ha, hf⟩ := hbt
  have h' := h.blocks ha.mem ha.stored
  rw [← ha.mem.icache] at hempty
  rw [wp_bind, wp_setDin, wp_pure]
  have hgrow : Grow sb e s (t.setDin e ((t.icache e).din.setAddr k (UInt32.ofNat b))) k b := by
    refine ⟨⟨hf.lt, hf.free, hf.bits, hf.dinodes⟩, hslot, fun j => ?_, fun c hc hcb _ => ha.data c hc hcb⟩
    rw [din_setDin]
    change slot _ t.view j = _
    rw [slot_setAddr_new hk hempty hf.lt_int ha.zero, ha.mem.icache, ha.slot_eq h]
  have hext := hgrow.extends h
  refine ⟨⟨hext, fun hE => hgrow.room hmem ha.ne_zero (hroom hE)⟩, _,
    h'.setDin (d := (t.icache e).din.setAddr k (UInt32.ofNat b)) rfl ?_,
    ⟨(ha.mem.frame e).trans (frame_setDin e _ t), ?_, hext.kept⟩, (hgrow.slots k).trans (if_pos rfl), ha.ne_zero⟩
  · have := h'.inv.stored.acct.attach_addr h'.inum_lt h'.typed hk (by rw [h'.mine]; exact hempty)
      ha.zero (by rw [ha.logged]; exact fun hc => hc rfl)
    rwa [h'.mine] at this
  · rw [← ha.mem.icache]
    change ((t.setDin e ((t.icache e).din.setAddr k (UInt32.ofNat b))).icache e).din.size = _
    rw [din_setDin]
    rfl

/-- The slots that `bmap` may fill for a file's `bn`th block. -/
def slotsFor (bn : Nat) : Finset Nat := if bn < NDIRECT then {bn} else {NDIRECT, bn + 1}

variable {bn : Nat}

/-- `bmap` makes sure that the file has its `bn`th block, if there is room for it. -/
theorem bmap_ok (h : Editing sb X l L e T [] s) (hbn : bn < MAXFILE)
    (hK : slotsFor bn ⊆ K) (hroom : Suffices E sb e K s) :
    wp E (bmap sb e bn) (fun r t => (Extends sb e s t ∧ Suffices E sb e K t) ∧ ∃ T',
      Editing sb X l L e T' [] t ∧ Mapped e s t ∧ slot (t.icache e).din t.view (dataSlot bn) = r ∧
      r ≠ 0) s := by
  unfold bmap
  refine wp_ite (fun hlt => ?_) fun hlt => ?_
  · rw [dataSlot, if_pos hlt]
    exact addrAlloc_ok h hlt.le (hK (by simp [slotsFor, hlt])) hroom
  have hind : NDIRECT ∈ K := hK (by simp [slotsFor, hlt])
  have hent : NDIRECT + 1 + (bn - NDIRECT) ∈ K := hK (by
    rw [show NDIRECT + 1 + (bn - NDIRECT) = bn + 1 by omega]
    simp [slotsFor, hlt])
  have hj : bn - NDIRECT < NINDIRECT := by unfold MAXFILE at hbn; omega
  rw [if_pos hj, dataSlot_indirect hlt]
  generalize bn - NDIRECT = j at hj hent
  refine (addrAlloc_ok h le_rfl hind hroom).seq fun a t hat => ?_
  obtain ⟨⟨hext, hroom₁⟩, T₁, h₁, hmap, hslotn, hne⟩ := hat
  have ha := hslotn
  rw [slot_direct _ _ le_rfl] at ha
  have haddr : (t.icache e).din.addr NDIRECT ≠ 0 := fun h0 => hne (by rw [← ha, h0]; rfl)
  rw [wp_bind, wp_bread]
  refine wp_ite (fun hempty => ?_) fun hfull =>
    ⟨⟨hext, hroom₁⟩, T₁, h₁, hmap, by rw [slot_indirect hj haddr, ha], hfull⟩
  -- a new entry of the indirect block
  have hslot : slot (t.icache e).din t.view (NDIRECT + 1 + j) = 0 := by
    rw [slot_indirect hj haddr, ha, hempty]
  refine (balloc_ok h₁.inv.stored fun hE => (hroom₁ hE).pos hent hslot).seq fun b u hbu => ?_
  obtain ⟨hu, hf⟩ := hbu
  have h₂ := h₁.blocks hu.mem hu.stored
  have hused := h₁.inv.stored.acct.owned (h₁.owns_iff.mpr ⟨hslotn, hne⟩)
  have hab : a ≠ b := by
    rintro rfl
    have := hused.2.2
    rw [hf.free] at this
    cases this
  have hblk : u.view a = t.view a := hu.data a hused.1 hab
  have hgrow : Grow sb e t (u.logWrite a (putLE (t.view a) (4 * j) 4 b)) (NDIRECT + 1 + j) b := by
    refine ⟨hf.logWrite hused.1, hslot, fun k => ?_, fun c hc hcb hca => ?_⟩
    · rw [State.logWrite_icache, view_logWrite, hu.mem.icache, ← hblk,
        slot_putEntry hj haddr ha hf.lt_int, hu.slot_eq h₁]
    · rw [hslotn] at hca
      rw [view_logWrite, Function.update_of_ne hca, hu.data c hc hcb]
  have hext₁ := hgrow.extends h₁
  have hmem := sameMem_logWrite u a (putLE (t.view a) (4 * j) 4 b)
  rw [wp_bind, wp_logWrite, wp_pure]
  refine ⟨⟨hext.trans hext₁, fun hE => hgrow.room hent hu.ne_zero (hroom₁ hE)⟩, T₁,
    h₂.blocks hmem (h₂.inv.stored.blocks hmem (fun i hi => ?_) ?_ fun c hc => ?_),
    hmap.trans ⟨(hu.mem.trans hmem).frame e, ?_, hext₁.kept⟩, (hgrow.slots _).trans (if_pos rfl), hu.ne_zero⟩
  · rw [view_logWrite, dinodeAt_update hi hused.1]
  · rw [view_logWrite, ← hblk]
    rw [← hblk] at hempty
    rw [← hu.mem.icache] at ha haddr
    exact h₂.inv.stored.acct.attach_entry h₂.inum_lt h₂.typed hj (by rw [h₂.mine]; exact haddr)
      (by rw [h₂.mine]; exact ha) hempty hu.zero (by rw [hu.logged]; exact fun hc => hc rfl)
      fun c hc => (unlogged_of_logWrite hc).1
  · by_contra hc'
    exact (unlogged_of_logWrite hc').1 (h₂.inv.stored.clean c hc)
  · rw [State.logWrite_icache, hu.mem.icache]

/-- Where running out of blocks is admitted, so is a block number that is too large. -/
theorem bmap_wp (h : Editing sb X l L e T [] s) :
    wp NoDoubleFree (bmap sb e bn) (fun r t => ∃ T', Editing sb X l L e T' [] t ∧ Mapped e s t ∧
      slot (t.icache e).din t.view (dataSlot bn) = r ∧ r ≠ 0) s := by
  by_cases hbn : bn < MAXFILE
  · exact (bmap_ok h hbn subset_rfl fun hE => absurd (by simp [NoDoubleFree]) hE).mono fun _ _ hr => hr.2
  · unfold MAXFILE at hbn
    rw [bmap, if_neg (by omega), if_neg (by omega)]
    exact wp_panic (by decide)

end Xv6.Fs
