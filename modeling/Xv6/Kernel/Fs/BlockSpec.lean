import Xv6.Kernel.Fs.Invariant

/-! What allocating, freeing and mapping blocks do to the invariant. -/

namespace Xv6.Fs
open Bytes Hoare Function

/-- The error that must not happen. -/
def NoDoubleFree (e : Stop) : Prop := e ≠ .panic "freeing free block"

theorem noDoubleFree_hang : NoDoubleFree .hang := nofun

variable {sb : Superblock} {X : Option Pid} {l : List EntryId} {L : EntryId → Option Int16}
  {T : Nat → Dinode} {W : Option EntryId} {P : List Nat} {s : State} {α : Type}

theorem wp_panic {msg : String} {Q : α → State → Prop} (h : msg ≠ "freeing free block") :
    wp NoDoubleFree (panic msg : M α) Q s := fun heq => h (Stop.panic.inj heq)

variable {E : Stop → Prop} {b : Nat}

@[simp] theorem wp_bread {Q : Block → State → Prop} :
    wp E (bread b) Q s ↔ Q (s.view b) s := Iff.rfl

variable {Q : Unit → State → Prop}

@[simp] theorem wp_logWrite {blk : Block} :
    wp E (logWrite b blk) Q s ↔ Q () (s.logWrite b blk) := Iff.rfl

variable {e : EntryId}

@[simp] theorem wp_entry {Q : Inode → State → Prop} :
    wp E (entry e) Q s ↔ Q (s.icache e) s := Iff.rfl

@[simp] theorem wp_setEntry {i : Inode} :
    wp E (setEntry e i) Q s ↔ Q () (s.setEntry e i) := Iff.rfl

@[simp] theorem wp_setDin {f : Dinode → Dinode}
    :
    wp E (setDin e f) Q s ↔
      Q () (s.setEntry e { s.icache e with din := f (s.icache e).din }) := Iff.rfl

/-! ### Blocks -/

/-- The bit that `balloc` finds in the `k`th bitmap block. -/
theorem bitAt_block (v : Disk) {k bi : Nat} (hbi : bi < BPB) :
    bitAt sb v (k * BPB + bi) = testBit (v (sb.bblock (k * BPB))) bi := by
  have hpos : 0 < BPB := by decide
  have hdiv : (k * BPB + bi) / BPB = k := by
    rw [Nat.mul_comm, Nat.mul_add_div hpos, Nat.div_eq_of_lt hbi, Nat.add_zero]
  have hmod : (k * BPB + bi) % BPB = bi := by
    rw [Nat.mul_comm, Nat.mul_add_mod, Nat.mod_eq_of_lt hbi]
  rw [bitAt, Superblock.bblock, hdiv, hmod, Superblock.bblock, Nat.mul_div_cancel _ hpos]

/-- What `balloc` leaves: a new pending block, zeroed, and all other data blocks alone. -/
structure Allocated (sb : Superblock) (T : Nat → Dinode) (W : Option EntryId) (P : List Nat)
    (s : State) (b : Nat) (t : State) : Prop where
  stored : Stored sb T W (b :: P) t
  mem : SameMem s t
  zero : t.view b = Block.zero
  logged : t.unlogged b = none
  data : ∀ c, sb.nmeta ≤ c → c ≠ b → t.view c = s.view c

/-- What `balloc` has done to the free map and to the inodes. -/
structure Fresh (sb : Superblock) (s : State) (b : Nat) (t : State) : Prop where
  lt : b < sb.size
  free : bitAt sb s.view b = false
  bits : ∀ c, c < sb.size → bitAt sb t.view c = if c = b then true else bitAt sb s.view c
  dinodes : ∀ j, j < sb.ninodes → dinodeAt sb t.view j = dinodeAt sb s.view j

theorem Stored.alloc (h : Stored sb T W P s) (hb : b < sb.size) (hfree : bitAt sb s.view b = false)
    {t : State} (ht : (s.logWrite (sb.bblock b) (putBit (s.view (sb.bblock b)) (b % BPB) true)).logWrite b
      Block.zero = t) : Allocated sb T W P s b t ∧ Fresh sb s b t := by
  have hmeta : sb.nmeta ≤ b := by
    by_contra hlt
    rw [h.acct.meta_used b (by omega)] at hfree
    cases hfree
  have hmem : SameMem s t := ht ▸ (sameMem_logWrite _ _ _).trans (sameMem_logWrite _ _ _)
  have hview : t.view = update (putBitAt sb s.view b true) b Block.zero := by
    rw [← ht, view_logWrite, view_logWrite]
    rfl
  have hunlogged : ∀ c, t.unlogged c ≠ none → s.unlogged c ≠ none := fun c hc =>
    (unlogged_of_logWrite (unlogged_of_logWrite (ht ▸ hc)).1).1
  have hdinodes : ∀ j, j < sb.ninodes → dinodeAt sb t.view j = dinodeAt sb s.view j := fun j hj => by
    rw [hview, dinodeAt_update hj hmeta, dinodeAt_putBitAt hj]
  refine ⟨⟨h.blocks hmem hdinodes ?_ (fun c hc => ?_), hmem, ?_, ?_, fun c hc hcb => ?_⟩, hb, hfree,
    fun c hc => ?_, hdinodes⟩
  · rw [hview]
    exact h.acct.alloc hunlogged hb hfree
  · by_contra hne
    exact hunlogged c hne (h.clean c hc)
  · rw [hview, update_self]
  · simp [← ht]
  · rw [hview, update_of_ne hcb, putBitAt_data hb hc]
  · rw [hview, bitAt_update hc hmeta, bitAt_putBitAt]

/-- `balloc` finds a free block unless there is none. -/
theorem balloc_spec (h : Stored sb T W P s)
    (hfull : (∀ b, b < sb.size → bitAt sb s.view b = true) → E (.panic "balloc: out of blocks")) :
    wp E (balloc sb) (fun b t => Allocated sb T W P s b t ∧ Fresh sb s b t) s := by
  have hpos : 0 < BPB := by decide
  refine (wp_scan_all (Q := fun b t => Allocated sb T W P s b t ∧ Fresh sb s b t)
    (B := fun k => ∀ bi, bi < BPB → k * BPB + bi < sb.size → bitAt sb s.view (k * BPB + bi) = true)
    _ fun k _ => ?_).seq ?_
  · simp only [wp_bind, wp_bread]
    cases hfind : (List.range BPB).find? fun bi =>
        decide (k * BPB + bi < sb.size) && !testBit (s.view (sb.bblock (k * BPB))) bi with
    | none =>
      refine ⟨rfl, fun bi hbi hlt => ?_⟩
      have htest := List.find?_eq_none.mp hfind bi (List.mem_range.mpr hbi)
      rw [bitAt_block s.view hbi]
      simpa [hlt] using htest
    | some bi =>
      have hbi : bi < BPB := List.mem_range.mp (List.mem_of_find?_eq_some hfind)
      have htest := List.find?_some hfind
      simp only [Bool.and_eq_true, decide_eq_true_eq, Bool.not_eq_true'] at htest
      have hfree := (bitAt_block s.view hbi : bitAt sb s.view (k * BPB + bi) = _).trans htest.2
      have hblk : sb.bblock (k * BPB + bi) = sb.bblock (k * BPB) := by
        rw [Superblock.bblock, Superblock.bblock, Nat.mul_comm, Nat.mul_add_div hpos,
          Nat.div_eq_of_lt hbi, Nat.mul_div_cancel_left _ hpos, Nat.add_zero]
      have hmod : (k * BPB + bi) % BPB = bi := by
        rw [Nat.mul_comm, Nat.mul_add_mod, Nat.mod_eq_of_lt hbi]
      refine h.alloc htest.1 hfree ?_
      rw [hblk, hmod]
  · intro r t ht
    cases r with
    | some b => exact ht
    | none =>
      refine hfull fun b hb => ?_
      have hk : b / BPB < (sb.size + BPB - 1) / BPB :=
        (Nat.lt_div_iff_mul_lt hpos).mpr (by have := Nat.div_mul_le_self b BPB; omega)
      have := ht.2 (b / BPB) (List.mem_range.mpr hk) (b % BPB) (Nat.mod_lt _ hpos)
      rw [Nat.div_add_mod'] at this
      exact this hb

/-- Freeing a pending block. -/
theorem bfree_wp (h : Stored sb T W (b :: P) s) :
    wp NoDoubleFree (bfree sb b) (fun _ t => Stored sb T W P t ∧ SameMem s t ∧
      ∀ c, sb.nmeta ≤ c → t.view c = s.view c) s := by
  obtain ⟨hmeta, hb, hbit⟩ := h.acct.pending List.mem_cons_self
  unfold bfree
  simp only [wp_bind, wp_bread]
  rw [if_neg (by rw [show testBit (s.view (sb.bblock b)) (b % BPB) = true from hbit]; decide), wp_logWrite]
  have hview : (s.logWrite (sb.bblock b) (putBit (s.view (sb.bblock b)) (b % BPB) false)).view =
      putBitAt sb s.view b false := view_logWrite _ _ _
  refine ⟨h.blocks (sameMem_logWrite _ _ _) (fun i hi => ?_) ?_ (fun c hc => ?_),
    sameMem_logWrite _ _ _, fun c hc => ?_⟩
  · rw [hview, dinodeAt_putBitAt hi]
  · rw [hview]
    exact h.acct.free fun c hc => (unlogged_of_logWrite hc).1
  · by_contra hne
    exact (unlogged_of_logWrite hne).1 (h.clean c hc)
  · rw [hview, putBitAt_data hb hc]

/-! ### Addresses -/

section Bmap

variable {e : EntryId}

/-- The inode may have got more blocks, and has kept those it had. -/
structure Mapped (e : EntryId) (s t : State) : Prop where
  frame : Frame e s t
  size : (t.icache e).din.size = (s.icache e).din.size
  kept : ∀ k, slot (s.icache e).din s.view k ≠ 0 →
    slot (t.icache e).din t.view k = slot (s.icache e).din s.view k

theorem Mapped.refl (e : EntryId) (s : State) : Mapped e s s := ⟨Frame.refl e s, rfl, fun _ _ => rfl⟩

variable {t : State}

theorem Mapped.trans {u : State} (h : Mapped e s t) (h' : Mapped e t u) : Mapped e s u :=
  ⟨h.frame.trans h'.frame, h'.size.trans h.size, fun k hk => by
    rw [h'.kept k (by rwa [h.kept k hk]), h.kept k hk]⟩

/-- Allocation changes no slot. -/
theorem Allocated.slot_eq {b : Nat} (h : Editing sb X l L e T P s)
    (ha : Allocated sb T (some e) P s b t) (k : Nat) :
    slot (s.icache e).din t.view k = slot (s.icache e).din s.view k := by
  refine slot_congr rfl (fun hne => ?_) k
  have hown := h.owns_iff.mpr ⟨slot_direct _ _ le_rfl, fun h0 => hne (UInt32.toNat_inj.mp h0)⟩
  refine ha.data _ (h.inv.stored.acct.owned hown).1 ?_
  rintro rfl
  refine ha.stored.acct.ledger.unowned List.mem_cons_self ((s.icache e).inum, NDIRECT) ?_
  rw [own_eq_some] at hown ⊢
  exact ⟨hown.1, hown.2.1, by rw [slot_direct _ _ le_rfl, h.mine], hown.2.2.2⟩

variable {bn : Nat}

theorem dataSlot_indirect (hbn : ¬ bn < NDIRECT) :
    dataSlot bn = NDIRECT + 1 + (bn - NDIRECT) := by
  rw [dataSlot, if_neg hbn]
  omega

/-- A block that the file has is found without a change. -/
theorem bmap_read {E : Stop → Prop} {Q : Nat → State → Prop}
    (hne : slot (s.icache e).din s.view (dataSlot bn) ≠ 0)
    (hQ : Q (slot (s.icache e).din s.view (dataSlot bn)) s) : wp E (bmap sb e bn) Q s := by
  have haddr : ∀ {k : Nat} {Q : Nat → State → Prop}, (s.icache e).din.addr k ≠ 0 →
      Q ((s.icache e).din.addr k).toNat s → wp E (addrAlloc sb e k) Q s := by
    intro k Q hk hQ
    unfold addrAlloc
    rw [wp_bind, wp_entry, if_neg hk]
    exact hQ
  unfold bmap
  by_cases hbn : bn < NDIRECT
  · rw [if_pos hbn]
    rw [dataSlot, if_pos hbn, slot_direct _ _ hbn.le] at hne hQ
    exact haddr (fun h0 => hne (by rw [h0]; rfl)) hQ
  · rw [dataSlot_indirect hbn] at hne hQ
    have hj : bn - NDIRECT < NINDIRECT := by
      by_contra hge
      exact hne (slot_ge (by unfold NSLOT; omega))
    have h0 : (s.icache e).din.addr NDIRECT ≠ 0 := fun h0 => hne (by
      rw [slot, if_neg (by omega), if_neg fun hc => hc.2 h0])
    rw [slot_indirect hj h0] at hne hQ
    rw [if_neg hbn, if_pos hj]
    refine wp_bind.mpr (haddr h0 ?_)
    rw [wp_bind, wp_bread, if_neg hne]
    exact hQ

end Bmap

end Xv6.Fs
