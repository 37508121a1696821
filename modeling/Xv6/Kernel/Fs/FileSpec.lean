import Xv6.Kernel.Fs.InodeSpec
import Xv6.Kernel.Fs.Room

/-! What reading and writing file contents do to the invariant. -/

namespace Xv6.Fs
open Bytes Hoare Function

variable {sb : Superblock} {X : Option Pid} {l : List EntryId} {L : EntryId → Option Int16}
  {T : Nat → Dinode} {P : List Nat} {s t : State} {e : EntryId} {E : Stop → Prop} {n : Nat}

/-! ### Reading -/

/-- The byte of a file at a position. -/
def fileByte (d : Dinode) (v : Disk) (pos : Nat) : UInt8 :=
  byte (v (slot d v (dataSlot (pos / BSIZE)))) (pos % BSIZE)

/-- Bytes of a file. -/
def FileBytes (d : Dinode) (v : Disk) (off : Nat) (bs : List UInt8) : Prop :=
  off + bs.length ≤ d.size.toNat ∧ ∀ j, j < bs.length → bs.getD j 0 = fileByte d v (off + j)

variable {off : Nat}

theorem fileByte_block {d : Dinode} {v : Disk} {j : Nat} (hj : off % BSIZE + j < BSIZE) :
    fileByte d v (off + j) = byte (v (slot d v (dataSlot (off / BSIZE)))) (off % BSIZE + j) := by
  have hdiv : (off + j) / BSIZE = off / BSIZE := by unfold BSIZE at *; omega
  have hmod : (off + j) % BSIZE = off % BSIZE + j := by unfold BSIZE at *; omega
  rw [fileByte, hdiv, hmod]

/-- A file has its blocks. -/
theorem Editing.slot_ne_zero (h : Editing sb X l L e T P s) (hn : n * BSIZE < (s.icache e).din.size.toNat) :
    slot (s.icache e).din s.view (dataSlot n) ≠ 0 := by
  have hfull := h.inv.stored.acct.full _ h.inum_lt h.typed n
  rw [h.mine] at hfull
  exact hfull hn

/-- Reading inside a file finds its blocks and changes nothing. -/
theorem readLoop_ok (h : Editing sb X l L e T [] s) (fuel off left : Nat)
    (hsize : off + left ≤ (s.icache e).din.size.toNat) (hfuel : left ≤ fuel) :
    wp E (readLoop sb e fuel off left) (fun bs t => t = s ∧
      bs = (List.range left).map fun j => fileByte (s.icache e).din s.view (off + j)) s := by
  induction fuel generalizing off left with
  | zero =>
    obtain rfl : left = 0 := by omega
    exact ⟨rfl, rfl⟩
  | succ fuel ih =>
    refine wp_ite (fun hleft => ⟨rfl, by rw [hleft]; rfl⟩) fun hleft => ?_
    have hpos : off / BSIZE * BSIZE ≤ off ∧ off % BSIZE < BSIZE := by unfold BSIZE; omega
    rw [wp_bind]
    refine bmap_read (h.slot_ne_zero (by omega)) ?_
    rw [wp_bind, wp_bread]
    refine (ih (off + min left (BSIZE - off % BSIZE)) (left - min left (BSIZE - off % BSIZE))
      (by omega) (by omega)).seq ?_
    rintro rest t ⟨rfl, rfl⟩
    generalize hm : min left (BSIZE - off % BSIZE) = m
    obtain ⟨k, rfl⟩ : ∃ k, left = m + k := ⟨left - m, by omega⟩
    refine ⟨rfl, ?_⟩
    rw [Nat.add_sub_cancel_left, List.range_add, List.map_append, List.map_map]
    refine congrArg₂ (· ++ ·) (List.map_congr_left fun j hj => ?_) (List.map_congr_left fun j _ => ?_)
    · rw [fileByte_block (by have := List.mem_range.mp hj; omega)]
    · rw [Function.comp_apply, Nat.add_assoc]

theorem readi_wp (h : Inv sb X l L T none [] s) (hL : (L e).isSome = true) (off n : Nat) :
    wp NoDoubleFree (readi sb e off n) (fun r t => t = s ∧
      ∀ bs, r = some bs → FileBytes (s.icache e).din s.view off bs) s := by
  unfold readi
  rw [wp_bind, wp_entry]
  refine wp_ite (fun _ => ⟨rfl, nofun⟩) fun hoff => ?_
  refine (readLoop_ok (h.edit hL) _ off _ ?_ le_rfl).seq ?_
  · split <;> omega
  · rintro bs t ⟨rfl, rfl⟩
    refine ⟨rfl, fun _ heq => Option.some.inj heq ▸ ⟨?_, fun j hj => ?_⟩⟩
    · rw [List.length_map, List.length_range]
      split <;> omega
    · rw [List.length_map, List.length_range] at hj
      simp [hj]

/-! ### Writing -/

/-- Changing the contents of a block in a data slot of an inode. -/
theorem Stored.data {W : Option EntryId} (h : Stored sb T W P s) {i k b : Nat}
    (hown : own sb T s.view (i, k) = some b)
    (hk : k ≠ NDIRECT) (hm : SameMem s t) (hview : ∀ c, c ≠ b → t.view c = s.view c)
    (hunlogged : ∀ c, c ≠ b → t.unlogged c ≠ none → s.unlogged c ≠ none)
    (hdir : (T i).type = T_DIR → t.unlogged b = none ∧ DirBlock sb (t.view b)) :
    Stored sb T W P t := by
  have hdata := (h.acct.owned hown).1
  have hcongr : t.view = update s.view b (t.view b) := by
    funext c
    by_cases hc : c = b
    · rw [hc, update_self]
    · rw [update_of_ne hc, hview c hc]
  refine h.blocks hm (fun j hj => ?_) (h.acct.congr (fun _ _ => ⟨rfl, rfl⟩) (fun _ _ => rfl)
    (fun c hc => ?_) (fun j a ha => hview a ?_) fun j n a ha hsound => ?_) fun c hc => ?_
  · rw [hcongr, dinodeAt_update hj hdata]
  · rw [hcongr, bitAt_update hc hdata]
  · rintro rfl
    exact hk (Prod.mk.inj (h.acct.ledger.once hown ha)).2
  · by_cases hab : a = b
    · subst hab
      obtain ⟨rfl, rfl⟩ := Prod.mk.inj (h.acct.ledger.once hown ha)
      intro hty
      obtain ⟨h₁, h₂⟩ := hdir (hty.resolve_left hk)
      exact ⟨fun hne => hne h₁, fun _ => h₂⟩
    · exact hsound.mono (hunlogged a hab) (hview a hab)
  · by_contra hne
    exact hunlogged c (by omega) hne (h.clean c hc)

theorem view_scribble (s : State) (b : Nat) (blk : Block) {c : Nat} (hc : c ≠ b) :
    (s.scribble b blk).view c = s.view c ∧ (s.scribble b blk).unlogged c = s.unlogged c := by
  unfold State.scribble
  split <;> simp [State.view, hc]

section Data

variable {n b : Nat} (h : Editing sb X l L e T P s)
  (hb : slot (s.icache e).din s.view (dataSlot n) = b) (hne : b ≠ 0)
include h hb hne

/-- Changing a data block of a file moves no block. -/
theorem Editing.slot_data (hmem : SameMem s t) (hview : ∀ c, c ≠ b → t.view c = s.view c) (k : Nat) :
    slot (t.icache e).din t.view k = slot (s.icache e).din s.view k := by
  have hown := h.owns_iff.mpr ⟨hb, hne⟩
  rw [hmem.icache]
  refine slot_congr rfl (fun hne' => hview _ ?_) k
  rintro rfl
  have hown' := h.owns_iff.mpr ⟨slot_direct _ _ (le_refl NDIRECT), hne⟩
  exact dataSlot_ne _ (Prod.mk.inj (h.inv.stored.acct.ledger.once hown hown')).2

theorem Editing.logData {blk : Block} (hdir : (s.icache e).din.type = T_DIR → DirBlock sb blk) :
    Editing sb X l L e T P (s.logWrite b blk) := by
  refine h.blocks (sameMem_logWrite s b blk) (h.inv.stored.data (h.owns_iff.mpr ⟨hb, hne⟩)
    (dataSlot_ne _) (sameMem_logWrite _ _ _) (fun c hc => ?_)
    (fun c _ hc => (unlogged_of_logWrite hc).1) fun htd => ?_)
  · rw [view_logWrite, update_of_ne hc]
  · rw [h.mine] at htd
    rw [view_logWrite, update_self]
    exact ⟨by simp, hdir htd⟩

end Data

/-- What a write may do to a directory: one round writes an entry. -/
def DirSafe (sb : Superblock) (src : Nat → Option UInt8) (n off tot : Nat) : Prop :=
  n ≤ tot ∨ (n - tot ≤ BSIZE - off % BSIZE ∧ ∀ blk, DirBlock sb blk →
    (copyBytes blk (off % BSIZE) src tot (n - tot)).2 = true ∧
    DirBlock sb (copyBytes blk (off % BSIZE) src tot (n - tot)).1)

/-- The blocks up to `off` are there. -/
def Covered (e : EntryId) (off : Nat) (s : State) : Prop :=
  ∀ m, m * BSIZE < off → slot (s.icache e).din s.view (dataSlot m) ≠ 0

theorem Covered.round {m : Nat} (h : Covered e off s) (hmap : Mapped e s t)
    (hb : slot (t.icache e).din t.view (dataSlot (off / BSIZE)) ≠ 0) (hm : m ≤ BSIZE - off % BSIZE) :
    Covered e (off + m) t := by
  intro k hk
  by_cases hlast : k = off / BSIZE
  · rw [hlast]
    exact hb
  · have := h k (by unfold BSIZE at *; omega)
    rw [hmap.kept _ this]
    exact this

variable {src : Nat → Option UInt8}

/-- What one round writes to a directory is an entry. -/
theorem Editing.dirRound {tot b m : Nat} (h : Editing sb X l L e T P s)
    (hown : own sb T s.view ((s.icache e).inum, dataSlot (off / BSIZE)) = some b) (htot : tot < n)
    (hm : min (n - tot) (BSIZE - off % BSIZE) = m) (htd : (s.icache e).din.type = T_DIR)
    (hdir : DirSafe sb src n off tot) :
    m = n - tot ∧ (copyBytes (s.view b) (off % BSIZE) src tot m).2 = true ∧
      DirBlock sb (copyBytes (s.view b) (off % BSIZE) src tot m).1 := by
  obtain hge | ⟨hfit, hcopy⟩ := hdir
  · omega
  · obtain rfl : m = n - tot := by omega
    have hsound := h.inv.stored.acct.sound _ _ _ hown (.inr (by rw [h.mine]; exact htd))
    exact ⟨rfl, hcopy _ (hsound.2 (dataSlot_ne _))⟩

theorem writeLoop_wp (fuel off tot : Nat)
    (h : Editing sb X l L e T [] s) (hcov : Covered e off s)
    (hdir : (s.icache e).din.type = T_DIR → DirSafe sb src n off tot) :
    wp NoDoubleFree (writeLoop sb e src n fuel off tot) (fun off' t => ∃ T',
      Editing sb X l L e T' [] t ∧ Frame e s t ∧ (t.icache e).din.size = (s.icache e).din.size ∧
      Covered e off' t ∧ off' ≤ off + (n - tot)) s := by
  induction fuel generalizing off tot s T with
  | zero => exact ⟨T, h, Frame.refl e s, rfl, hcov, by omega⟩
  | succ fuel ih =>
    refine wp_ite (fun htot => ?_) fun _ => ⟨T, h, Frame.refl e s, rfl, hcov, by omega⟩
    refine (bmap_wp h).seq fun b t ⟨T₁, h₁, hmap, hb, hne⟩ => ?_
    have hty : (t.icache e).din.type = (s.icache e).din.type :=
      Option.some.inj (h₁.held.2.2.trans h.held.2.2.symm)
    have hown := h₁.owns_iff.mpr ⟨hb, hne⟩
    have hcov₁ := hcov.round (m := min (n - tot) (BSIZE - off % BSIZE)) hmap (hb ▸ hne) (Nat.min_le_right _ _)
    have hcov₂ : Covered e off t := fun m hm => hcov₁ m (by omega)
    rw [wp_bind, wp_bread]
    generalize hm : min (n - tot) (BSIZE - off % BSIZE) = m at hcov₁
    have hsafe := fun htd => h₁.dirRound hown htot hm htd (hdir (hty ▸ htd))
    refine wp_ite (fun _ => ?_) fun hfail => ?_
    · rw [wp_bind, wp_logWrite]
      have hview : ∀ c, c ≠ b →
          (t.logWrite b (copyBytes (t.view b) (off % BSIZE) src tot m).1).view c = t.view c :=
        fun c hc => by rw [view_logWrite, update_of_ne hc]
      have h₂ := h₁.logData hb hne fun htd => (hsafe htd).2.2
      have hslot := h₁.slot_data hb hne (sameMem_logWrite _ _ _) hview
      refine (ih (off + m) (tot + m) h₂ (fun j hj => ?_) fun htd => ?_).mono ?_
      · rw [hslot]
        exact hcov₁ j hj
      · obtain ⟨hmn, -⟩ := hsafe htd
        exact .inl (by omega)
      · rintro off' u ⟨T', hu, hframe, hsize, hcov', hle⟩
        exact ⟨T', hu, (hmap.frame.trans ((sameMem_logWrite _ _ _).frame e)).trans hframe,
          hsize.trans hmap.size, hcov', by omega⟩
    · -- the copy failed: the file is not a directory
      rw [wp_bind]
      have hview := fun c (hc : c ≠ b) =>
        (view_scribble t b (copyBytes (t.view b) (off % BSIZE) src tot m).1 hc).1
      have hslot := h₁.slot_data hb hne (sameMem_scribble _ _ _) hview
      have hmem := sameMem_scribble t b (copyBytes (t.view b) (off % BSIZE) src tot m).1
      refine ⟨T₁, h₁.blocks hmem (h₁.inv.stored.data hown (dataSlot_ne _) hmem hview
        (fun c hc hu => ?_) fun htd => ?_), hmap.frame.trans (hmem.frame e), ?_, fun j hj => ?_, by omega⟩
      · rwa [(view_scribble t b _ hc).2] at hu
      · rw [h₁.mine] at htd
        exact absurd (hsafe htd).2.1 hfail
      · rw [← hmap.size]
        exact congrArg (fun c : EntryId → Inode => (c e).din.size) hmem.icache
      · change slot ((t.scribble b _).icache e).din (t.scribble b _).view (dataSlot j) ≠ 0
        rw [hslot]
        exact hcov₂ j hj

/-- Files do not get larger than their slots. -/
theorem Covered.le (h : Covered e off s) : off ≤ MAXFILE * BSIZE := by
  by_contra hlt
  refine h MAXFILE (by omega) (slot_ge ?_)
  decide

theorem writeiSize_wp (h : Editing sb X l L e T [] s) (hcov : Covered e off s)
    (hn : 0 < n) :
    wp NoDoubleFree (writeiSize sb e off n) (fun _ t => ∃ T', Inv sb X l L T' none [] t ∧
      Frame e s t) s := by
  unfold writeiSize
  rw [if_pos hn, wp_bind, wp_setDin, wp_iupdate]
  have hframe := fun d => (frame_setDin e d s).trans ((sameMem_iupdate (s.setDin e d) sb e).frame e)
  by_cases hgrow : off > (s.icache e).din.size.toNat
  · have hsize : (UInt32.ofNat off).toNat = off := by
      have h₁ := hcov.le
      exact UInt32.toNat_ofNat_of_lt' (h₁.trans_lt (by decide))
    have hacct := h.inv.stored.acct.resize h.inum_lt
      (fun m hm => by rw [h.mine]; exact hcov m (hsize ▸ hm)) (by rw [hsize]; exact hcov.le)
    rw [h.mine] at hacct
    simp only [if_pos hgrow]
    exact ⟨_, (h.setDin (d := { (s.icache e).din with size := UInt32.ofNat off }) rfl hacct).iupdate,
      hframe _⟩
  · simp only [if_neg hgrow]
    refine ⟨_, (h.setDin rfl ?_).iupdate, hframe _⟩
    rw [← h.mine, update_eq_self]
    exact h.inv.stored.acct

theorem writei_wp (h : Inv sb X l L T none [] s)
    (hL : (L e).isSome = true)
    (hdir : (s.icache e).din.type = T_DIR → DirSafe sb src n off 0) :
    wp NoDoubleFree (writei sb e src off n) (fun _ t => ∃ T', Inv sb X l L T' none [] t ∧
      Frame e s t) s := by
  unfold writei
  rw [wp_bind, wp_entry]
  refine wp_ite (fun _ => ⟨T, h, Frame.refl e s⟩) fun hoff => wp_ite (fun _ => ⟨T, h, Frame.refl e s⟩)
    fun _ => ?_
  have hed := h.edit hL
  have hcov : Covered e off s := fun m hm => hed.slot_ne_zero (by omega)
  by_cases hn : 0 < n
  · refine (writeLoop_wp n off 0 hed hcov hdir).seq
      fun off' t ⟨T₁, h₁, hframe, _, hcov', _⟩ => ?_
    refine (writeiSize_wp h₁ hcov' hn).seq fun _ u ⟨T₂, h₂, hframe'⟩ => ?_
    exact ⟨T₂, h₂, hframe.trans hframe'⟩
  · obtain rfl : n = 0 := by omega
    rw [wp_bind, writeLoop, wp_pure, wp_bind, writeiSize, if_neg hn]
    exact ⟨T, h, Frame.refl e s⟩

/-! ### Directory entries -/

theorem copyBytes_spec {x : Nat → Option UInt8} {f : Nat → UInt8} (m : Nat) (blk : Block)
    (dst pos : Nat) (hsrc : ∀ j, j < m → x (pos + j) = some (f (pos + j))) (hfit : dst + m ≤ BSIZE) :
    (copyBytes blk dst x pos m).2 = true ∧ ∀ p, byte (copyBytes blk dst x pos m).1 p =
      if dst ≤ p ∧ p < dst + m then f (pos + (p - dst)) else byte blk p := by
  induction m generalizing blk dst pos with
  | zero => exact ⟨rfl, fun p => by rw [if_neg (by omega)]; rfl⟩
  | succ m ih =>
    have h0 := hsrc 0 (by omega)
    rw [Nat.add_zero] at h0
    obtain ⟨hok, hbytes⟩ := ih (setByte blk dst (f pos)) (dst + 1) (pos + 1) (fun j hj => by
      have := hsrc (j + 1) (by omega)
      rwa [show pos + (j + 1) = pos + 1 + j by omega] at this) (by omega)
    rw [copyBytes, h0]
    refine ⟨hok, fun p => ?_⟩
    rw [hbytes p]
    by_cases hp : p = dst
    · subst hp
      rw [if_neg (by omega), if_pos (by omega), byte_setByte_self _ _ (by omega), Nat.sub_self,
        Nat.add_zero]
    · by_cases hp' : dst + 1 ≤ p ∧ p < dst + 1 + m
      · rw [if_pos hp', if_pos (by omega), show pos + 1 + (p - (dst + 1)) = pos + (p - dst) by omega]
      · rw [if_neg hp', if_neg (by omega), byte_setByte_of_ne _ _ hp]

theorem getLE_two (blk : Blk n) (off : Nat) :
    getLE blk off 2 = (byte blk off).toNat + 256 * (byte blk (off + 1)).toNat := by
  simp [getLE]

theorem off_mod (k : Nat) : 16 * k % BSIZE = 16 * (k % 64) := by unfold BSIZE; omega

variable {de : Dirent}

theorem dirSafe_dirent (hname : de.name.length = DIRSIZ) (hinum : de.inum < sb.ninodes)
    (k : Nat) : DirSafe sb (fun j => de.toBytes[j]?) Dirent.size (16 * k) 0 := by
  have hlen : de.toBytes.length = 16 := by simp [Dirent.toBytes, hname, DIRSIZ]
  have hk : k % 64 < 64 := Nat.mod_lt _ (by decide)
  have hsize : Dirent.size = 16 := rfl
  refine .inr ⟨?_, fun blk hblk => ?_⟩
  · rw [off_mod, hsize]
    unfold BSIZE
    omega
  rw [off_mod, hsize]
  obtain ⟨hok, hbytes⟩ := copyBytes_spec (x := fun j => de.toBytes[j]?)
    (f := fun j => de.toBytes.getD j 0) 16 blk (16 * (k % 64)) 0 (fun j hj => by
      rw [Nat.zero_add, List.getD_eq_getElem?_getD, List.getElem?_eq_getElem (by omega)]; rfl)
    (by unfold BSIZE; omega)
  refine ⟨hok, fun j hj => ?_⟩
  rw [getLE_two, hbytes, hbytes]
  by_cases hjk : j = k % 64
  · rw [if_pos (by omega), if_pos (by omega), hjk]
    have hlow : (de.toBytes.getD (0 + (16 * (k % 64) - 16 * (k % 64))) 0).toNat = de.inum % 256 := by
      simp [Dirent.toBytes]
    have hhigh : (de.toBytes.getD (0 + (16 * (k % 64) + 1 - 16 * (k % 64))) 0).toNat =
        de.inum / 256 % 256 := by
      rw [show 0 + (16 * (k % 64) + 1 - 16 * (k % 64)) = 1 by omega]
      simp [Dirent.toBytes]
    rw [hlow, hhigh]
    omega
  · rw [if_neg (by omega), if_neg (by omega), ← getLE_two]
    exact hblk j hj

variable {msg : String}

theorem writeDirent_wp (hmsg : msg ≠ "freeing free block")
    (h : Held sb X l L s) (hL : (L e).isSome = true) (hname : de.name.length = DIRSIZ)
    (hinum : de.inum < sb.ninodes) (k : Nat) :
    wp NoDoubleFree (writeDirent sb e (16 * k) de msg) (fun _ t => Held sb X l L t ∧ Frame e s t) s := by
  obtain ⟨T, h⟩ := h
  refine (writei_wp h hL fun _ => dirSafe_dirent hname hinum k).seq
    fun r t ⟨T', ht, hframe⟩ => ?_
  cases r with
  | none => exact wp_panic hmsg
  | some n => exact wp_ite (fun _ => ⟨⟨T', ht⟩, hframe⟩) fun _ => wp_panic hmsg

theorem readDirent_wp (hmsg : msg ≠ "freeing free block") (h : Held sb X l L s)
    (hL : (L e).isSome = true) (k : Nat) :
    wp NoDoubleFree (readDirent sb e (16 * k) msg) (fun de t => t = s ∧
      ((s.icache e).din.type = T_DIR → de.inum < sb.ninodes)) s := by
  obtain ⟨T, h⟩ := h
  refine (readi_wp h hL _ _).seq ?_
  rintro r t ⟨rfl, hbytes⟩
  cases r with
  | none => exact wp_panic hmsg
  | some bs =>
    refine wp_ite (fun hlen => ⟨rfl, fun hty => ?_⟩) fun _ => wp_panic hmsg
    obtain ⟨hsize, hbs⟩ := hbytes bs rfl
    rw [hlen] at hsize hbs
    have hed := h.edit hL
    have hslot := hed.slot_ne_zero (n := 16 * k / BSIZE) (by unfold BSIZE Dirent.size at *; omega)
    have hsound := hed.inv.stored.acct.sound _ _ _ (hed.owns_iff.mpr ⟨rfl, hslot⟩)
      (.inr (by rw [hed.mine]; exact hty))
    have hk : k % 64 < 64 := Nat.mod_lt _ (by decide)
    have hdir := hsound.2 (dataSlot_ne _) (k % 64) hk
    have h0 := hbs 0 (by decide)
    have h1 := hbs 1 (by decide)
    rw [fileByte_block (by rw [off_mod]; unfold BSIZE; omega), off_mod] at h0 h1
    rw [getLE_two] at hdir
    show (bs.getD 0 0).toNat + 256 * (bs.getD 1 0).toNat < sb.ninodes
    rw [h0, h1]
    exact hdir

end Xv6.Fs
