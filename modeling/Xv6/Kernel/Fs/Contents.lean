import Xv6.Kernel.Fs.FileSpec

/-! Files as arrays of bytes.

    ```
    B          ████████████████████
    data at off        ▒▒▒▒▒▒▒▒▒▒▒▒▒▒▒▒▒▒
    overlay    ████████▒▒▒▒▒▒▒▒▒▒▒▒▒▒▒▒▒▒
    ```

    `readi` returns a segment of the array and `writei` overlays it, block by block; no other file
    changes. -/

namespace Xv6.Fs
open Bytes Hoare Function

variable {sb : Superblock} {X : Option Pid} {l : List EntryId} {L : EntryId → Option Int16}
  {T : Nat → Dinode} {P : List Nat} {s t u : State} {e : EntryId} {E : Stop → Prop}

/-- The bytes of a file. -/
def contents (d : Dinode) (v : Disk) : List UInt8 := (List.range d.size.toNat).map (fileByte d v)

@[simp] theorem length_contents (d : Dinode) (v : Disk) : (contents d v).length = d.size.toNat := by
  simp [contents]

/-- An array with `data` at `off`, extended if needed. -/
def overlay (B : List UInt8) (off : Nat) (data : List UInt8) : List UInt8 :=
  B.take off ++ data ++ B.drop (off + data.length)

theorem overlay_nil (B : List UInt8) (off : Nat) : overlay B off [] = B := by simp [overlay]

variable {data : List UInt8} {off : Nat}

/-- The overlay byte by byte. -/
theorem overlay_eq_map {B : List UInt8} (hoff : off ≤ B.length) :
    overlay B off data = (List.range (max B.length (off + data.length))).map fun p =>
      if off ≤ p ∧ p < off + data.length then data.getD (p - off) 0 else B.getD p 0 := by
  have hlen : (B.take off).length = off := by simpa using hoff
  refine List.ext_getElem (by simp [overlay]; omega) fun p h₁ h₂ => ?_
  simp only [overlay, List.append_assoc, List.getElem_map, List.getElem_range]
  simp only [List.length_map, List.length_range] at h₂
  by_cases hlt : p < off
  · rw [List.getElem_append_left (by omega), if_neg (by omega), List.getD_eq_getElem _ _ (by omega)]
    simp
  · rw [List.getElem_append_right (by omega)]
    by_cases hin : p < off + data.length
    · rw [List.getElem_append_left (by omega), if_pos (by omega), List.getD_eq_getElem _ _ (by omega)]
      simp [hlen]
    · rw [List.getElem_append_right (by omega), if_neg (by omega), List.getD_eq_getElem _ _ (by omega),
        List.getElem_drop]
      congr 1
      omega

/-! ### Reading -/

variable {n : Nat}

/-- A segment of a file. -/
theorem contents_segment (d : Dinode) (v : Disk) (h : off + n ≤ d.size.toNat) :
    ((contents d v).drop off).take n = (List.range n).map fun j => fileByte d v (off + j) := by
  refine List.ext_getElem (by simp; omega) fun j h₁ h₂ => ?_
  simp [contents]

/-- `readi` returns -1 or a segment of the file, and changes nothing. -/
theorem readi_ok (h : Inv sb X l L T none [] s) (hL : (L e).isSome = true)
    (hoff : off < 2 ^ 32) (hn : n < 2 ^ 32) :
    wp E (readi sb e off n) (fun r t => t = s ∧
      r = if off ≤ (s.icache e).din.size.toNat ∧ off + n < 2 ^ 32 then
        some (((contents (s.icache e).din s.view).drop off).take n) else none) s := by
  unfold readi
  rw [wp_bind, wp_entry]
  refine wp_ite (fun hbad => ⟨rfl, ?_⟩) fun hgood => ?_
  · rw [if_neg (by omega)]
  · have hok : off ≤ (s.icache e).din.size.toNat ∧ off + n < 2 ^ 32 := by omega
    simp only [if_pos hok]
    by_cases hend : off + n > (s.icache e).din.size.toNat
    · simp only [if_pos hend]
      refine (readLoop_ok (h.edit hL) _ off _ (by omega) le_rfl).seq ?_
      rintro bs t ⟨rfl, rfl⟩
      refine ⟨rfl, ?_⟩
      rw [← contents_segment _ _ (by omega), List.take_of_length_le (by simp),
        List.take_of_length_le (by simp; omega)]
    · simp only [if_neg hend]
      refine (readLoop_ok (h.edit hL) _ off _ (by omega) le_rfl).seq ?_
      rintro bs t ⟨rfl, rfl⟩
      exact ⟨rfl, by rw [← contents_segment _ _ (by omega)]⟩

/-! ### Writing -/

/-- The bytes of `[lo, hi)` are now those of `f`, and their blocks are there. All other bytes of the
    file, the blocks of other files and the inodes on disk are as before. -/
structure Overwritten (sb : Superblock) (e : EntryId) (f : Nat → UInt8) (lo hi : Nat) (s t : State) :
    Prop where
  dinodes : ∀ j, j < sb.ninodes → dinodeAt sb t.view j = dinodeAt sb s.view j
  foreign : ∀ c, Foreign sb e s c → Foreign sb e t c ∧ t.view c = s.view c
  kept : ∀ k, slot (s.icache e).din s.view k ≠ 0 →
    slot (t.icache e).din t.view k = slot (s.icache e).din s.view k
  mapped : ∀ p, lo ≤ p → p < hi → slot (t.icache e).din t.view (dataSlot (p / BSIZE)) ≠ 0
  inside : ∀ p, lo ≤ p → p < hi → fileByte (t.icache e).din t.view p = f p
  outside : ∀ p, p < lo ∨ hi ≤ p → slot (s.icache e).din s.view (dataSlot (p / BSIZE)) ≠ 0 →
    fileByte (t.icache e).din t.view p = fileByte (s.icache e).din s.view p

theorem Overwritten.refl (f : Nat → UInt8) (off : Nat) : Overwritten sb e f off off s s where
  dinodes _ _ := rfl
  foreign _ hc := ⟨hc, rfl⟩
  kept _ _ := rfl
  mapped _ _ _ := by omega
  inside _ _ _ := by omega
  outside _ _ _ := rfl

variable {f : Nat → UInt8}

theorem Overwritten.trans {lo mid hi : Nat} (h : Overwritten sb e f lo mid s t)
    (h' : Overwritten sb e f mid hi t u) (hlo : lo ≤ mid) (hhi : mid ≤ hi) :
    Overwritten sb e f lo hi s u where
  dinodes j hj := (h'.dinodes j hj).trans (h.dinodes j hj)
  foreign c hc := by
    obtain ⟨hct, hv⟩ := h.foreign c hc
    obtain ⟨hcu, hv'⟩ := h'.foreign c hct
    exact ⟨hcu, hv'.trans hv⟩
  kept k hk := by rw [h'.kept k (by rwa [h.kept k hk]), h.kept k hk]
  mapped p h₁ h₂ := by
    by_cases hp : p < mid
    · rw [h'.kept _ (h.mapped p h₁ hp)]
      exact h.mapped p h₁ hp
    · exact h'.mapped p (by omega) h₂
  inside p h₁ h₂ := by
    by_cases hp : p < mid
    · rw [h'.outside p (.inl hp) (h.mapped p h₁ hp), h.inside p h₁ hp]
    · exact h'.inside p (by omega) h₂
  outside p hp hk := by
    rw [h'.outside p (by omega) (by rwa [h.kept _ hk]), h.outside p (by omega) hk]

/-- One round: `bmap` has found the block `b` of offset `off`, and `m` bytes of it are written. -/
theorem Extends.overwritten {m b : Nat} {blk : Block} (hext : Extends sb e s t)
    (h : Editing sb X l L e T P t)
    (hb : slot (t.icache e).din t.view (dataSlot (off / BSIZE)) = b) (hne : b ≠ 0)
    (hm : off % BSIZE + m ≤ BSIZE)
    (hblk : ∀ p, byte blk p = if off % BSIZE ≤ p ∧ p < off % BSIZE + m then f (off + (p - off % BSIZE))
      else byte (t.view b) p) :
    Overwritten sb e f off (off + m) s (t.logWrite b blk) := by
  have hown := h.owns_iff.mpr ⟨hb, hne⟩
  have hused := h.inv.stored.acct.owned hown
  have hview : ∀ c, c ≠ b → (t.logWrite b blk).view c = t.view c := fun c hc => by
    rw [view_logWrite, update_of_ne hc]
  have hself : (t.logWrite b blk).view b = blk := by rw [view_logWrite, update_self]
  have hslot := h.slot_data hb hne (sameMem_logWrite t b blk) hview
  have hdiv : ∀ p, off ≤ p → p < off + m → p / BSIZE = off / BSIZE := fun p h₁ h₂ => by
    unfold BSIZE at *
    omega
  refine ⟨fun j hj => ?_, fun c hc => ?_, fun k hk => ?_, fun p h₁ h₂ => ?_, fun p h₁ h₂ => ?_,
    fun p hp hk => ?_⟩
  · rw [view_logWrite, dinodeAt_update hj hused.1, hext.dinodes j hj]
  · obtain ⟨⟨⟨hmeta, hlt, hbit⟩, hother⟩, hv⟩ := hext.foreign c hc
    have hcb : c ≠ b := fun heq => hother _ (hb.trans heq.symm)
    refine ⟨⟨⟨hmeta, hlt, ?_⟩, fun k => ?_⟩, (hview c hcb).trans hv⟩
    · rw [view_logWrite, bitAt_update hlt hused.1, hbit]
    · rw [hslot]
      exact hother k
  · rw [hslot, hext.kept k hk]
  · rw [hslot, hdiv p h₁ h₂, hb]
    exact hne
  · rw [fileByte, hslot, hdiv p h₁ h₂, hb, hself, hblk, if_pos (by unfold BSIZE at *; omega)]
    congr 1
    unfold BSIZE at *
    omega
  · have hkt := hext.kept _ hk
    rw [fileByte, hslot, fileByte, hkt]
    by_cases hpo : p / BSIZE = off / BSIZE
    · rw [hpo] at hk hkt ⊢
      rw [← hkt, hb, hself, hblk, if_neg (by unfold BSIZE at *; omega)]
      have := hext.data _ (dataSlot_ne _) hk
      rw [← hkt, hb] at this
      rw [this]
    · have hpb : slot (s.icache e).din s.view (dataSlot (p / BSIZE)) ≠ b := fun heq => hpo <|
        dataSlot_inj (Prod.mk.inj (h.inv.stored.acct.ledger.once
          (h.owns_iff.mpr ⟨hkt.trans heq, hne⟩) hown)).2
      rw [hview _ hpb, hext.data _ (dataSlot_ne _) hk]

/-- One round of `writei`'s loop: where it goes on, or `none` if the copy failed. -/
def writeRound (sb : Superblock) (e : EntryId) (src : Nat → Option UInt8) (n off tot : Nat) :
    M (Option (Nat × Nat)) := do
  let b ← bmap sb e (off / BSIZE)
  let blk ← bread b
  let m := min (n - tot) (BSIZE - off % BSIZE)
  let r := copyBytes blk (off % BSIZE) src tot m
  if r.2 then do
    logWrite b r.1
    pure (some (off + m, tot + m))
  else do
    scribble b r.1
    pure none

variable {src : Nat → Option UInt8} {tot : Nat}

theorem writeLoop_succ {fuel : Nat} :
    writeLoop sb e src n (fuel + 1) off tot = if tot < n then (do
        match ← writeRound sb e src n off tot with
        | some r => writeLoop sb e src n fuel r.1 r.2
        | none => pure off) else pure off := by
  rw [writeLoop]
  unfold writeRound
  simp only [bind_assoc]
  congr! 5
  split <;> simp only [bind_assoc, pure_bind]

variable {K : Finset Nat}

theorem writeRound_ok
    (h : Editing sb X l L e T [] s) (hcov : Covered e off s) (htot : tot < n)
    (hdir : (s.icache e).din.type = T_DIR → DirSafe sb src n off tot)
    (hsrc : ∀ j, j < n - tot → src (tot + j) = some (f (off + j)))
    (hmax : off + (n - tot) ≤ MAXFILE * BSIZE) (hK : slotsFor (off / BSIZE) ⊆ K)
    (hroom : Suffices E sb e K s) :
    wp E (writeRound sb e src n off tot) (fun r t => ∃ m, r = some (off + m, tot + m) ∧ 0 < m ∧
      m ≤ n - tot ∧ ((t.icache e).din.type = T_DIR → m = n - tot) ∧
      Overwritten sb e f off (off + m) s t ∧ Suffices E sb e K t ∧ ∃ T', Editing sb X l L e T' [] t ∧
      Frame e s t ∧ (t.icache e).din.size = (s.icache e).din.size ∧ Covered e (off + m) t) s := by
  have hpos : off / BSIZE * BSIZE ≤ off ∧ off % BSIZE < BSIZE := by unfold BSIZE; omega
  refine (bmap_ok h (by unfold BSIZE MAXFILE at *; omega) hK hroom).seq
    fun b t ⟨⟨hext, hroom₁⟩, T₁, h₁, hmap, hb, hne⟩ => ?_
  have hty : (t.icache e).din.type = (s.icache e).din.type :=
    Option.some.inj (h₁.held.2.2.trans h.held.2.2.symm)
  have hcov₁ := hcov.round (m := min (n - tot) (BSIZE - off % BSIZE)) hmap (hb ▸ hne) (Nat.min_le_right _ _)
  rw [wp_bind, wp_bread]
  generalize hm : min (n - tot) (BSIZE - off % BSIZE) = m at hcov₁
  obtain ⟨hok, hbytes⟩ := copyBytes_spec (x := src) (f := fun i => f (off + (i - tot))) m (t.view b)
    (off % BSIZE) tot (fun j hj => by rw [hsrc j (by omega), Nat.add_sub_cancel_left]) (by omega)
  rw [if_pos hok, wp_bind, wp_logWrite]
  have hown := h₁.owns_iff.mpr ⟨hb, hne⟩
  have hsafe := fun htd => h₁.dirRound hown htot hm htd (hdir (hty ▸ htd))
  have hview : ∀ c, c ≠ b →
      (t.logWrite b (copyBytes (t.view b) (off % BSIZE) src tot m).1).view c = t.view c :=
    fun c hc => by rw [view_logWrite, update_of_ne hc]
  have hslot := h₁.slot_data hb hne (sameMem_logWrite _ _ _) hview
  have hused := h₁.inv.stored.acct.owned hown
  refine ⟨m, rfl, by omega, by omega, fun htd => (hsafe htd).1,
    hext.overwritten h₁ hb hne (by omega) fun p => by simp only [hbytes p, Nat.add_sub_cancel_left],
    fun hE => (hroom₁ hE).congr hslot fun c hc => ?_, T₁, h₁.logData hb hne fun htd => (hsafe htd).2.2,
    hmap.frame.trans ((sameMem_logWrite _ _ _).frame e), hmap.size, fun j hj => ?_⟩
  · rw [view_logWrite, bitAt_update hc hused.1]
  · rw [hslot]
    exact hcov₁ j hj

theorem writeLoop_ok
    (fuel off tot : Nat) (h : Editing sb X l L e T [] s) (hcov : Covered e off s)
    (hdir : (s.icache e).din.type = T_DIR → DirSafe sb src n off tot)
    (hsrc : ∀ j, j < n - tot → src (tot + j) = some (f (off + j))) (hfuel : n - tot ≤ fuel)
    (hmax : off + (n - tot) ≤ MAXFILE * BSIZE)
    (hK : ∀ m, off / BSIZE ≤ m → m * BSIZE < off + (n - tot) → slotsFor m ⊆ K)
    (hroom : Suffices E sb e K s) :
    wp E (writeLoop sb e src n fuel off tot) (fun off' t => off' = off + (n - tot) ∧
      Overwritten sb e f off (off + (n - tot)) s t ∧ ∃ T', Editing sb X l L e T' [] t ∧ Frame e s t ∧
      (t.icache e).din.size = (s.icache e).din.size ∧ Covered e off' t) s := by
  induction fuel generalizing off tot s T with
  | zero =>
    have h0 : n - tot = 0 := by omega
    rw [h0]
    exact ⟨rfl, Overwritten.refl f off, T, h, Frame.refl e s, rfl, hcov⟩
  | succ fuel ih =>
    rw [writeLoop_succ]
    refine wp_ite (fun htot => ?_) fun htot => ?_
    · refine (writeRound_ok h hcov htot hdir hsrc hmax (hK _ le_rfl ?_) hroom).seq ?_
      · have : off / BSIZE * BSIZE ≤ off := by unfold BSIZE; omega
        omega
      rintro r t ⟨m, rfl, hpos, hm, hlast, hround, hroom₁, T₁, h₁, hframe₁, hsize₁, hcov₁⟩
      have hleft : n - tot = m + (n - (tot + m)) := by omega
      refine (ih (off + m) (tot + m) h₁ hcov₁ (fun htd => .inl ?_) (fun j hj => ?_) (by omega) (by omega)
        (fun j h₁ h₂ => hK j ((Nat.div_le_div_right (by omega)).trans h₁) (by omega)) hroom₁).mono ?_
      · have := hlast htd
        omega
      · rw [Nat.add_assoc, hsrc (m + j) (by omega), Nat.add_assoc]
      · rintro off' u ⟨rfl, hover, T', hu, hframe, hsize, hcov'⟩
        rw [Nat.add_assoc, ← hleft] at hover hcov'
        exact ⟨by omega, hround.trans hover (by omega) (by omega), T', hu, hframe₁.trans hframe,
          hsize.trans hsize₁, by rwa [Nat.add_assoc, ← hleft]⟩
    · have h0 : n - tot = 0 := by omega
      rw [h0]
      exact ⟨rfl, Overwritten.refl f off, T, h, Frame.refl e s, rfl, hcov⟩

/-- The slots that a write of `n` bytes at `off` may fill. -/
def touched (off n : Nat) : Finset Nat :=
  ((Finset.range MAXFILE).filter fun m => off / BSIZE ≤ m ∧ m * BSIZE < off + n).biUnion slotsFor

/-- The inode after a write up to `off`. -/
def Dinode.grown (d : Dinode) (off : Nat) : Dinode :=
  if off > d.size.toNat then { d with size := UInt32.ofNat off } else d

theorem grown_addrs (d : Dinode) (off : Nat) : (d.grown off).addrs = d.addrs := by
  unfold Dinode.grown
  split <;> rfl

theorem grown_size (d : Dinode) (hoff : off ≤ MAXFILE * BSIZE) :
    (d.grown off).size.toNat = max d.size.toNat off := by
  have hint : (UInt32.ofNat off).toNat = off :=
    UInt32.toNat_ofNat_of_lt' (hoff.trans_lt (by decide))
  unfold Dinode.grown
  split
  · rw [hint]
    omega
  · omega

theorem writeiSize_ok (hn : 0 < n) :
    wp E (writeiSize sb e off n)
      (fun _ t => t = (s.setDin e ((s.icache e).din.grown off)).iupdate sb e) s := by
  unfold writeiSize
  rw [if_pos hn, wp_bind, wp_setDin, wp_iupdate]
  rfl

/-! ### Files -/

/-- The contents of an inode on disk. -/
def fileOf (sb : Superblock) (v : Disk) (i : Nat) : List UInt8 := contents (dinodeAt sb v i) v

variable {p : Nat}

theorem fileByte_congr {d d' : Dinode} {v v' : Disk} (haddrs : d'.addrs = d.addrs)
    (hind : d.addr NDIRECT ≠ 0 → v' (d.addr NDIRECT).toNat = v (d.addr NDIRECT).toNat)
    (hdata : v' (slot d v (dataSlot (p / BSIZE))) = v (slot d v (dataSlot (p / BSIZE)))) :
    fileByte d' v' p = fileByte d v p := by
  rw [fileByte, slot_congr haddrs hind, hdata, fileByte]

theorem Inv.dinodeAt_eq (h : Inv sb X l L T none [] s) {i : Nat} (hi : i < sb.ninodes) :
    dinodeAt sb s.view i = T i := h.stored.ondisk i hi (by simp)

/-- A loaded inode is the one on disk. -/
theorem Inv.dinodeAt_entry (h : Inv sb X l L T none [] s) (hL : (L e).isSome = true) :
    dinodeAt sb s.view (s.icache e).inum = (s.icache e).din := by
  rw [h.dinodeAt_eq (h.edit hL).inum_lt, (h.edit hL).mine]

variable {j : Nat}

/-- The blocks of other files are foreign. -/
theorem Editing.foreign (h : Editing sb X l L e T P s) {k : Nat} (hj : j < sb.ninodes)
    (hji : j ≠ (s.icache e).inum) (hty : (T j).type ≠ 0) (hk : slot (T j) s.view k ≠ 0) :
    Foreign sb e s (slot (T j) s.view k) := by
  have hown : own sb T s.view (j, k) = some (slot (T j) s.view k) := own_eq_some.mpr ⟨hj, hty, rfl, hk⟩
  refine ⟨h.inv.stored.acct.owned hown, fun k' heq => hji ?_⟩
  exact (Prod.mk.inj (h.inv.stored.acct.ledger.once hown (h.owns_iff.mpr ⟨heq, hk⟩))).1

/-- Blocks that keep what others have in them keep the files of others. -/
theorem Editing.contents_other (h : Editing sb X l L e T P s)
    (hforeign : ∀ c, Foreign sb e s c → t.view c = s.view c) (hj : j < sb.ninodes)
    (hji : j ≠ (s.icache e).inum) (hty : (T j).type ≠ 0) :
    contents (T j) t.view = contents (T j) s.view := by
  refine List.map_congr_left fun p hp => fileByte_congr rfl (fun hne => ?_) ?_
  · have := h.foreign (k := NDIRECT) hj hji hty (by
      rw [slot_direct _ _ le_rfl]
      exact fun h0 => hne (UInt32.toNat_inj.mp h0))
    rw [slot_direct _ _ le_rfl] at this
    exact hforeign _ this
  · refine hforeign _ (h.foreign hj hji hty (h.inv.stored.acct.full j hj hty _ ?_))
    have := List.mem_range.mp hp
    unfold BSIZE
    omega

/-- `data` was written to the file at `off`. -/
structure Written (sb : Superblock) (X : Option Pid) (l : List EntryId) (L : EntryId → Option Int16)
    (e : EntryId) (off : Nat) (data : List UInt8) (s t : State) : Prop where
  held : Held sb X l L t
  frame : Frame e s t
  self : contents (t.icache e).din t.view = overlay (contents (s.icache e).din s.view) off data
  dinodes : ∀ j, j < sb.ninodes → j ≠ (s.icache e).inum → dinodeAt sb t.view j = dinodeAt sb s.view j
  others : ∀ j, j < sb.ninodes → j ≠ (s.icache e).inum → (dinodeAt sb s.view j).type ≠ 0 →
    fileOf sb t.view j = fileOf sb s.view j

theorem contents_getD (d : Dinode) (v : Disk) (hp : p < d.size.toNat) :
    (contents d v).getD p 0 = fileByte d v p := by
  rw [List.getD_eq_getElem _ _ (by simpa using hp)]
  simp [contents]

/-- The loop and the end of `writei` together. -/
theorem Editing.written {T₁ T₂ : Nat → Dinode}
    (h : Editing sb X l L e T [] s) (h₁ : Editing sb X l L e T₁ [] t) (h₂ : Inv sb X l L T₂ none [] u)
    (hle : off ≤ (s.icache e).din.size.toNat)
    (hover : Overwritten sb e (fun p => data.getD (p - off) 0) off (off + data.length) s t)
    (hframe : Frame e s t) (hsize : (t.icache e).din.size = (s.icache e).din.size)
    (hcov : Covered e (off + data.length) t)
    (hu : u = (t.setDin e ((t.icache e).din.grown (off + data.length))).iupdate sb e) :
    Written sb X l L e off data s u := by
  have hdin : (u.icache e).din = (t.icache e).din.grown (off + data.length) := by
    rw [hu]
    exact din_setDin
  have hview : u.view = putDinodeAt sb t.view (t.icache e).inum (u.icache e).din := by
    rw [hdin, hu, State.iupdate, view_logWrite, din_setDin, proj_setDin Inode.inum fun _ => rfl]
    rfl
  have hdata : ∀ c, sb.nmeta ≤ c → u.view c = t.view c := fun c hc => by
    rw [hview, putDinodeAt_data h₁.inum_lt hc]
  have hmeta : ∀ k, slot (t.icache e).din t.view k ≠ 0 → sb.nmeta ≤ slot (t.icache e).din t.view k :=
    fun k hk => (h₁.inv.stored.acct.owned (h₁.owns_iff.mpr ⟨rfl, hk⟩)).1
  have hdinodes : ∀ j, j < sb.ninodes → j ≠ (s.icache e).inum →
      dinodeAt sb u.view j = dinodeAt sb s.view j := fun j hj hji => by
    rw [hview, dinodeAt_putDinodeAt, if_neg (by rwa [hframe.inum]), hover.dinodes j hj]
  refine ⟨⟨T₂, h₂⟩, hframe.trans ?_, ?_, hdinodes, fun j hj hji hty => ?_⟩
  · rw [hu]
    exact (frame_setDin e _ t).trans ((sameMem_iupdate _ sb e).frame e)
  · rw [overlay_eq_map (by simpa using hle), hdin, contents, grown_size _ hcov.le, hsize, length_contents]
    refine List.map_congr_left fun p hp => ?_
    have hp := List.mem_range.mp hp
    have hfull : p < (s.icache e).din.size.toNat →
        slot (s.icache e).din s.view (dataSlot (p / BSIZE)) ≠ 0 := fun hlt =>
      h.slot_ne_zero (by unfold BSIZE; omega)
    have hslot : slot (t.icache e).din t.view (dataSlot (p / BSIZE)) ≠ 0 := by
      by_cases hlt : p < (s.icache e).din.size.toNat
      · rw [hover.kept _ (hfull hlt)]
        exact hfull hlt
      · exact hcov _ (by unfold BSIZE; omega)
    rw [fileByte_congr (grown_addrs _ _) (fun hne => hdata _ ?_) (hdata _ (hmeta _ hslot))]
    · by_cases hin : off ≤ p ∧ p < off + data.length
      · rw [if_pos hin, hover.inside p hin.1 hin.2]
      · rw [if_neg hin, contents_getD _ _ (by omega), hover.outside p (by omega) (hfull (by omega))]
    · have := hmeta NDIRECT
      rw [slot_direct _ _ le_rfl] at this
      exact this fun h0 => hne (UInt32.toNat_inj.mp h0)
  · have hTj : dinodeAt sb s.view j = T j := h.inv.stored.ondisk j hj fun e' he' => by
      cases he'
      exact hji.symm
    rw [fileOf, hdinodes j hj hji, fileOf]
    rw [hTj] at hty ⊢
    refine h.contents_other (fun c hc => ?_) hj hji hty
    rw [hdata c hc.1.1, (hover.foreign c hc).2]

/-- The offsets that `writei` accepts for `n` bytes in a file of the given size. -/
def Accepts (size off n : Nat) : Prop := off ≤ size ∧ off + n < 2 ^ 32 ∧ off + n ≤ MAXFILE * BSIZE

instance (size off n : Nat) : Decidable (Accepts size off n) :=
  inferInstanceAs (Decidable (_ ∧ _ ∧ _))

theorem writei_ok (h : Inv sb X l L T none [] s)
    (hL : (L e).isSome = true)
    (hdir : (s.icache e).din.type = T_DIR → DirSafe sb (fun j => data[j]?) data.length off 0)
    (hoff : off < 2 ^ 32) (hn : data.length < 2 ^ 32)
    (hroom : Accepts (s.icache e).din.size.toNat off data.length →
      Suffices E sb e (touched off data.length) s) :
    wp E (writei sb e (fun j => data[j]?) off data.length) (fun r t =>
      if Accepts (s.icache e).din.size.toNat off data.length then
        r = some data.length ∧ Written sb X l L e off data s t
      else r = none ∧ t = s) s := by
  have hed := h.edit hL
  unfold writei
  rw [wp_bind, wp_entry]
  by_cases hacc : Accepts (s.icache e).din.size.toNat off data.length
  swap
  · simp only [if_neg hacc]
    unfold Accepts at hacc
    refine wp_ite (fun _ => ⟨rfl, rfl⟩) fun h₁ => wp_ite (fun _ => ⟨rfl, rfl⟩) fun h₂ => ?_
    omega
  simp only [if_pos hacc]
  have hroom := hroom hacc
  obtain ⟨hle, hint, hmax⟩ := hacc
  rw [if_neg (by omega), if_neg (by omega)]
  by_cases hpos : 0 < data.length
  swap
  · obtain rfl : data = [] := List.length_eq_zero_iff.mp (by omega)
    refine ⟨rfl, ⟨T, h⟩, Frame.refl e s, ?_, fun _ _ _ => rfl, fun _ _ _ _ => rfl⟩
    rw [overlay_nil]
  refine (writeLoop_ok (f := fun p => data.getD (p - off) 0) data.length off 0 hed
    (fun m hm => hed.slot_ne_zero (by omega)) hdir (fun j hj => ?_) (by omega) (by omega) (fun m h₁ h₂ => ?_)
    hroom).seq ?_
  · rw [Nat.zero_add, Nat.add_sub_cancel_left, List.getD_eq_getElem _ _ (by omega)]
    exact List.getElem?_eq_getElem (by omega)
  · refine Finset.subset_biUnion_of_mem slotsFor (Finset.mem_filter.mpr ⟨Finset.mem_range.mpr ?_, h₁, by omega⟩)
    unfold BSIZE at *
    omega
  rintro off' t ⟨hoff', hover, T₁, h₁, hframe, hsize, hcov⟩
  rw [Nat.sub_zero] at hoff' hover
  subst hoff'
  refine ((writeiSize_ok hpos).and (writeiSize_wp h₁ hcov hpos)).seq ?_
  rintro - u ⟨hu, T₂, h₂, hframe₂⟩
  exact ⟨rfl, hed.written h₁ h₂ hle hover hframe hsize hcov hu⟩

end Xv6.Fs
