import Xv6.Kernel.Fs.BlockSpec

/-! What the operations on inodes do to the invariant. -/

namespace Xv6.Fs
open Bytes Hoare Function

variable {sb : Superblock} {X : Option Pid} {l : List EntryId} {L : EntryId → Option Int16}
  {T : Nat → Dinode} {P : List Nat} {s t : State} {e : EntryId}

/-! ### Writing inodes back -/

/-- A locked inode can be worked on. -/
theorem Inv.edit (h : Inv sb X l L T none [] s) (hL : (L e).isSome = true) :
    Editing sb X l L e T [] s := by
  obtain ⟨ty, hty⟩ := Option.isSome_iff_exists.mp hL
  obtain ⟨hr, hv, -⟩ := h.cache.held hty
  exact ⟨⟨h.handles, h.cache, h.stored.ahead e⟩, hL, (h.stored.sync e hr hv (by simp)).symm⟩

/-- The state after `iupdate`. -/
def State.iupdate (s : State) (sb : Superblock) (e : EntryId) : State :=
  s.logWrite (sb.iblock (s.icache e).inum)
    (putDinode (s.view (sb.iblock (s.icache e).inum)) (64 * ((s.icache e).inum % IPB)) (s.icache e).din)

variable {E : Stop → Prop}

@[simp] theorem wp_iupdate {Q : Unit → State → Prop} :
    wp E (iupdate sb e) Q s ↔ Q () (s.iupdate sb e) := Iff.rfl

theorem sameMem_iupdate (s : State) (sb : Superblock) (e : EntryId) : SameMem s (s.iupdate sb e) :=
  sameMem_logWrite _ _ _

/-- Afterwards no inode is ahead of the disk. -/
theorem Stored.iupdate (h : Stored sb T (some e) P s) (hi : (s.icache e).inum < sb.ninodes)
    (hmine : T (s.icache e).inum = (s.icache e).din) : Stored sb T none P (s.iupdate sb e) := by
  have hview : (s.iupdate sb e).view = putDinodeAt sb s.view (s.icache e).inum (s.icache e).din :=
    view_logWrite _ _ _
  refine ⟨fun e' hr hv _ => ?_, fun i hi' _ => ?_, ?_, fun c hc => ?_⟩
  · by_cases he : e' = e
    · subst he; exact hmine.symm
    · exact h.sync e' hr hv fun hc => he (Option.some.inj hc).symm
  · rw [hview, dinodeAt_putDinodeAt]
    by_cases hie : i = (s.icache e).inum
    · rw [if_pos hie, hie, hmine]
    · rw [if_neg hie]
      refine h.ondisk i hi' fun e' he' => ?_
      cases he'
      exact Ne.symm hie
  · have hdata : ∀ c, sb.nmeta ≤ c →
        putDinodeAt sb s.view (s.icache e).inum (s.icache e).din c = s.view c :=
      fun c hc => putDinodeAt_data hi hc _
    rw [hview]
    exact h.acct.congr (fun _ _ => ⟨rfl, rfl⟩) (fun _ _ => rfl)
      (fun c _ => bitAt_putDinodeAt hi _) (fun i a ha => hdata a (h.acct.owned ha).1)
      fun i k a ha hsound => hsound.mono (fun hu => (unlogged_of_logWrite hu).1)
        (hdata a (h.acct.owned ha).1)
  · by_contra hc'
    exact (unlogged_of_logWrite hc').1 (h.clean c hc)

theorem Editing.iupdate (h : Editing sb X l L e T [] s) : Inv sb X l L T none [] (s.iupdate sb e) :=
  ⟨h.inv.handles.blocks (sameMem_iupdate s sb e), h.inv.cache.blocks (sameMem_iupdate s sb e),
    h.inv.stored.iupdate h.inum_lt h.mine⟩

variable {d : Dinode}

/-- Fields that say nothing about blocks may be assigned to. -/
theorem Editing.touch (h : Editing sb X l L e T [] s)
    (hty : d.type = (s.icache e).din.type) (haddrs : d.addrs = (s.icache e).din.addrs)
    (hsize : d.size = (s.icache e).din.size) :
    Editing sb X l L e (update T (s.icache e).inum d) [] (s.setDin e d) := by
  refine h.setDin hty (h.inv.stored.acct.congr (fun i _ => ?_) (fun i _ => ?_) (fun _ _ => rfl)
    (fun _ _ _ => rfl) fun _ _ _ _ hs => hs)
  · by_cases hi : i = (s.icache e).inum
    · rw [hi, update_self, h.mine]; exact ⟨hty, haddrs⟩
    · rw [update_of_ne hi]; exact ⟨rfl, rfl⟩
  · by_cases hi : i = (s.icache e).inum
    · rw [hi, update_self, h.mine]; exact hsize
    · rw [update_of_ne hi]

/-! ### Truncation -/

/-- `d` with the direct addresses of `ks` and the indirect block left. -/
def keep (d : Dinode) (ks : List Nat) : Dinode :=
  { d with addrs := fun j => if j.val ∈ ks ∨ j.val = NDIRECT then d.addrs j else 0 }

theorem keep_range (d : Dinode) : keep d (List.range NDIRECT) = d := by
  ext1 <;> try rfl
  funext j
  exact if_pos (by rw [List.mem_range]; omega)

variable {k : Nat} {ks : List Nat}

theorem addr_keep (d : Dinode) : (keep d (k :: ks)).addr k = d.addr k := by
  unfold keep Dinode.addr
  by_cases hk : k < NDIRECT + 1
  · simp [hk]
  · simp [hk]

theorem keep_cons_of_zero (d : Dinode) (h0 : d.addr k = 0) :
    keep d (k :: ks) = keep d ks := by
  ext1 <;> try rfl
  funext j
  unfold keep
  by_cases hj : j.val = k
  · have hzero : d.addrs j = 0 := by
      rw [← h0, ← hj, Dinode.addr, dif_pos j.isLt]
    simp [hj, hzero]
  · simp [hj]

theorem setAddr_keep_cons (d : Dinode) (hk : k < NDIRECT) (hks : k ∉ ks) :
    (keep d (k :: ks)).setAddr k 0 = keep d ks := by
  ext1 <;> try rfl
  funext j
  unfold keep Dinode.setAddr
  by_cases hj : j.val = k
  · have hne : j.val ≠ NDIRECT := by omega
    simp [hj, hks, hj ▸ hne]
  · simp [hj]

/-- A truncated inode. -/
def Dinode.truncated (d : Dinode) : Dinode := { d with addrs := fun _ => 0, size := 0 }

theorem owns_truncated (d : Dinode) (v : Disk) (k : Nat) : owns d.truncated v k = none := by
  have haddr : ∀ j, d.truncated.addr j = 0 := fun j => by
    unfold Dinode.addr Dinode.truncated
    split <;> rfl
  refine if_neg fun hc => hc.2 ?_
  unfold slot
  rw [haddr, haddr]
  simp

/-- Truncating, in the middle: the table has the truncated inode already, memory has what `m` says,
    and the blocks `ps` are still to be freed. -/
structure Truncating (sb : Superblock) (T : Nat → Dinode) (e : EntryId) (s : State) (m : Dinode)
    (ps : List Nat) (t : State) : Prop where
  stored : Stored sb (update T (s.icache e).inum (s.icache e).din.truncated) (some e) ps t
  mem : SameMem (s.setDin e m) t
  data : ∀ c, sb.nmeta ≤ c → t.view c = s.view c

variable {m : Dinode} {ps : List Nat}

theorem Truncating.din (h : Truncating sb T e s m ps t) :
    (t.icache e).din = m := by
  rw [h.mem.icache, din_setDin]

theorem Truncating.setDin (h : Truncating sb T e s m ps t) (m' : Dinode) :
    Truncating sb T e s m' ps (t.setDin e m') :=
  ⟨h.stored.mem, h.mem.setDin, h.data⟩

theorem Truncating.bfree {b : Nat}
    (h : Truncating sb T e s m (b :: ps) t) :
    wp NoDoubleFree (bfree sb b) (fun _ => Truncating sb T e s m ps) t :=
  (bfree_wp h.stored).mono fun _ _ ⟨hst, hmem, hdata⟩ =>
    ⟨hst, h.mem.trans hmem, fun c hc => (hdata c hc).trans (h.data c hc)⟩

theorem Editing.truncate (h : Editing sb X l L e T [] s) :
    Truncating sb T e s (s.icache e).din (ownedBlocks (s.icache e).din s.view) s := by
  refine ⟨?_, by rw [setDin_self]; exact SameMem.refl s, fun _ _ => rfl⟩
  refine h.inv.stored.table h.inv.cache h.held.1 ?_
  rw [← h.mine]
  exact h.inv.stored.acct.release h.inum_lt (fun k => owns_truncated _ _ k) rfl

variable {v : Disk}

theorem owns_of_ne (hty : d.type ≠ 0) (hne : slot d v k ≠ 0) :
    owns d v k = some (slot d v k) := if_pos ⟨hty, hne⟩

theorem owns_of_eq (h0 : slot d v k = 0) : owns d v k = none :=
  if_neg fun hc => hc.2 h0

variable {R : List Nat}

/-- The loop over the direct blocks. -/
theorem itrunc_direct_wp (hty : (s.icache e).din.type ≠ 0) (ks : List Nat)
    (hks : ks.Nodup ∧ ∀ k ∈ ks, k < NDIRECT)
    (h : Truncating sb T e s (keep (s.icache e).din ks)
      (ks.filterMap (owns (s.icache e).din s.view) ++ R) t) :
    wp NoDoubleFree (ks.forM fun k => do
      let i ← entry e
      if i.din.addr k ≠ 0 then
        bfree sb (i.din.addr k).toNat
        setDin e (·.setAddr k 0)
      else pure ()) (fun _ => Truncating sb T e s (keep (s.icache e).din []) R) t := by
  refine (wp_forM (I := fun ks t => (ks.Nodup ∧ ∀ k ∈ ks, k < NDIRECT) ∧
    Truncating sb T e s (keep (s.icache e).din ks)
      (ks.filterMap (owns (s.icache e).din s.view) ++ R) t) ks ?_ ⟨hks, h⟩).mono fun _ _ hi => hi.2
  rintro k ks u ⟨⟨hnd, hlt⟩, hu⟩
  have hk := hlt k List.mem_cons_self
  have hks : ks.Nodup ∧ ∀ j ∈ ks, j < NDIRECT :=
    ⟨(List.nodup_cons.mp hnd).2, fun j hj => hlt j (List.mem_cons_of_mem k hj)⟩
  rw [wp_bind, wp_entry, hu.din, addr_keep]
  have hslot := slot_direct (s.icache e).din s.view hk.le
  refine wp_ite (fun hne => ?_) fun h0 => ?_
  · have hne' : slot (s.icache e).din s.view k ≠ 0 := fun h0 =>
      hne (UInt32.toNat_inj.mp (hslot.symm.trans h0))
    rw [List.filterMap_cons_some (owns_of_ne hty hne'), hslot, List.cons_append] at hu
    refine hu.bfree.seq fun _ w hw => ⟨hks, ?_⟩
    have := hw.setDin ((w.icache e).din.setAddr k 0)
    rw [hw.din, setAddr_keep_cons _ hk (List.nodup_cons.mp hnd).1] at this
    rw [← setAddr_keep_cons _ hk (List.nodup_cons.mp hnd).1, ← hw.din] at this ⊢
    exact this
  · have h0 : (s.icache e).din.addr k = 0 := not_ne_iff.mp h0
    have hslot0 : slot (s.icache e).din s.view k = 0 := by rw [hslot, h0]; rfl
    rw [List.filterMap_cons_none (owns_of_eq hslot0), keep_cons_of_zero _ h0] at hu
    exact ⟨hks, hu⟩

/-- The loop over the entries of the indirect block. -/
theorem itrunc_indirect_wp (hty : (s.icache e).din.type ≠ 0)
    (hind : (s.icache e).din.addr NDIRECT ≠ 0) (js : List Nat) (hjs : ∀ j ∈ js, j < NINDIRECT)
    (h : Truncating sb T e s m
      ((js.map (NDIRECT + 1 + ·)).filterMap (owns (s.icache e).din s.view) ++ R) t) :
    wp NoDoubleFree (js.forM fun j => do
      if getLE (s.view ((s.icache e).din.addr NDIRECT).toNat) (4 * j) 4 ≠ 0 then
        bfree sb (getLE (s.view ((s.icache e).din.addr NDIRECT).toNat) (4 * j) 4)
      else pure ()) (fun _ => Truncating sb T e s m R) t := by
  refine (wp_forM (I := fun js t => (∀ j ∈ js, j < NINDIRECT) ∧ Truncating sb T e s m
      ((js.map (NDIRECT + 1 + ·)).filterMap (owns (s.icache e).din s.view) ++ R) t) js ?_
    ⟨hjs, h⟩).mono fun _ _ hi => hi.2
  rintro j js u ⟨hlt, hu⟩
  have hslot := slot_indirect (v := s.view) (hlt j List.mem_cons_self) hind
  have hjs : ∀ i ∈ js, i < NINDIRECT := fun i hi => hlt i (List.mem_cons_of_mem j hi)
  rw [← hslot]
  rw [List.map_cons] at hu
  refine wp_ite (fun hne => ?_) fun h0 => ?_
  · rw [List.filterMap_cons_some (owns_of_ne hty hne), List.cons_append] at hu
    exact hu.bfree.mono fun _ w hw => ⟨hjs, hw⟩
  · rw [List.filterMap_cons_none (owns_of_eq (not_ne_iff.mp h0))] at hu
    exact ⟨hjs, hu⟩

/-- `d` with no addresses left. -/
def Dinode.unmapped (d : Dinode) : Dinode := { d with addrs := fun _ => 0 }

theorem setAddr_keep_nil (d : Dinode) : (keep d []).setAddr NDIRECT 0 = d.unmapped := by
  ext1 <;> try rfl
  funext j
  simp only [Dinode.setAddr, keep, Dinode.unmapped, List.not_mem_nil, false_or]
  split <;> rfl

theorem keep_nil_of_zero (h0 : d.addr NDIRECT = 0) : keep d [] = d.unmapped := by
  ext1 <;> try rfl
  funext j
  simp only [keep, Dinode.unmapped, List.not_mem_nil, false_or]
  by_cases hj : j.val = NDIRECT
  · rw [if_pos hj, ← h0, Dinode.addr, dif_pos (by decide)]
    exact congrArg d.addrs (Fin.ext hj)
  · rw [if_neg hj]

theorem itruncIndirect_wp (h : Inv sb X l L T none [] s) (hL : (L e).isSome = true)
    (ht : Truncating sb T e s (keep (s.icache e).din [])
      (((List.range NINDIRECT).map (NDIRECT + 1 + ·) ++ [NDIRECT]).filterMap
        (owns (s.icache e).din s.view)) t) :
    wp NoDoubleFree (itruncIndirect sb e)
      (fun _ => Truncating sb T e s (s.icache e).din.unmapped []) t := by
  have hed := h.edit hL
  have hty : (s.icache e).din.type ≠ 0 := by rw [← hed.mine]; exact hed.typed
  have haddr : (keep (s.icache e).din []).addr NDIRECT = (s.icache e).din.addr NDIRECT := by
    simp [keep, Dinode.addr]
  have hslot := slot_direct (s.icache e).din s.view (le_refl NDIRECT)
  unfold itruncIndirect
  rw [wp_bind, wp_entry, ht.din, haddr]
  rw [List.filterMap_append] at ht
  refine wp_ite (fun hne => ?_) fun h0 => ?_
  · have hne' : slot (s.icache e).din s.view NDIRECT ≠ 0 := fun h0 =>
      hne (UInt32.toNat_inj.mp (hslot.symm.trans h0))
    have hblk : t.view ((s.icache e).din.addr NDIRECT).toNat =
        s.view ((s.icache e).din.addr NDIRECT).toNat := by
      refine ht.data _ ?_
      rw [← hslot]
      exact (h.stored.acct.owned (own_eq_some.mpr
        ⟨hed.inum_lt, hed.typed, by rw [hed.mine], hne'⟩)).1
    rw [wp_bind, wp_bread, hblk]
    refine (itrunc_indirect_wp hty hne _ (fun j hj => List.mem_range.mp hj) ht).seq
      fun _ u hu => ?_
    rw [List.filterMap_cons_some (owns_of_ne hty hne'), hslot] at hu
    refine hu.bfree.seq fun _ w hw => ?_
    have := hw.setDin ((keep (s.icache e).din []).setAddr NDIRECT 0)
    rw [wp_setDin, hw.din]
    rwa [setAddr_keep_nil] at this ⊢
  · have h0 : (s.icache e).din.addr NDIRECT = 0 := not_ne_iff.mp h0
    have hnone : ∀ k, NDIRECT ≤ k → owns (s.icache e).din s.view k = none := by
      intro k hk
      refine owns_of_eq ?_
      unfold slot
      by_cases hk' : k ≤ NDIRECT
      · obtain rfl : k = NDIRECT := by omega
        rw [if_pos le_rfl, h0]
        rfl
      · rw [if_neg hk', if_neg fun hc => hc.2 h0]
    have hentries : ((List.range NINDIRECT).map (NDIRECT + 1 + ·)).filterMap
        (owns (s.icache e).din s.view) = [] := List.filterMap_eq_nil_iff.mpr fun k hk => by
      obtain ⟨j, -, rfl⟩ := List.mem_map.mp hk
      exact hnone _ (by omega)
    rwa [hentries, List.filterMap_cons_none (hnone _ le_rfl), keep_nil_of_zero h0] at ht

/-- `itrunc` frees all blocks of the inode. -/
theorem itrunc_wp (h : Inv sb X l L T none [] s) (hL : (L e).isSome = true) :
    wp NoDoubleFree (itrunc sb e) (fun _ t =>
      Inv sb X l L (update T (s.icache e).inum (s.icache e).din.truncated) none [] t ∧
      SameMem (s.setDin e (s.icache e).din.truncated) t) s := by
  have hed := h.edit hL
  have hty : (s.icache e).din.type ≠ 0 := by rw [← hed.mine]; exact hed.typed
  have h₀ := hed.truncate
  rw [ownedBlocks, slotOrder, List.filterMap_append] at h₀
  refine (itrunc_direct_wp hty _ ⟨List.nodup_range, fun k hk => List.mem_range.mp hk⟩
    (by rw [keep_range]; exact h₀)).seq fun _ t ht => ?_
  refine (itruncIndirect_wp h hL ht).seq fun _ u hu => ?_
  have hu' := hu.setDin (s.icache e).din.truncated
  have hmem := hu'.mem
  rw [wp_bind, wp_setDin, hu.din]
  have hEd : Editing sb X l L e (update T (s.icache e).inum (s.icache e).din.truncated) []
      (u.setDin e (s.icache e).din.truncated) := by
    refine ⟨⟨(hed.inv.handles.setDin ?_).blocks hmem, (hed.inv.cache.setDin ?_).blocks hmem,
      hu'.stored⟩, hL, ?_⟩
    · rfl
    · rfl
    · rw [hu'.din, hmem.icache, proj_setDin Inode.inum fun _ => rfl, update_self]
  exact ⟨hEd.iupdate, hmem.trans (sameMem_iupdate _ _ _)⟩

/-! ### Locks -/

/-- The state after `ilock`: the inode is the one the table has. -/
def State.locked (s : State) (T : Nat → Dinode) (e : EntryId) : State :=
  s.setEntry e { s.icache e with lock := true, valid := true, din := T (s.icache e).inum }

theorem Inv.lock (h : Inv sb X l L T none [] s) (hr : 0 < (s.icache e).ref)
    (hty : (T (s.icache e).inum).type ≠ 0) :
    Inv sb X l (update L e (some (T (s.icache e).inum).type)) T none [] (s.locked T e) := by
  refine ⟨h.handles.reload ?_ fun f hf hw hip => ?_, h.cache.reload ?_ ?_ ?_ ?_ ?_,
    h.stored.reload ?_ ?_ ?_⟩
  · rfl
  · obtain ⟨hv, hd⟩ := h.handles.written f hf hw
    rw [hip] at hv hd
    rw [h.stored.sync e hr hv (by simp)] at hd
    exact ⟨rfl, hd⟩
  · rfl
  · rfl
  · exact fun _ _ => hty
  · rfl
  · exact fun t ht => ⟨hr, rfl, Option.some.inj ht⟩
  · rfl
  · rfl
  · exact fun _ _ => rfl

theorem Cache.unlocked (h : Cache sb L s) (hl : ¬ (s.icache e).lock = true) : L e = none := by
  cases hLe : L e with
  | none => rfl
  | some t => exact absurd (by rw [h.locks e, hLe]; rfl) hl

theorem ilock_spec (h : Inv sb X l L T none [] s)
    (hunused : (s.icache e).ref = 0 → E (.panic "ilock")) (hhang : L e ≠ none → E .hang)
    (hfree : (T (s.icache e).inum).type = 0 → E (.panic "ilock: no type")) :
    wp E (ilock sb e) (fun _ t => t = s.locked T e ∧ L e = none ∧ 0 < (s.icache e).ref ∧
      Inv sb X l (update L e (some (T (s.icache e).inum).type)) T none [] t) s := by
  unfold ilock
  rw [wp_bind, wp_entry]
  refine wp_ite (fun hr => hunused (by omega)) fun hr => wp_ite
    (fun hl => hhang fun hnone => by rw [h.cache.locks, hnone] at hl; cases hl) fun hl => wp_ite (fun hv => ?_) fun hv => ?_
  · have hr : 0 < (s.icache e).ref := by omega
    have hL := h.cache.unlocked hl
    have hsync := h.stored.sync e hr hv (by simp)
    have heq : s.setEntry e { s.icache e with lock := true } = s.locked T e := by
      unfold State.locked
      rw [← hsync, ← hv]
    rw [wp_setEntry, heq]
    exact ⟨rfl, hL, hr, h.lock hr (hsync ▸ h.cache.typed hr hv)⟩
  · have hr : 0 < (s.icache e).ref := by omega
    have hL := h.cache.unlocked hl
    have hdisk : getDinode (s.view (sb.iblock (s.icache e).inum)) (64 * ((s.icache e).inum % IPB)) =
        T (s.icache e).inum := h.stored.ondisk _ (h.cache.inum hr) (by simp)
    rw [wp_bind, wp_bread, wp_bind, wp_setEntry, hdisk]
    exact wp_ite hfree fun hty => ⟨rfl, hL, hr, h.lock hr hty⟩

theorem ilock_wp (h : Inv sb X l L T none [] s) :
    wp NoDoubleFree (ilock sb e) (fun _ t => t = s.locked T e ∧ L e = none ∧ 0 < (s.icache e).ref ∧
      Inv sb X l (update L e (some (T (s.icache e).inum).type)) T none [] t) s :=
  ilock_spec h (fun _ => by simp [NoDoubleFree]) (fun _ => noDoubleFree_hang) fun _ => by simp [NoDoubleFree]

theorem iunlock_spec (h : Inv sb X l L T none [] s)
    (hfree : L e = none → E (.panic "iunlock")) :
    wp E (iunlock e) (fun _ t => t = s.setEntry e { s.icache e with lock := false } ∧
      Inv sb X l (update L e none) T none [] t) s := by
  unfold iunlock
  rw [wp_bind, wp_entry]
  refine wp_ite (fun hbad => hfree ?_) fun _ => ?_
  · cases hL : L e with
    | none => rfl
    | some ty =>
      have hr := (h.cache.held hL).1
      rw [h.cache.locks e, hL] at hbad
      rcases hbad with hc | hc
      · cases hc
      · omega
  rw [wp_setEntry]
  refine ⟨rfl, h.handles.reload ?_ fun f hf hw hip => ?_, h.cache.reload ?_ ?_ ?_ ?_ ?_,
    h.stored.reload ?_ ?_ ?_⟩
  · rfl
  · have := h.handles.written f hf hw
    rwa [hip] at this
  · rfl
  · rfl
  · exact fun hr hv => h.cache.typed hr hv
  · rfl
  · nofun
  · rfl
  · rfl
  · exact fun hr hv => h.stored.sync e hr hv (by simp)

theorem iunlock_wp (h : Inv sb X l L T none [] s) :
    wp NoDoubleFree (iunlock e) (fun _ t => t = s.setEntry e { s.icache e with lock := false } ∧
      Inv sb X l (update L e none) T none [] t) s :=
  iunlock_spec h fun _ => by simp [NoDoubleFree]

/-! ### References -/

/-- The invariant between the operations of a call. -/
def Held (sb : Superblock) (X : Option Pid) (l : List EntryId) (L : EntryId → Option Int16)
    (s : State) : Prop := ∃ T, Inv sb X l L T none [] s

theorem Held.perm {l' : List EntryId} (h : Held sb X l L s) (hl : l.Perm l') : Held sb X l' L s := by
  obtain ⟨T, h⟩ := h
  exact ⟨T, ⟨fun e => by rw [← hl.count_eq]; exact h.handles.refs e, h.handles.idle, h.handles.written⟩,
    h.cache, h.stored⟩

theorem List.count_pos_of_mem {l : List EntryId} (h : e ∈ l) : 0 < l.count e :=
  List.count_pos_iff.mpr h

/-- An entry that the call has a handle on is in use. -/
theorem Held.ref_pos (h : Held sb X l L s) (he : e ∈ l) : 0 < (s.icache e).ref := by
  obtain ⟨T, h⟩ := h
  have h₁ := h.handles.refs e
  have h₂ := List.count_pos_of_mem he
  omega

/-- The last reference goes: the inode is freed on disk. -/
theorem iputFree_wp (h : Held sb X (e :: l) L s) :
    wp NoDoubleFree (iputFree sb e) (fun _ t => Held sb X (e :: l) L t) s := by
  obtain ⟨T, h⟩ := h
  unfold iputFree
  rw [wp_bind, wp_entry]
  refine wp_ite (fun hlast => wp_ite (fun _ => noDoubleFree_hang) fun hl => ?_) fun _ => ⟨T, h⟩
  obtain ⟨href, hv, -⟩ := hlast
  have hr : 0 < (s.icache e).ref := by omega
  have hL := h.cache.unlocked hl
  have hsync := h.stored.sync e hr hv (by simp)
  have hlock := h.lock hr (hsync ▸ h.cache.typed hr hv)
  have heq : s.setEntry e { s.icache e with lock := true } = s.locked T e := by
    unfold State.locked
    rw [← hsync, ← hv]
  rw [wp_bind, wp_setEntry, heq]
  refine (itrunc_wp hlock (by simp)).seq fun _ t ⟨ht, hmem⟩ => ?_
  simp only [wp_bind, wp_setDin, wp_iupdate, wp_entry, wp_setEntry]
  have hic : t.icache = update s.icache e { s.icache e with
      lock := true, valid := true, din := (T (s.icache e).inum).truncated } := by
    rw [hmem.icache]
    simp [State.setDin, State.locked]
  have hte : t.icache e = { s.icache e with
      lock := true, valid := true, din := (T (s.icache e).inum).truncated } := by
    rw [hic, update_self]
  have hlk : (s.locked T e).icache e = { s.icache e with
      lock := true, valid := true, din := T (s.icache e).inum } := by simp [State.locked]
  rw [hlk] at ht
  -- the inode as it goes to disk: no blocks, no type
  let d : Dinode := { (T (s.icache e).inum).truncated with type := 0 }
  have hinum : (t.icache e).inum = (s.icache e).inum := by rw [hte]
  have hi := h.cache.inum hr
  have hacct : Acct sb (update (update T (s.icache e).inum
      (T (s.icache e).inum).truncated) (t.icache e).inum d) t.view (fun b => t.unlogged b ≠ none) [] := by
    refine ht.stored.acct.blank (by rw [hinum]; exact hi) (fun k => ?_) (fun k => ?_) fun hty => ?_
    · rw [hinum, update_self, owns_truncated]
    · exact if_neg fun hc => hc.1 rfl
    · exact absurd rfl hty
  have hst := ((ht.stored.ahead e).table ht.cache (by rw [hte]; exact hr) hacct).mem (d := d)
  have hdin : ((t.setDin e d).icache e).inum = (s.icache e).inum := by
    rw [proj_setDin Inode.inum fun _ => rfl, hinum]
  have hst := hst.iupdate (by rw [hdin]; exact hi) (by rw [hdin, hinum, update_self, din_setDin])
  have hset : t.setEntry e { t.icache e with din := { (t.icache e).din with type := 0 } } =
      t.setDin e d := by
    unfold State.setDin
    rw [hte]
  rw [hset]
  have hmem' : SameMem (s.setEntry e { s.icache e with lock := false, valid := false, din := d })
      (((t.setDin e d).iupdate sb e).setEntry e
        { ((t.setDin e d).iupdate sb e).icache e with valid := false, lock := false }) := by
    refine ⟨?_, hmem.ftable, hmem.proc⟩
    have hui : ((t.setDin e d).iupdate sb e).icache =
        update s.icache e { s.icache e with lock := true, valid := true, din := d } := by
      change update t.icache e { t.icache e with din := d } = _
      rw [hte, hic, update_idem]
    rw [State.setEntry_icache, State.setEntry_icache, hui, update_self, update_idem]
  have hLe : L = update L e none := by
    rw [← hL, update_eq_self]
  refine ⟨_, (h.handles.reload ?_ fun f hf hw hip => ?_).blocks hmem', ?_, hst.reload ?_ ?_ ?_⟩
  · rfl
  · -- no file is open on the inode: this was the last reference
    have hrefs := h.handles.refs e
    have hfile : 0 < files s e := Count.count_pos (i := f) (by simp [File.isOn, hf, hip])
    rw [List.count_cons_self] at hrefs
    omega
  · rw [hLe]
    refine (h.cache.reload ?_ ?_ ?_ ?_ ?_).blocks hmem'
    · rfl
    · rfl
    · exact fun _ hc => Bool.noConfusion hc
    · rfl
    · simp
  · rfl
  · rfl
  · exact fun _ hc => Bool.noConfusion hc

/-- Dropping a handle; an inode that is locked is referenced otherwise too. -/
theorem iput_wp (h : Held sb X (e :: l) L s) (he : L e = none ∨ e ∈ l) :
    wp NoDoubleFree (iput sb e) (fun _ t => Held sb X l L t) s := by
  refine (iputFree_wp h).seq fun _ t ht => ?_
  have hr := ht.ref_pos List.mem_cons_self
  obtain ⟨T, ht⟩ := ht
  rw [wp_bind, wp_entry, wp_setEntry]
  have hrefs := ht.handles.refs e
  rw [List.count_cons_self] at hrefs
  refine ⟨T, ht.handles.setRef ?_ fun e' hne => ?_, ht.cache.setRef hr fun hL => ?_,
    ht.stored.setRef hr⟩
  · rw [List.count_cons_self]
    omega
  · rw [List.count_cons_of_ne (Ne.symm hne)]
  · rcases he with he | he
    · rw [he] at hL
      cases hL
    · have := List.count_pos_of_mem he
      omega

theorem iunlockput_wp (h : Held sb X (e :: l) L s) :
    wp NoDoubleFree (iunlockput sb e) (fun _ t => Held sb X l (update L e none) t) s := by
  obtain ⟨T, h⟩ := h
  refine (iunlock_wp h).seq fun _ t ⟨_, ht⟩ => ?_
  exact iput_wp ⟨T, ht⟩ (.inl (update_self _ _ _))

/-- Another handle on an entry in use. -/
theorem Inv.dup (h : Inv sb X l L T none [] s) (hr : 0 < (s.icache e).ref) :
    Inv sb X (e :: l) L T none [] (s.setRef e ((s.icache e).ref + 1)) := by
  refine ⟨h.handles.setRef ?_ fun e' hne => ?_, h.cache.setRef hr fun _ => Nat.succ_pos _,
    h.stored.setRef hr⟩
  · rw [List.count_cons_self]
    omega
  · rw [List.count_cons_of_ne (Ne.symm hne)]

theorem idup_wp (h : Held sb X l L s) (hr : 0 < (s.icache e).ref) :
    wp NoDoubleFree (idup e) (fun _ t => Held sb X (e :: l) L t) s := by
  obtain ⟨T, h⟩ := h
  exact ⟨T, h.dup hr⟩

variable {inum : Nat}

theorem lookup_some (h : lookup s inum = some e) :
    0 < (s.icache e).ref ∧ (s.icache e).inum = inum := by
  have := List.find?_some h
  simpa using this

theorem lookup_none (h : lookup s inum = none) (hr : 0 < (s.icache e).ref) :
    (s.icache e).inum ≠ inum := by
  have := List.find?_eq_none.mp h e (List.mem_finRange e)
  simpa [hr] using this

/-- A free entry is taken for an inode that is not in the cache. -/
theorem Inv.recycle (h : Inv sb X l L T none [] s) (hi : inum < sb.ninodes)
    (hnone : lookup s inum = none) (hr : (s.icache e).ref = 0) :
    Inv sb X (e :: l) L T none []
      (s.setEntry e { s.icache e with inum := inum, ref := 1, valid := false }) := by
  have hrefs := h.handles.refs e
  have hL : L e = none := by
    cases hLe : L e with
    | none => rfl
    | some t =>
      have := (h.cache.held hLe).1
      omega
  refine ⟨⟨fun e' => ?_, h.handles.idle, fun f hf hw => ?_⟩, ⟨fun {e₁ e₂} h₁ h₂ heq => ?_, fun {e'} h' => ?_,
    fun {e'} h' hv => ?_, fun e' => ?_, fun {e' t} ht => ?_⟩, fun e' h' hv _ => ?_,
    fun i hi _ => h.stored.ondisk i hi (by simp), h.stored.acct, h.stored.clean⟩
  · change _ = cwds s X e' + files s e' + (e :: l).count e'
    by_cases he : e' = e
    · subst he
      rw [List.count_cons_self, State.setEntry_icache, update_self]
      show 1 = _
      omega
    · rw [List.count_cons_of_ne (Ne.symm he), State.setEntry_icache, update_of_ne he]
      exact h.handles.refs e'
  · have hne : (s.ftable f).ip ≠ e := by
      intro hip
      have hfile : 0 < files s e := Count.count_pos (by
        rw [File.isOn, show (s.ftable f).type = .inode from hf, hip]; simp)
      omega
    change (update s.icache e _ (s.ftable f).ip).valid = true ∧
      (update s.icache e _ (s.ftable f).ip).din.type ≠ T_DIR
    rw [update_of_ne hne]
    exact h.handles.written f hf hw
  · by_cases he₁ : e₁ = e
    · by_cases he₂ : e₂ = e
      · rw [he₁, he₂]
      · subst he₁
        simp only [State.setEntry_icache, update_self, update_of_ne he₂] at h₂ heq
        exact absurd heq.symm (lookup_none hnone h₂)
    · by_cases he₂ : e₂ = e
      · subst he₂
        simp only [State.setEntry_icache, update_self, update_of_ne he₁] at h₁ heq
        exact absurd heq (lookup_none hnone h₁)
      · simp only [State.setEntry_icache, update_of_ne he₁, update_of_ne he₂] at h₁ h₂ heq
        exact h.cache.uniq h₁ h₂ heq
  · by_cases he : e' = e
    · subst he
      rw [State.setEntry_icache, update_self]
      exact hi
    · rw [State.setEntry_icache, update_of_ne he] at h' ⊢
      exact h.cache.inum h'
  · by_cases he : e' = e
    · subst he
      rw [State.setEntry_icache, update_self] at hv
      cases hv
    · rw [State.setEntry_icache, update_of_ne he] at h' hv ⊢
      exact h.cache.typed h' hv
  · by_cases he : e' = e
    · subst he
      rw [State.setEntry_icache, update_self]
      exact h.cache.locks e'
    · rw [State.setEntry_icache, update_of_ne he]
      exact h.cache.locks e'
  · have he : e' ≠ e := by
      rintro rfl
      rw [hL] at ht
      cases ht
    rw [State.setEntry_icache, update_of_ne he]
    exact h.cache.held ht
  · by_cases he : e' = e
    · subst he
      rw [State.setEntry_icache, update_self] at hv
      cases hv
    · rw [State.setEntry_icache, update_of_ne he] at h' hv ⊢
      exact h.stored.sync e' h' hv (by simp)

theorem iget_wp (h : Inv sb X l L T none [] s) (hi : inum < sb.ninodes) :
    wp NoDoubleFree (iget inum) (fun e t => Inv sb X (e :: l) L T none [] t ∧
      (t.icache e).inum = inum) s := by
  unfold iget
  rw [wp_bind, wp_get]
  cases hlook : lookup s inum with
  | some e =>
    obtain ⟨hr, hinum⟩ := lookup_some hlook
    refine ⟨h.dup hr, ?_⟩
    exact (proj_setRef Inode.inum (fun _ => rfl) e).trans hinum
  | none =>
    cases hempty : empty s with
    | none => exact wp_panic (by decide)
    | some e =>
      have hr : (s.icache e).ref = 0 := by simpa using List.find?_some hempty
      refine ⟨h.recycle hi hlook hr, ?_⟩
      change (update s.icache e _ e).inum = inum
      rw [update_self]

theorem owns_zero (ty : Int16) (v : Disk) (k : Nat) : owns { Dinode.zero with type := ty } v k = none := by
  have haddr : ∀ j, Dinode.addr { Dinode.zero with type := ty } j = 0 := fun j => by
    unfold Dinode.addr
    split <;> rfl
  refine if_neg fun hc => hc.2 ?_
  unfold slot
  rw [haddr, haddr]
  simp

/-- An inode that is free on disk becomes a new inode. -/
theorem Inv.ialloc (h : Inv sb X l L T none [] s) {ty : Int16} (hi : inum < sb.ninodes)
    (hfree : (T inum).type = 0) :
    Inv sb X l L (update T inum { Dinode.zero with type := ty }) none []
      (s.logWrite (sb.iblock inum) (putDinode (s.view (sb.iblock inum)) (64 * (inum % IPB))
        { Dinode.zero with type := ty })) := by
  have hview : (s.logWrite (sb.iblock inum) (putDinode (s.view (sb.iblock inum)) (64 * (inum % IPB))
      { Dinode.zero with type := ty })).view = putDinodeAt sb s.view inum { Dinode.zero with type := ty } :=
    view_logWrite _ _ _
  have hdata : ∀ c, sb.nmeta ≤ c →
      putDinodeAt sb s.view inum { Dinode.zero with type := ty } c = s.view c :=
    fun c hc => putDinodeAt_data hi hc _
  have hblank : Acct sb (update T inum { Dinode.zero with type := ty }) s.view
      (fun b => s.unlogged b ≠ none) [] :=
    h.stored.acct.blank hi (fun k => if_neg fun hc => hc.1 hfree) (owns_zero ty s.view) fun _ => rfl
  refine ⟨h.handles.blocks (sameMem_logWrite _ _ _), h.cache.blocks (sameMem_logWrite _ _ _),
    fun e hr hv _ => ?_, fun i hi' _ => ?_, ?_, fun c hc => ?_⟩
  · -- no loaded inode is free
    have hsync := h.stored.sync e hr hv (by simp)
    have hne : (s.icache e).inum ≠ inum := by
      intro heq
      refine h.cache.typed hr hv ?_
      rw [hsync, heq, hfree]
    rw [State.logWrite_icache, update_of_ne hne, hsync]
  · rw [hview, dinodeAt_putDinodeAt]
    by_cases hii : i = inum
    · rw [if_pos hii, hii, update_self]
    · rw [if_neg hii, update_of_ne hii]
      exact h.stored.ondisk i hi' (by simp)
  · rw [hview]
    exact hblank.congr (fun _ _ => ⟨rfl, rfl⟩) (fun _ _ => rfl) (fun c _ => bitAt_putDinodeAt hi _)
      (fun i a ha => hdata a (hblank.owned ha).1)
      fun i k a ha hsound => hsound.mono (fun hu => (unlogged_of_logWrite hu).1)
        (hdata a (hblank.owned ha).1)
  · by_contra hc'
    exact (unlogged_of_logWrite hc').1 (h.stored.clean c hc)

theorem ialloc_wp (h : Held sb X l L s) (ty : Int16) :
    wp NoDoubleFree (ialloc sb ty) (fun e t => ∃ T, Inv sb X (e :: l) L T none [] t ∧
      (T (t.icache e).inum).type = ty) s := by
  obtain ⟨T, h⟩ := h
  refine (wp_scan (I := (· = s)) (Q := fun e t => ∃ T, Inv sb X (e :: l) L T none [] t ∧
      (T (t.icache e).inum).type = ty) _ ?_ rfl).seq ?_
  · rintro inum hmem t rfl
    have hi : inum < sb.ninodes := by
      have := List.mem_range'_1.mp hmem
      omega
    rw [wp_bind, wp_bread]
    refine wp_ite (fun hfree => ?_) fun _ => rfl
    have hT : getDinode (t.view (sb.iblock inum)) (64 * (inum % IPB)) = T inum :=
      h.stored.ondisk inum hi (by simp)
    rw [hT] at hfree
    rw [wp_bind, wp_logWrite]
    refine (iget_wp (h.ialloc hi hfree) hi).seq fun e u ⟨hu, hinum⟩ => ?_
    exact ⟨_, hu, by rw [hinum, update_self]⟩
  · intro r t ht
    cases r with
    | some e => exact ht
    | none => exact wp_panic (by decide)

end Xv6.Fs
