import Xv6.Kernel.Fs.IcacheSafe

/-! The sole reference.

    `iput` tests `ref == 1` under `icache.lock` and then frees the inode without it. Nobody else gets
    a reference until the inode is free on the disk, if `iget` is called only for inodes that are
    allocated, and neither being freed nor being created. A lookup of `..` in a removed directory does
    not keep to this:

    ```
    unlink A    iput(A): ref = 1, nlink = 0 ──► itrunc ─► type = 0 ─► drop
    open ..                    iget(A): ref = 2 ─► ilock(A) … panic("ilock: no type")
    ``` -/

namespace Xv6.Icache
open Fs Xv6.Count Update Function

variable {np : Nat} {s t : State np} {p : Fin np} {e : EntryId} {ninodes : Nat}

/-- The process is inside `iput` of `e`, and the inode is still allocated on the disk. -/
def PC.live (e : EntryId) : PC → Bool
  | .iputTest e' | .iputTrunc e' | .iputType e' => e' == e
  | _ => false

/-- It is freeing the inode. -/
def PC.truncs (e : EntryId) : PC → Bool
  | .iputTrunc e' | .iputType e' => e' == e
  | _ => false

variable {x : PC}

theorem PC.live_of_truncs (h : x.truncs e = true) : x.live e = true := by
  cases x <;> simp_all [PC.truncs, PC.live]

theorem PC.puts_of_live (h : x.live e = true) : x.puts e = true := by
  cases x <;> simp_all [PC.live, PC.puts]

/-- The inode is allocated, and neither being created nor being truncated. -/
def Nameable (s : State np) (dev inum : Nat) : Prop :=
  (s.disk dev inum).type ≠ 0 ∧ (∀ q, s.pc q ≠ .iallocGet dev inum) ∧
    ∀ q e, (s.pc q).truncs e = true → ¬ ((s.entry e).dev = dev ∧ (s.entry e).inum = inum)

/-- Besides `ialloc`, callers of `iget` ask for such inodes only. -/
def named (s : State np) : Act np → Prop
  | .igetHit p dev inum _ | .igetRecycle p dev inum _ => s.pc p = .idle → Nameable s dev inum
  | _ => True

instance (s : State np) (dev inum : Nat) : Decidable (Nameable s dev inum) :=
  inferInstanceAs (Decidable (_ ∧ _ ∧ _))

instance (s : State np) (a : Act np) : Decidable (named s a) := by
  apply @Act.casesOn _ (fun a => Decidable (named s a)) a <;> intros <;> unfold named <;> infer_instance

/-- Somebody has a reference, and the inode is not yet free. -/
def Live (s : State np) (e : EntryId) : Prop := 1 ≤ s.out e ∨ ∃ q, (s.pc q).live e = true

structure SoleInv (s : State np) : Prop where
  live : ∀ e, Live s e → (s.onDisk e).type ≠ 0
  scan : ∀ p dev type inum, s.pc p = .iallocScan dev type inum → type ≠ 0
  alloc : ∀ p dev inum, s.pc p = .iallocGet dev inum → (s.disk dev inum).type ≠ 0 ∧
    ∀ e, 0 < (s.entry e).ref → (s.entry e).dev = dev → (s.entry e).inum = inum → ¬ Live s e
  one : ∀ p q dev inum, s.pc p = .iallocGet dev inum → s.pc q = .iallocGet dev inum → p = q
  sole : ∀ p e, (s.pc p).truncs e = true → (s.entry e).ref = 1

theorem EntryInv.ref_pos_of_live (h : EntryInv s e) (hl : Live s e) : 0 < (s.entry e).ref := by
  rcases hl with ho | ⟨q, hq⟩
  · exact h.ref_pos ho
  · have := h.exact
    have := count_pos (PC.puts_of_live hq)
    omega

/-- Steps that make nothing live. -/
theorem SoleInv.quiet (h : SoleInv s) (hpc : t.pc = update s.pc p x)
    (hlabel : ∀ e, (t.entry e).dev = (s.entry e).dev ∧ (t.entry e).inum = (s.entry e).inum)
    (href : ∀ e, (t.entry e).ref ≤ (s.entry e).ref)
    (hsole : ∀ q e, q ≠ p → (s.pc q).truncs e = true → (t.entry e).ref = 1)
    (hout : ∀ e, t.out e ≤ s.out e)
    (htype : ∀ dev inum, (t.disk dev inum).type = (s.disk dev inum).type)
    (hlive : ∀ e, x.live e = true → Live s e) (htrunc : ∀ e, x.truncs e = true → (t.entry e).ref = 1)
    (hscan : ∀ dev type inum, x = .iallocScan dev type inum → type ≠ 0)
    (hget : ∀ dev inum, x ≠ .iallocGet dev inum) : SoleInv t := by
  have hself : t.pc p = x := by rw [hpc, update_self]
  have hq : ∀ q, q ≠ p → t.pc q = s.pc q := fun q hq => by rw [hpc, update_of_ne hq]
  have hL : ∀ e, Live t e → Live s e := by
    rintro e (ho | ⟨q, hl⟩)
    · exact .inl (ho.trans (hout e))
    · by_cases hqp : q = p
      · subst hqp; exact hlive e (by rwa [hself] at hl)
      · exact .inr ⟨q, by rwa [hq q hqp] at hl⟩
  refine ⟨fun e he => ?_, fun q dev type inum hx => ?_, fun q dev inum hx => ?_, fun q r dev inum hx hy => ?_,
    fun q e hx => ?_⟩
  · rw [State.onDisk, (hlabel e).1, (hlabel e).2, htype]
    exact h.live e (hL e he)
  · by_cases hqp : q = p
    · subst hqp; exact hscan dev type inum (by rwa [hself] at hx)
    · exact h.scan q dev type inum (by rwa [hq q hqp] at hx)
  · by_cases hqp : q = p
    · subst hqp; exact absurd (hself.symm.trans hx) (hget dev inum)
    · obtain ⟨ht, hno⟩ := h.alloc q dev inum (by rwa [hq q hqp] at hx)
      refine ⟨by rwa [htype], fun e hr hd hi hl => ?_⟩
      exact hno e (hr.trans_le (href e)) ((hlabel e).1 ▸ hd) ((hlabel e).2 ▸ hi) (hL e hl)
  · have hne : ∀ q, t.pc q = .iallocGet dev inum → q ≠ p := by
      rintro q hx rfl
      exact hget dev inum (hself.symm.trans hx)
    have hx' := hx
    have hy' := hy
    rw [hq q (hne q hx)] at hx'
    rw [hq r (hne r hy)] at hy'
    exact h.one q r dev inum hx' hy'
  · by_cases hqp : q = p
    · subst hqp; exact htrunc e (by rwa [hself] at hx)
    · exact hsole q e hqp (by rwa [hq q hqp] at hx)

/-- Steps that change no count. -/
theorem SoleInv.walk (h : SoleInv s) (hpc : t.pc = update s.pc p x)
    (hentry : ∀ e, (t.entry e).dev = (s.entry e).dev ∧ (t.entry e).inum = (s.entry e).inum ∧
      (t.entry e).ref = (s.entry e).ref)
    (hout : t.out = s.out) (htype : ∀ dev inum, (t.disk dev inum).type = (s.disk dev inum).type)
    (hlive : ∀ e, x.live e = true → (s.pc p).live e = true)
    (htrunc : ∀ e, x.truncs e = true → (s.entry e).ref = 1)
    (hscan : ∀ dev type inum, x = .iallocScan dev type inum → type ≠ 0)
    (hget : ∀ dev inum, x ≠ .iallocGet dev inum) : SoleInv t :=
  h.quiet hpc (fun e => ⟨(hentry e).1, (hentry e).2.1⟩) (fun e => (hentry e).2.2.le)
    (fun q e _ ht => (hentry e).2.2.trans (h.sole q e ht)) (fun e => by rw [hout]) htype
    (fun e hx => .inr ⟨p, hlive e hx⟩) (fun e hx => (hentry e).2.2.trans (htrunc e hx)) hscan hget

variable {i : Entry np}

theorem entry_keep (hd : i.dev = (s.entry e).dev) (hi : i.inum = (s.entry e).inum)
    (hr : i.ref = (s.entry e).ref) (e' : EntryId) :
    (update s.entry e i e').dev = (s.entry e').dev ∧
      (update s.entry e i e').inum = (s.entry e').inum ∧
      (update s.entry e i e').ref = (s.entry e').ref :=
  ⟨proj_update Entry.dev hd e', proj_update Entry.inum hi e', proj_update Entry.ref hr e'⟩

/-- A store that keeps the type. -/
theorem store_type {d : Dinode} (hd : d.type = (s.onDisk e).type) (dev inum : Nat) :
    ((s.store p x e d).disk dev inum).type = (s.disk dev inum).type := by
  simp only [State.store, write_apply]
  split
  · rename_i hlab
    rw [hd, State.onDisk, hlab.1, hlab.2]
  · rfl

/-- A reference given back: `iput` ends. -/
theorem SoleInv.drop (h : SoleInv s) (he : EntryInv s e) (hp : (s.pc p).puts e = true)
    (hpc : t.pc = update s.pc p .idle)
    (hentry : t.entry = update s.entry e { s.entry e with ref := (s.entry e).ref - 1 })
    (hout : t.out = s.out) (hdisk : t.disk = s.disk) : SoleInv t := by
  have href : ∀ e', (t.entry e').ref ≤ (s.entry e').ref := by
    intro e'
    rw [hentry]
    by_cases hee : e' = e
    · subst hee; simp
    · simp [hee]
  refine h.quiet hpc (fun e' => ?_) href (fun q e' hq ht => ?_) (fun e => by rw [hout])
    (fun _ _ => by rw [hdisk]) (by rintro _ ⟨⟩) (by rintro _ ⟨⟩) (by simp) (by simp)
  · rw [hentry]
    exact ⟨by apply proj_update Entry.dev; rfl, by apply proj_update Entry.inum; rfl⟩
  · rw [hentry]
    by_cases hee : e' = e
    · -- the process that frees the inode has the only reference
      subst hee
      have := (he.alone (PC.puts_of_live (PC.live_of_truncs ht)) (h.sole q e' ht)).2 p (Ne.symm hq)
      simp [hp] at this
    · rw [update_of_ne hee]
      exact h.sole q e' ht

/-- A new reference, to an inode that is neither being freed nor being created. -/
theorem SoleInv.gain (h : SoleInv s) (hpc : t.pc = update s.pc p .idle)
    (hentry : t.entry = update s.entry e i)
    (hout : ∀ e', e' ≠ e → t.out e' = s.out e') (hdisk : t.disk = s.disk)
    (htype : (s.disk i.dev i.inum).type ≠ 0)
    (hget : ∀ q, q ≠ p → s.pc q ≠ .iallocGet i.dev i.inum)
    (htrunc : ∀ q, (s.pc q).truncs e = false) : SoleInv t := by
  have hself : t.entry e = i := by rw [hentry, update_self]
  have hother : ∀ e', e' ≠ e → t.entry e' = s.entry e' := fun e' h' => by
    rw [hentry, update_of_ne h']
  have hpid : t.pc p = .idle := by rw [hpc, update_self]
  have hq : ∀ q, q ≠ p → t.pc q = s.pc q := fun q hq => by rw [hpc, update_of_ne hq]
  have hne : ∀ q x, t.pc q = x → x ≠ .idle → q ≠ p := by
    rintro q x hx hi rfl
    exact hi (hx.symm.trans hpid)
  have hL : ∀ e', e' ≠ e → Live t e' → Live s e' := by
    rintro e' hee (ho | ⟨q, hl⟩)
    · exact .inl (by rwa [hout e' hee] at ho)
    · have hqp : q ≠ p := by rintro rfl; simp [hpid, PC.live] at hl
      exact .inr ⟨q, by rwa [hq q hqp] at hl⟩
  refine ⟨fun e' he => ?_, fun q dev type inum hx => ?_, fun q dev inum hx => ?_, fun q r dev inum hx hy => ?_,
    fun q e' hx => ?_⟩
  · rw [State.onDisk, hdisk]
    by_cases hee : e' = e
    · subst hee; rw [hself]; exact htype
    · rw [hother e' hee]
      exact h.live e' (hL e' hee he)
  · have hqp := hne q _ hx (by simp)
    exact h.scan q dev type inum (by rwa [hq q hqp] at hx)
  · have hqp := hne q _ hx (by simp)
    rw [hq q hqp] at hx
    obtain ⟨ht, hno⟩ := h.alloc q dev inum hx
    refine ⟨by rwa [hdisk], fun e' hr hd hi hl => ?_⟩
    by_cases hee : e' = e
    · subst hee
      rw [hself] at hd hi
      exact hget q hqp (by rw [hx, hd, hi])
    · rw [hother e' hee] at hr hd hi
      exact hno e' hr hd hi (hL e' hee hl)
  · have hqp := hne q _ hx (by simp)
    have hrp := hne r _ hy (by simp)
    rw [hq q hqp] at hx
    rw [hq r hrp] at hy
    exact h.one q r dev inum hx hy
  · have hqp : q ≠ p := by rintro rfl; simp [hpid, PC.truncs] at hx
    rw [hq q hqp] at hx
    have hee : e' ≠ e := by rintro rfl; simp [htrunc q] at hx
    rw [hother e' hee]
    exact h.sole q e' hx

theorem SoleInv.idup (h : SoleInv s) (he : EntryInv s e) (hg : guard ninodes s (.idup p e)) :
    SoleInv (next s (.idup p e)) := by
  obtain ⟨hp, hout⟩ := hg
  have hlive : Live s e := .inl hout
  refine h.gain rfl rfl (fun e' hee => by simp [next, hee]) rfl (h.live e hlive)
    (fun q _ hq => (h.alloc q _ _ hq).2 e (he.ref_pos hout) rfl rfl hlive) (fun q => ?_)
  rw [← Bool.not_eq_true]
  intro ht
  have := (he.alone (PC.puts_of_live (PC.live_of_truncs ht)) (h.sole q e ht)).1
  omega

variable {dev inum : Nat}

/-- Whoever calls `iget`, the inode is allocated and nobody else frees or creates it. -/
theorem SoleInv.nameable (h : SoleInv s)
    (hp : s.pc p = .idle ∨ s.pc p = .iallocGet dev inum) (hok : s.pc p = .idle → Nameable s dev inum) :
    (s.disk dev inum).type ≠ 0 ∧ (∀ q, q ≠ p → s.pc q ≠ .iallocGet dev inum) ∧
      ∀ q e, (s.pc q).truncs e = true → 0 < (s.entry e).ref → (s.entry e).dev = dev →
        (s.entry e).inum ≠ inum := by
  rcases hp with hp | hp
  · obtain ⟨htype, hget, htrunc⟩ := hok hp
    exact ⟨htype, fun q _ => hget q, fun q e ht _ hd hi => htrunc q e ht ⟨hd, hi⟩⟩
  · obtain ⟨htype, hno⟩ := h.alloc p dev inum hp
    exact ⟨htype, fun q hq hx => hq (h.one q p dev inum hx hp),
      fun q e ht hr hd hi => hno e hr hd hi (.inr ⟨q, PC.live_of_truncs ht⟩)⟩

theorem SoleInv.igetHit (h : SoleInv s) (hg : guard ninodes s (.igetHit p dev inum e))
    (hok : named s (.igetHit p dev inum e)) : SoleInv (next s (.igetHit p dev inum e)) := by
  obtain ⟨hp, hlook⟩ := hg
  have hfound := List.find?_some hlook
  simp only [Bool.and_eq_true, decide_eq_true_eq, beq_iff_eq] at hfound
  obtain ⟨⟨hr, rfl⟩, rfl⟩ := hfound
  obtain ⟨htype, hget, htrunc⟩ := h.nameable hp hok
  refine h.gain rfl rfl (fun e' hee => by simp [next, hee]) rfl htype hget (fun q => ?_)
  rw [← Bool.not_eq_true]
  exact fun ht => htrunc q e ht hr rfl rfl

theorem SoleInv.igetRecycle (h : SoleInv s)
    (hg : guard ninodes s (.igetRecycle p dev inum e)) (hok : named s (.igetRecycle p dev inum e)) :
    SoleInv (next s (.igetRecycle p dev inum e)) := by
  obtain ⟨hp, -, hempty⟩ := hg
  have hz : (s.entry e).ref = 0 := by simpa using List.find?_some hempty
  obtain ⟨htype, hget, -⟩ := h.nameable hp hok
  refine h.gain rfl rfl (fun e' hee => by simp [next, hee]) rfl htype hget (fun q => ?_)
  rw [← Bool.not_eq_true]
  intro ht
  have := h.sole q e ht
  omega

/-- Type 0 reaches the disk: the entry is not live any more. -/
theorem SoleInv.iputType (h : SoleInv s) (hi : Inv s) (hp : s.pc p = .iputType e) :
    SoleInv (next s (.iputType p e)) := by
  have he := hi.entry e
  have hputs : (s.pc p).puts e = true := by simp [hp, PC.puts]
  have htr : (s.pc p).truncs e = true := by simp [hp, PC.truncs]
  have hpos : 0 < (s.entry e).ref := by rw [h.sole p e htr]; exact Nat.one_pos
  obtain ⟨hout, hone⟩ := he.alone hputs (h.sole p e htr)
  have hpid : (next s (.iputType p e)).pc p = .iputInvalid e := by simp [next, State.store, State.set]
  have hq : ∀ q, q ≠ p → (next s (.iputType p e)).pc q = s.pc q := fun q hq => by
    simp [next, State.store, State.set, hq]
  have hentry : ∀ e', ((next s (.iputType p e)).entry e').dev = (s.entry e').dev ∧
      ((next s (.iputType p e)).entry e').inum = (s.entry e').inum ∧
      ((next s (.iputType p e)).entry e').ref = (s.entry e').ref := entry_keep rfl rfl rfl
  have hdisk : ∀ dev inum, ¬ (dev = (s.entry e).dev ∧ inum = (s.entry e).inum) →
      (next s (.iputType p e)).disk dev inum = s.disk dev inum := fun dev inum hne =>
    (write_apply _ _ _ _ _ _).trans (if_neg hne)
  have hL : ∀ e', Live (next s (.iputType p e)) e' → e' ≠ e ∧ Live s e' := by
    rintro e' (ho | ⟨q, hl⟩)
    · have ho : 1 ≤ s.out e' := ho
      refine ⟨?_, .inl ho⟩
      rintro rfl
      omega
    · have hqp : q ≠ p := by rintro rfl; simp [hpid, PC.live] at hl
      rw [hq q hqp] at hl
      refine ⟨?_, .inr ⟨q, hl⟩⟩
      rintro rfl
      have := hone q hqp
      simp [PC.puts_of_live hl] at this
  refine ⟨fun e' hl => ?_, fun q dev type inum hx => ?_, fun q dev inum hx => ?_, fun q r dev inum hx hy => ?_,
    fun q e' hx => ?_⟩
  · obtain ⟨hee, hl⟩ := hL e' hl
    rw [State.onDisk, (hentry e').1, (hentry e').2.1, hdisk]
    · exact h.live e' hl
    · exact fun hlab => hee (hi.unique e' e ((hi.entry e').ref_pos_of_live hl) hpos hlab.1 hlab.2)
  · have hqp : q ≠ p := by rintro rfl; simp [hpid] at hx
    exact h.scan q dev type inum (by rwa [hq q hqp] at hx)
  · have hqp : q ≠ p := by rintro rfl; simp [hpid] at hx
    rw [hq q hqp] at hx
    obtain ⟨ht, hno⟩ := h.alloc q dev inum hx
    refine ⟨?_, fun e' hr hd hn hl => ?_⟩
    · rw [hdisk]
      · exact ht
      · exact fun hlab => hno e hpos hlab.1.symm hlab.2.symm (.inr ⟨p, PC.live_of_truncs htr⟩)
    · exact hno e' ((hentry e').2.2 ▸ hr) ((hentry e').1 ▸ hd) ((hentry e').2.1 ▸ hn) (hL e' hl).2
  · have hqp : q ≠ p := by rintro rfl; simp [hpid] at hx
    have hrp : r ≠ p := by rintro rfl; simp [hpid] at hy
    exact h.one q r dev inum (by rwa [hq q hqp] at hx) (by rwa [hq r hrp] at hy)
  · have hqp : q ≠ p := by rintro rfl; simp [hpid, PC.truncs] at hx
    rw [(hentry e').2.2]
    exact h.sole q e' (by rwa [hq q hqp] at hx)

/-- `ialloc` takes an inode that nobody has. -/
theorem SoleInv.iallocTake (h : SoleInv s) {type : Int16}
    (hg : guard ninodes s (.iallocTake p dev type inum)) : SoleInv (next s (.iallocTake p dev type inum)) := by
  obtain ⟨hp, -, hfree⟩ := hg
  have htype : type ≠ 0 := h.scan p dev type inum hp
  have hpid : (next s (.iallocTake p dev type inum)).pc p = .iallocGet dev inum := by simp [next]
  have hq : ∀ q, q ≠ p → (next s (.iallocTake p dev type inum)).pc q = s.pc q := fun q hq => by
    simp [next, hq]
  have hdisk : ∀ dev' inum', (s.disk dev' inum').type ≠ 0 →
      ((next s (.iallocTake p dev type inum)).disk dev' inum').type ≠ 0 := by
    intro dev' inum' ht
    simp only [next, write_apply]
    split
    · exact htype
    · exact ht
  have hL : ∀ e', Live (next s (.iallocTake p dev type inum)) e' → Live s e' := by
    rintro e' (ho | ⟨q, hl⟩)
    · exact .inl ho
    · have hqp : q ≠ p := by rintro rfl; simp [hpid, PC.live] at hl
      exact .inr ⟨q, by rwa [hq q hqp] at hl⟩
  have hnone : ∀ q, q ≠ p → s.pc q ≠ .iallocGet dev inum := fun q _ hx => (h.alloc q dev inum hx).1 hfree
  refine ⟨fun e' hl => ?_, fun q dev' type' inum' hx => ?_, fun q dev' inum' hx => ?_,
    fun q r dev' inum' hx hy => ?_, fun q e' hx => ?_⟩
  · exact hdisk _ _ (h.live e' (hL e' hl))
  · have hqp : q ≠ p := by rintro rfl; simp [hpid] at hx
    exact h.scan q dev' type' inum' (by rwa [hq q hqp] at hx)
  · by_cases hqp : q = p
    · subst hqp
      rw [hpid, PC.iallocGet.injEq] at hx
      obtain ⟨rfl, rfl⟩ := hx
      refine ⟨?_, fun e' _ hd hn hl => ?_⟩
      · simp [next, write_apply, htype]
      · refine h.live e' (hL e' hl) ?_
        have hd : (s.entry e').dev = dev := hd
        have hn : (s.entry e').inum = inum := hn
        rw [State.onDisk, hd, hn]
        exact hfree
    · rw [hq q hqp] at hx
      obtain ⟨ht, hno⟩ := h.alloc q dev' inum' hx
      exact ⟨hdisk _ _ ht, fun e' hr hd hn hl => hno e' hr hd hn (hL e' hl)⟩
  · by_cases hqp : q = p
    · by_cases hrp : r = p
      · rw [hqp, hrp]
      · subst hqp
        rw [hpid, PC.iallocGet.injEq] at hx
        obtain ⟨rfl, rfl⟩ := hx
        exact absurd (by rwa [hq r hrp] at hy) (hnone r hrp)
    · by_cases hrp : r = p
      · subst hrp
        rw [hpid, PC.iallocGet.injEq] at hy
        obtain ⟨rfl, rfl⟩ := hy
        exact absurd (by rwa [hq q hqp] at hx) (hnone q hqp)
      · exact h.one q r dev' inum' (by rwa [hq q hqp] at hx) (by rwa [hq r hrp] at hy)
  · have hqp : q ≠ p := by rintro rfl; simp [hpid, PC.truncs] at hx
    exact h.sole q e' (by rwa [hq q hqp] at hx)

theorem soleInv_step {a : Act np} (h : SoleInv s) (hi : Inv s) (hg : guard ninodes s a) (hok : named s a) :
    SoleInv (next s a) := by
  cases a
  case idup p e => exact h.idup (hi.entry e) hg
  case igetHit => exact h.igetHit hg hok
  case igetRecycle => exact h.igetRecycle hg hok
  case iputKeep p e =>
    have hp := hg.1
    exact h.drop (hi.entry e) (by simp [hp, PC.puts]) rfl rfl rfl rfl
  case iputDrop p e =>
    have hp : s.pc p = .iputDrop e := hg
    exact h.drop (hi.entry e) (by simp [hp, PC.puts]) rfl rfl rfl rfl
  case iputType => exact h.iputType hi hg
  case iallocTake => exact h.iallocTake hg
  case iput p e =>
    obtain ⟨hp, hout, -⟩ := hg
    refine h.quiet rfl (fun _ => ⟨rfl, rfl⟩) (fun _ => le_rfl)
      (fun q e' _ ht => h.sole q e' ht) (fun e' => ?_) (fun _ _ => rfl) (fun e' hx => ?_) (by rintro _ ⟨⟩) (by simp) (by simp)
    · by_cases hee : e' = e
      · subst hee; simp [next]
      · simp [next, hee]
    · simp only [PC.live, beq_iff_eq] at hx
      exact hx ▸ .inl hout
  case iputFree p e =>
    obtain ⟨hp, hlast, -⟩ := hg
    refine h.walk rfl (entry_keep rfl rfl rfl) rfl (fun _ _ => rfl)
      (by simp [hp, PC.live]) (fun e' hx => ?_) (by simp) (by simp)
    simp only [PC.truncs, beq_iff_eq] at hx
    exact hx ▸ hlast.1
  case iputTrunc p e =>
    have hp : s.pc p = .iputTrunc e := hg
    have he := hi.entry e
    have hl := he.freeing p (by simp [hp, PC.frees])
    refine h.walk rfl (entry_keep rfl rfl rfl) rfl
      (store_type (he.coherent_of_lock hl (by simp [hp]) (by simp [hp])).1.symm)
      (by simp [hp, PC.live]) (fun e' hx => h.sole p e' ?_) (by simp) (by simp)
    rwa [hp]
  case iupdate p e =>
    obtain ⟨hp, hl⟩ := hg
    exact h.walk rfl (entry_keep rfl rfl rfl) rfl
      (store_type ((hi.entry e).coherent_of_lock hl (by simp [hp]) (by simp [hp])).1.symm)
      (by simp [PC.live]) (by simp [PC.truncs]) (by rintro _ _ _ ⟨⟩) (by rintro _ _ ⟨⟩)
  case ilockLoad p e =>
    cases hv : (s.entry e).valid
    · refine h.walk (p := p) (x := .idle) (by simp [next, hv, State.set]) ?_ (by simp [next, hv, State.set])
        (fun _ _ => by simp [next, hv, State.set]) (by rintro _ ⟨⟩) (by rintro _ ⟨⟩) (by simp) (by simp)
      simp only [next, hv]
      exact entry_keep rfl rfl rfl
    · exact h.walk (p := p) (x := .idle) (by simp [next, hv]) (fun _ => by simp [next, hv])
        (by simp [next, hv]) (fun _ _ => by simp [next, hv]) (by simp [PC.live]) (by simp [PC.truncs]) (by rintro _ _ _ ⟨⟩) (by rintro _ _ ⟨⟩)
  case ialloc p dev type =>
    refine h.walk rfl (fun _ => ⟨rfl, rfl, rfl⟩) rfl (fun _ _ => rfl)
      (by simp [PC.live]) (by simp [PC.truncs]) (fun _ type' _ hx => ?_) (by rintro _ _ ⟨⟩)
    obtain ⟨-, rfl, -⟩ := PC.iallocScan.inj hx
    exact hg.2
  case iallocSkip p dev type inum =>
    refine h.walk rfl (fun _ => ⟨rfl, rfl, rfl⟩) rfl
      (fun _ _ => rfl) (by rintro _ ⟨⟩) (by rintro _ ⟨⟩) (fun _ type' _ hx => ?_) (by simp)
    obtain ⟨-, rfl, -⟩ := PC.iallocScan.inj hx
    exact h.scan p dev type inum hg.1
  case ilock p e =>
    exact h.walk rfl (fun _ => ⟨rfl, rfl, rfl⟩) rfl (fun _ _ => rfl) (by rintro _ ⟨⟩) (by rintro _ ⟨⟩) (by simp) (by simp)
  case iunlock p e | modify p e d | ilockAcquire p e | iputInvalid p e =>
    exact h.walk rfl (entry_keep rfl rfl rfl) rfl (fun _ _ => rfl) (by simp [PC.live]) (by simp [PC.truncs]) (by simp) (by simp)
  case ilockPanic | iunlockPanic | igetPanic | ilockNoType | iputSleep | iallocPanic =>
    exact ⟨h.live, h.scan, h.alloc, h.one, h.sole⟩

/-! ### Safety -/

/-- What it means for the cache to be safe in a state. -/
structure CacheSafe (ninodes : Nat) (t : State np) : Prop where
  /-- One entry an inode. -/
  unique : ∀ e e', 0 < (t.entry e).ref → 0 < (t.entry e').ref → (t.entry e).dev = (t.entry e').dev →
    (t.entry e).inum = (t.entry e').inum → e = e'
  /-- References handed out, and those that an `iput` in progress has not yet given back. -/
  exact : ∀ e, (t.entry e).ref = t.out e + count t.pc (PC.puts e)
  /-- `iput` enters its free path with the only reference, and the lock is there for the taking. -/
  sole : ∀ p e, t.pc p = .iputTest e → last t e → t.out e = 0 ∧
    (∀ q, q ≠ p → (t.pc q).puts e = false) ∧ (t.entry e).lock = none
  /-- It holds the lock until the inode is free on the disk and the entry invalid. -/
  locked : ∀ p e, (t.pc p).frees e = true → (t.entry e).lock = some p
  /-- `ilock` returns with what is on the disk, unless a holder has modified it since. -/
  reads : ∀ p e, guard ninodes t (.ilockLoad p e) →
    ((next t (.ilockLoad p e)).entry e).valid = true ∧
    ((next t (.ilockLoad p e)).entry e).din.type ≠ 0 ∧
    ((next t (.ilockLoad p e)).dirty e = true ∨
      ((next t (.ilockLoad p e)).entry e).din = (next t (.ilockLoad p e)).onDisk e)
  /-- What `iput` does after its last `iupdate` changes no inode, on the disk or locked by others. -/
  after : ∀ p e a, (a = .iputInvalid p e ∨ a = .iputDrop p e) → guard ninodes t a →
    (next t a).disk = t.disk ∧ ∀ e', (t.entry e').lock ≠ some p →
      ((next t a).entry e').din = (t.entry e').din ∧ ((next t a).entry e').valid = (t.entry e').valid ∧
      ((next t a).entry e').lock = (t.entry e').lock

theorem Inv.cacheSafe (h : Inv t) : CacheSafe ninodes t where
  unique := h.unique
  exact e := (h.entry e).exact
  sole p e hp hlast := by
    obtain ⟨hout, hone⟩ := (h.entry e).alone (p := p) (by simp [hp, PC.puts]) hlast.1
    exact ⟨hout, hone, (h.entry e).unlocked_of_alone hp hlast.1⟩
  locked p e hp := (h.entry e).freeing p hp
  reads p e hg := by
    have he := (inv_step h hg).entry e
    have hl : ((next t (.ilockLoad p e)).entry e).lock = some p := by
      have := (h.entry e).loading p hg.1
      simp only [next]
      split
      · exact this
      · simpa [State.set] using this
    have hp : (next t (.ilockLoad p e)).pc p = .idle := by
      simp only [next]
      split <;> simp [State.set]
    obtain ⟨-, htype, hsame⟩ := he.coherent_of_lock hl (by simp [hp]) (by simp [hp])
    exact ⟨he.valid p hl (by simp [hp]), htype, hsame⟩
  after p e a ha hg := by
    rcases ha with rfl | rfl
    · have hp : t.pc p = .iputInvalid e := hg
      refine ⟨rfl, fun e' hl => ?_⟩
      have hee : e' ≠ e := by
        rintro rfl
        exact hl ((h.entry e').freeing p (by simp [hp, PC.frees]))
      simp [next, State.set, hee]
    · exact ⟨rfl, fun e' _ => ⟨by apply proj_update Entry.din; rfl, by apply proj_update Entry.valid; rfl,
        by apply proj_update Entry.lock; rfl⟩⟩

/-- The cache is safe in every state that any interleaving reaches, but for one thing: that the
    reference of `iput` stays the only one while it frees the inode takes callers of `iget` that ask
    for no such inode. -/
theorem icache_safe (ninodes : Nat) (d : Nat → Nat → Dinode) {as : List (Act np)} {t : State np}
    (hrun : (machine ninodes np).Run (fun _ _ => True) (init d) as t) :
    CacheSafe ninodes t ∧
    ((machine ninodes np).Run named (init d) as t →
      ∀ p e, (t.pc p).truncs e = true → (t.entry e).ref = 1) := by
  refine ⟨?_, fun hnamed => ?_⟩
  · have hinv : Inv t := System.Run.invariant (M := machine ninodes np) (I := Inv)
      (fun _ _ h hg _ => inv_step h hg.2) hrun (inv_init d)
    exact hinv.cacheSafe
  · have hsole : SoleInv (init d : State np) :=
      ⟨by simp [Live, init, PC.live], by simp [init], by simp [init], by simp [init], by simp [init, PC.truncs]⟩
    have hinv : SoleInv t ∧ Inv t :=
      System.Run.invariant (M := machine ninodes np) (I := fun s => SoleInv s ∧ Inv s)
        (fun _ _ h hg hok => ⟨soleInv_step h.1 h.2 hg.2 hok, inv_step h.2 hg.2⟩) hnamed
        ⟨hsole, inv_init d⟩
    exact hinv.1.sole

/-- Inode 5 has no links; the others are directories. -/
def oneUnlinked : Nat → Nat → Dinode := fun _ inum =>
  { Dinode.zero with type := if inum = 5 then T_FILE else T_DIR }

/-- Process 0 frees inode 5. Before it gives its reference back, process 1 allocates the inode again
    and locks it. -/
def reallocActs : List (Act 2) :=
  [.igetRecycle 0 0 5 0, .ilock 0 0, .ilockAcquire 0 0, .ilockLoad 0 0, .iunlock 0 0, .iput 0 0,
    .iputFree 0 0, .iputTrunc 0 0, .iputType 0 0, .ialloc 1 0 T_DIR, .iallocSkip 1 0 T_DIR 1,
    .iallocSkip 1 0 T_DIR 2, .iallocSkip 1 0 T_DIR 3, .iallocSkip 1 0 T_DIR 4, .iallocTake 1 0 T_DIR 5,
    .igetHit 1 0 5 0, .ilock 1 0, .iputInvalid 0 0, .ilockAcquire 1 0]

theorem icache_safe_realloc : ∃ t : State 2,
    (machine 10 2).Run named (init oneUnlinked) reallocActs t ∧
    t.pc 0 = .iputDrop 0 ∧ (t.entry 0).ref = 2 ∧ guard 10 t (.ilockLoad 1 0) ∧
    ((next t (.ilockLoad 1 0)).entry 0).din = { Dinode.zero with type := T_DIR } ∧ CacheSafe 10 t ∧
    ∀ p e, (t.pc p).truncs e = true → (t.entry e).ref = 1 := by
  have hrun := System.run_exec (machine 10 2) named (init oneUnlinked) reallocActs rfl
  obtain ⟨hsafe, hsole⟩ := icache_safe 10 oneUnlinked (hrun.mono fun _ _ _ => trivial)
  exact ⟨_, hrun, rfl, rfl, ⟨rfl, fun _ => by decide⟩, rfl, hsafe, hsole hrun⟩

/-- Directories with one link each. -/
def linked : Nat → Nat → Dinode := fun _ _ => { Dinode.zero with type := T_DIR, nlink := 1 }

/-- Process 0 removes the last link to directory 5; its `iput` begins to free the inode when process 1,
    which looks up `..` in a directory below, gets a reference to it. -/
def lookupActs : List (Act 2) :=
  [.igetRecycle 0 0 5 0, .ilock 0 0, .ilockAcquire 0 0, .ilockLoad 0 0, .modify 0 0 { linked 0 5 with nlink := 0 },
    .iupdate 0 0, .iunlock 0 0, .iput 0 0, .iputFree 0 0, .igetHit 1 0 5 0]

/-- The inode is free when process 1 has it locked. -/
def lockActs : List (Act 2) :=
  [.ilock 1 0, .iputTrunc 0 0, .iputType 0 0, .iputInvalid 0 0, .iputDrop 0 0, .ilockAcquire 1 0, .ilockNoType 1 0]

theorem iput_not_sole : ∃ t u : State 2, (machine 10 2).Run (fun _ _ => True) (init linked) lookupActs t ∧
    (t.pc 0).truncs 0 = true ∧ (t.entry 0).ref = 2 ∧
    (machine 10 2).Run (fun _ _ => True) (init linked) (lookupActs ++ lockActs) u ∧
    u.panicked = some "ilock: no type" := by
  have hlookup : ((machine 10 2).exec (fun _ _ => True) (init linked) lookupActs).any
      (fun t => (t.pc 0).truncs 0 && (t.entry 0).ref == 2) = true := by decide +kernel
  have hlock : ((machine 10 2).exec (fun _ _ => True) (init linked) (lookupActs ++ lockActs)).any
      (fun u => u.panicked == some "ilock: no type") = true := by decide +kernel
  obtain ⟨t, ht, hres⟩ := (Option.any_eq_true ..).mp hlookup
  obtain ⟨u, hu, hpanic⟩ := (Option.any_eq_true ..).mp hlock
  rw [Bool.and_eq_true, beq_iff_eq] at hres
  exact ⟨t, u, System.run_of_exec ht, hres.1, hres.2, System.run_of_exec hu, beq_iff_eq.mp hpanic⟩

end Xv6.Icache
