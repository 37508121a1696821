import Xv6.Schemes.Count
import Xv6.Schemes.Update
import Xv6.Kernel.Fs.Blocks
import Xv6.Kernel.Fs.Sysfile

/-! The invariant of the file system while one system call runs.

    ```
    procs ──cwd──▶ ┌────────────┐            ┌──────────────┐
    ftable ──ip──▶ │ inode cache│ ──Stored── │ disk, buffers│
    the call ────▶ └────────────┘            └──────────────┘
        Handles         Cache
    ```

    The running call holds the handles `l` on inodes and the locks of `L`, with the types of the
    locked inodes. At most one inode, `W`, is ahead of its copy on disk; the table `T` says what the
    inodes are meant to be. -/

namespace Xv6.Fs
open Bytes Xv6.Count Function

/-- The current directories, except that of a process that is about to change it. -/
def cwdTable (proc : Pid → Proc) (X : Option Pid) (p : Pid) : Option EntryId :=
  if X = some p then none else (proc p).cwd

def cwds (s : State) (X : Option Pid) (e : EntryId) : Nat := count (cwdTable s.proc X) (· == some e)

/-- Open files on an entry. -/
def File.isOn (e : EntryId) (f : File) : Bool := f.type != .none && f.ip == e

def files (s : State) (e : EntryId) : Nat := count s.ftable (File.isOn e)

/-- Reference counts are exact for current directories, open files and the running call; a file that
    can be written is not a directory. -/
structure Handles (X : Option Pid) (l : List EntryId) (s : State) : Prop where
  refs : ∀ e, (s.icache e).ref = cwds s X e + files s e + l.count e
  idle : ∀ f, (s.ftable f).ref = 0 → (s.ftable f).type = .none
  written : ∀ f, (s.ftable f).type = .inode → (s.ftable f).writable = true →
    (s.icache (s.ftable f).ip).valid = true ∧ (s.icache (s.ftable f).ip).din.type ≠ T_DIR

/-- The cache holds an inode once, and the locked inodes are loaded. -/
structure Cache (sb : Superblock) (L : EntryId → Option Int16) (s : State) : Prop where
  uniq : ∀ {e e'}, 0 < (s.icache e).ref → 0 < (s.icache e').ref →
    (s.icache e).inum = (s.icache e').inum → e = e'
  inum : ∀ {e}, 0 < (s.icache e).ref → (s.icache e).inum < sb.ninodes
  typed : ∀ {e}, 0 < (s.icache e).ref → (s.icache e).valid = true → (s.icache e).din.type ≠ 0
  locks : ∀ e, (s.icache e).lock = (L e).isSome
  held : ∀ {e t}, L e = some t →
    0 < (s.icache e).ref ∧ (s.icache e).valid = true ∧ (s.icache e).din.type = t

/-- Cached inodes and inodes on disk are those of `T`, and `T` accounts for all blocks. Buffers that
    were modified without `log_write` hold no metadata. -/
structure Stored (sb : Superblock) (T : Nat → Dinode) (W : Option EntryId) (P : List Nat)
    (s : State) : Prop where
  sync : ∀ e, 0 < (s.icache e).ref → (s.icache e).valid = true → W ≠ some e →
    (s.icache e).din = T (s.icache e).inum
  ondisk : ∀ i, i < sb.ninodes → (∀ e, W = some e → (s.icache e).inum ≠ i) →
    dinodeAt sb s.view i = T i
  acct : Acct sb T s.view (fun b => s.unlogged b ≠ none) P
  clean : ∀ b, b < sb.nmeta → s.unlogged b = none

structure Inv (sb : Superblock) (X : Option Pid) (l : List EntryId) (L : EntryId → Option Int16)
    (T : Nat → Dinode) (W : Option EntryId) (P : List Nat) (s : State) : Prop where
  handles : Handles X l s
  cache : Cache sb L s
  stored : Stored sb T W P s

variable {sb : Superblock} {X : Option Pid} {l : List EntryId} {L : EntryId → Option Int16}
  {T : Nat → Dinode} {W : Option EntryId} {P : List Nat} {s t : State}

/-! ### What the primitives change -/

section Primitives

variable (s : State) (b : Nat) (blk : Block) (e : EntryId) (i : Inode)

@[simp] theorem view_logWrite : (s.logWrite b blk).view = update s.view b blk := by
  funext c
  by_cases hc : c = b
  · subst hc; simp [State.view, State.logWrite]
  · simp [State.view, State.logWrite, hc]

theorem unlogged_of_logWrite {s : State} {b c : Nat} {blk : Block}
    (h : (s.logWrite b blk).unlogged c ≠ none) : s.unlogged c ≠ none ∧ c ≠ b := by
  by_cases hc : c = b
  · subst hc
    exact absurd (by simp) h
  · rw [State.logWrite_unlogged, update_of_ne hc] at h
    exact ⟨h, hc⟩

@[simp] theorem view_setEntry : (s.setEntry e i).view = s.view := rfl

end Primitives

/-- Two states that differ in blocks only. -/
structure SameMem (s t : State) : Prop where
  icache : t.icache = s.icache
  ftable : t.ftable = s.ftable
  proc : t.proc = s.proc

theorem SameMem.refl (s : State) : SameMem s s := ⟨rfl, rfl, rfl⟩

theorem SameMem.trans {u : State} (h : SameMem s t) (h' : SameMem t u) : SameMem s u :=
  ⟨h'.icache.trans h.icache, h'.ftable.trans h.ftable, h'.proc.trans h.proc⟩

theorem sameMem_logWrite (s : State) (b : Nat) (blk : Block) : SameMem s (s.logWrite b blk) :=
  ⟨rfl, rfl, rfl⟩

theorem sameMem_scribble (s : State) (b : Nat) (blk : Block) : SameMem s (s.scribble b blk) := by
  unfold State.scribble
  split <;> exact ⟨rfl, rfl, rfl⟩

theorem Handles.blocks (h : Handles X l s) (hm : SameMem s t) : Handles X l t := by
  constructor
  · intro e
    simp only [cwds, files, hm.icache, hm.ftable, hm.proc]
    exact h.refs e
  · simp only [hm.ftable]
    exact h.idle
  · simp only [hm.icache, hm.ftable]
    exact h.written

theorem Cache.blocks (h : Cache sb L s) (hm : SameMem s t) : Cache sb L t := by
  constructor
  · simp only [hm.icache]; exact h.uniq
  · simp only [hm.icache]; exact h.inum
  · simp only [hm.icache]; exact h.typed
  · simp only [hm.icache]; exact h.locks
  · simp only [hm.icache]; exact h.held

/-! ### Blocks -/

namespace Stored

/-- A state with other block contents. -/
theorem blocks (h : Stored sb T W P s) {P' : List Nat} (hm : SameMem s t)
    (hdisk : ∀ i, i < sb.ninodes → dinodeAt sb t.view i = dinodeAt sb s.view i)
    (hacct : Acct sb T t.view (fun b => t.unlogged b ≠ none) P')
    (hclean : ∀ b, b < sb.nmeta → t.unlogged b = none) : Stored sb T W P' t := by
  refine ⟨?_, fun i hi hW => ?_, hacct, hclean⟩
  · simp only [hm.icache]; exact h.sync
  · rw [hdisk i hi]
    refine h.ondisk i hi fun e he => ?_
    rw [← hm.icache]
    exact hW e he

/-- A loaded inode may be changed: from then on it is ahead of the disk. -/
theorem ahead (h : Stored sb T none P s) (e : EntryId) : Stored sb T (some e) P s :=
  ⟨fun e' hr hv _ => h.sync e' hr hv (by simp), fun i hi _ => h.ondisk i hi (by simp), h.acct, h.clean⟩

end Stored

/-! ### Loaded inodes -/

/-- New contents of a locked inode, with the same type. -/
def State.setDin (s : State) (e : EntryId) (d : Dinode) : State :=
  s.setEntry e { s.icache e with din := d }

section SetDin

variable {e : EntryId} {d : Dinode}

/-- Fields other than the contents stay. -/
theorem proj_setDin {β : Type} (π : Inode → β) (hπ : ∀ i : Inode, π { i with din := d } = π i)
    (e' : EntryId) : π ((s.setDin e d).icache e') = π (s.icache e') := by
  by_cases he : e' = e
  · subst he; simp [State.setDin, hπ]
  · simp [State.setDin, he]

theorem type_setDin (hd : d.type = (s.icache e).din.type) (e' : EntryId) :
    ((s.setDin e d).icache e').din.type = (s.icache e').din.type := by
  by_cases he : e' = e
  · subst he; simpa [State.setDin] using hd
  · simp [State.setDin, he]

theorem din_setDin : ((s.setDin e d).icache e).din = d := by simp [State.setDin]

theorem Handles.setDin (h : Handles X l s) (hd : d.type = (s.icache e).din.type) :
    Handles X l (s.setDin e d) where
  refs e' := by
    rw [proj_setDin Inode.ref fun _ => rfl]
    exact h.refs e'
  idle := h.idle
  written f hty hw := by
    rw [proj_setDin Inode.valid fun _ => rfl, type_setDin hd]
    exact h.written f hty hw

theorem Cache.setDin (h : Cache sb L s) (hd : d.type = (s.icache e).din.type) :
    Cache sb L (s.setDin e d) where
  uniq {e₁ e₂} := by
    simp only [proj_setDin Inode.ref fun _ => rfl, proj_setDin Inode.inum fun _ => rfl]
    exact h.uniq
  inum {e'} := by
    simp only [proj_setDin Inode.ref fun _ => rfl, proj_setDin Inode.inum fun _ => rfl]
    exact h.inum
  typed {e'} := by
    simp only [proj_setDin Inode.ref fun _ => rfl, proj_setDin Inode.valid fun _ => rfl, type_setDin hd]
    exact h.typed
  locks e' := by
    rw [proj_setDin Inode.lock fun _ => rfl]
    exact h.locks e'
  held {e' t} := by
    simp only [proj_setDin Inode.ref fun _ => rfl, proj_setDin Inode.valid fun _ => rfl, type_setDin hd]
    exact h.held

/-- The inode that is ahead of the disk may take any value in memory. -/
theorem Stored.mem (h : Stored sb T (some e) P s) : Stored sb T (some e) P (s.setDin e d) where
  sync e' := by
    simp only [proj_setDin Inode.ref fun _ => rfl, proj_setDin Inode.valid fun _ => rfl,
      proj_setDin Inode.inum fun _ => rfl]
    intro hr hv hW
    have hne : e' ≠ e := fun heq => hW (heq ▸ rfl)
    rw [← h.sync e' hr hv hW]
    simp [State.setDin, hne]
  ondisk i hi hW := by
    refine h.ondisk i hi fun e' he' => ?_
    rw [← proj_setDin Inode.inum fun _ => rfl]
    exact hW e' he'
  acct := h.acct
  clean := h.clean

/-- It may take any value in the table if the table still accounts for all blocks. -/
theorem Stored.table (h : Stored sb T (some e) P s) (hc : Cache sb L s) (he : 0 < (s.icache e).ref)
    {P' : List Nat}
    (hacct : Acct sb (update T (s.icache e).inum d) s.view (fun b => s.unlogged b ≠ none) P') :
    Stored sb (update T (s.icache e).inum d) (some e) P' s where
  sync e' hr hv hW := by
    have hne : e' ≠ e := fun heq => hW (heq ▸ rfl)
    rw [update_of_ne fun heq => hne (hc.uniq hr he heq)]
    exact h.sync e' hr hv hW
  ondisk i hi hW := by
    have hne : i ≠ (s.icache e).inum := fun heq => hW e rfl heq.symm
    rw [update_of_ne hne]
    exact h.ondisk i hi hW
  acct := hacct
  clean := h.clean

end SetDin

/-! ### Other changes to an entry -/

section SetEntry

variable {e : EntryId} {i : Inode}

/-- An entry that stays in use for its inode is loaded, locked, unlocked or discarded. -/
theorem Cache.reload (h : Cache sb L s) (hinum : i.inum = (s.icache e).inum)
    (href : i.ref = (s.icache e).ref) {o : Option Int16}
    (htyped : 0 < i.ref → i.valid = true → i.din.type ≠ 0) (hlock : i.lock = o.isSome)
    (hheld : ∀ t, o = some t → 0 < i.ref ∧ i.valid = true ∧ i.din.type = t) :
    Cache sb (update L e o) (s.setEntry e i) := by
  have hr : ∀ e', ((s.setEntry e i).icache e').ref = (s.icache e').ref :=
    Update.proj_update Inode.ref href
  have hn : ∀ e', ((s.setEntry e i).icache e').inum = (s.icache e').inum :=
    Update.proj_update Inode.inum hinum
  constructor
  · simp only [hr, hn]; exact h.uniq
  · simp only [hr, hn]; exact h.inum
  · intro e' hr' hv'
    by_cases he : e' = e
    · subst he
      simp only [State.setEntry_icache, update_self] at hr' hv' ⊢
      exact htyped hr' hv'
    · simp only [State.setEntry_icache, update_of_ne he] at hr' hv' ⊢
      exact h.typed hr' hv'
  · intro e'
    by_cases he : e' = e
    · subst he; simp [hlock]
    · simp [he, h.locks e']
  · intro e' t ht
    by_cases he : e' = e
    · subst he
      rw [update_self] at ht
      simpa using hheld t ht
    · rw [update_of_ne he] at ht
      simpa [he] using h.held ht

theorem Handles.reload (h : Handles X l s) (href : i.ref = (s.icache e).ref)
    (hw : ∀ f, (s.ftable f).type = .inode → (s.ftable f).writable = true → (s.ftable f).ip = e →
      i.valid = true ∧ i.din.type ≠ T_DIR) : Handles X l (s.setEntry e i) where
  refs e' := by
    rw [show ((s.setEntry e i).icache e').ref = (s.icache e').ref from
      Update.proj_update Inode.ref href e']
    exact h.refs e'
  idle := h.idle
  written f hty hwr := by
    change (update s.icache e i (s.ftable f).ip).valid = true ∧
      (update s.icache e i (s.ftable f).ip).din.type ≠ T_DIR
    by_cases he : (s.ftable f).ip = e
    · rw [he, update_self]
      exact hw f hty hwr he
    · rw [update_of_ne he]
      exact h.written f hty hwr

theorem Stored.reload (h : Stored sb T none P s) (hinum : i.inum = (s.icache e).inum)
    (href : i.ref = (s.icache e).ref)
    (hsync : 0 < (s.icache e).ref → i.valid = true → i.din = T (s.icache e).inum) :
    Stored sb T none P (s.setEntry e i) where
  sync e' hr hv _ := by
    by_cases he : e' = e
    · subst he
      simp only [State.setEntry_icache, update_self] at hr hv ⊢
      rw [hinum]
      exact hsync (href ▸ hr) hv
    · simp only [State.setEntry_icache, update_of_ne he] at hr hv ⊢
      exact h.sync e' hr hv (by simp)
  ondisk j hj _ := h.ondisk j hj (by simp)
  acct := h.acct
  clean := h.clean

/-- Change the reference count of an entry. -/
def State.setRef (s : State) (e : EntryId) (n : Nat) : State :=
  s.setEntry e { s.icache e with ref := n }

theorem proj_setRef {β : Type} (π : Inode → β) {n : Nat} (hπ : ∀ i : Inode, π { i with ref := n } = π i)
    (e' : EntryId) : π ((s.setRef e n).icache e') = π (s.icache e') := by
  by_cases he : e' = e
  · subst he; simp [State.setRef, hπ]
  · simp [State.setRef, he]

theorem ref_setRef {n : Nat} (e' : EntryId) :
    ((s.setRef e n).icache e').ref = if e' = e then n else (s.icache e').ref := by
  by_cases he : e' = e
  · subst he; simp [State.setRef]
  · simp [State.setRef, he]

theorem Cache.setRef (h : Cache sb L s) {n : Nat} (he : 0 < (s.icache e).ref)
    (hn : (L e).isSome = true → 0 < n) : Cache sb L (s.setRef e n) := by
  have hr : ∀ {e'}, 0 < ((s.setRef e n).icache e').ref → 0 < (s.icache e').ref := by
    intro e' hr'
    rw [ref_setRef] at hr'
    by_cases hee : e' = e
    · rw [hee]; exact he
    · rwa [if_neg hee] at hr'
  constructor
  · intro e₁ e₂ h₁ h₂
    rw [proj_setRef Inode.inum fun _ => rfl, proj_setRef Inode.inum fun _ => rfl]
    exact h.uniq (hr h₁) (hr h₂)
  · intro e' h'
    rw [proj_setRef Inode.inum fun _ => rfl]
    exact h.inum (hr h')
  · intro e' h' hv
    rw [proj_setRef Inode.valid fun _ => rfl] at hv
    rw [proj_setRef Inode.din fun _ => rfl]
    exact h.typed (hr h') hv
  · intro e'
    rw [proj_setRef Inode.lock fun _ => rfl]
    exact h.locks e'
  · intro e' t ht
    obtain ⟨h₁, h₂, h₃⟩ := h.held ht
    rw [proj_setRef Inode.valid fun _ => rfl, proj_setRef Inode.din fun _ => rfl, ref_setRef]
    refine ⟨?_, h₂, h₃⟩
    by_cases hee : e' = e
    · rw [if_pos hee]
      exact hn (by rw [← hee, ht]; rfl)
    · rwa [if_neg hee]

theorem Stored.setRef (h : Stored sb T none P s) {n : Nat} (he : 0 < (s.icache e).ref) :
    Stored sb T none P (s.setRef e n) where
  sync e' hr hv _ := by
    rw [proj_setRef Inode.valid fun _ => rfl] at hv
    rw [proj_setRef Inode.din fun _ => rfl, proj_setRef Inode.inum fun _ => rfl]
    rw [ref_setRef] at hr
    by_cases hee : e' = e
    · rw [hee] at hv ⊢
      exact h.sync e he hv (by simp)
    · rw [if_neg hee] at hr
      exact h.sync e' hr hv (by simp)
  ondisk j hj _ := h.ondisk j hj (by simp)
  acct := h.acct
  clean := h.clean

theorem Handles.setRef (h : Handles X l s) {l' : List EntryId} {n : Nat}
    (hself : n + l.count e = (s.icache e).ref + l'.count e)
    (hother : ∀ e', e' ≠ e → l'.count e' = l.count e') : Handles X l' (s.setRef e n) where
  refs e' := by
    have hr := h.refs e'
    rw [ref_setRef]
    change _ = cwds s X e' + files s e' + l'.count e'
    by_cases hee : e' = e
    · subst hee
      rw [if_pos rfl]
      omega
    · rw [if_neg hee, hother e' hee]
      exact hr
  idle := h.idle
  written f hty hw := by
    rw [proj_setRef Inode.valid fun _ => rfl, proj_setRef Inode.din fun _ => rfl]
    exact h.written f hty hw

end SetEntry

/-! ### Editing an inode -/

/-- The running call works on the locked inode `e`. -/
structure Editing (sb : Superblock) (X : Option Pid) (l : List EntryId) (L : EntryId → Option Int16)
    (e : EntryId) (T : Nat → Dinode) (P : List Nat) (s : State) : Prop where
  inv : Inv sb X l L T (some e) P s
  locked : (L e).isSome = true
  mine : T (s.icache e).inum = (s.icache e).din

/-- Nothing but the contents of `e` and of blocks has changed. -/
structure Frame (e : EntryId) (s t : State) : Prop where
  icache : ∀ e', e' ≠ e → t.icache e' = s.icache e'
  inum : (t.icache e).inum = (s.icache e).inum
  ftable : t.ftable = s.ftable
  proc : t.proc = s.proc

theorem Frame.refl (e : EntryId) (s : State) : Frame e s s := ⟨fun _ _ => rfl, rfl, rfl, rfl⟩

theorem Frame.trans {e : EntryId} {u : State} (h : Frame e s t) (h' : Frame e t u) : Frame e s u :=
  ⟨fun e' he => (h'.icache e' he).trans (h.icache e' he), h'.inum.trans h.inum,
    h'.ftable.trans h.ftable, h'.proc.trans h.proc⟩

theorem SameMem.frame (h : SameMem s t) (e : EntryId) : Frame e s t :=
  ⟨fun _ _ => by rw [h.icache], by rw [h.icache], h.ftable, h.proc⟩

/-- Setting the contents of an inode again. -/
theorem SameMem.setDin {e : EntryId} {d d' : Dinode} (h : SameMem (s.setDin e d) t) :
    SameMem (s.setDin e d') (t.setDin e d') := by
  refine ⟨?_, h.ftable, h.proc⟩
  have hic : t.icache = update s.icache e { s.icache e with din := d } := h.icache
  simp [State.setDin, hic]

theorem setDin_self (s : State) (e : EntryId) : s.setDin e (s.icache e).din = s := by
  unfold State.setDin State.setEntry
  rw [show ({ s.icache e with din := (s.icache e).din } : Inode) = s.icache e from rfl,
    update_eq_self]

theorem frame_setDin (e : EntryId) (d : Dinode) (s : State) : Frame e s (s.setDin e d) :=
  ⟨fun e' he => by simp [State.setDin, he], proj_setDin Inode.inum (fun _ => rfl) e, rfl, rfl⟩

namespace Editing

variable {e : EntryId} {d : Dinode}

section Held

variable (h : Editing sb X l L e T P s)

include h

theorem held : 0 < (s.icache e).ref ∧ (s.icache e).valid = true ∧
    some (s.icache e).din.type = L e := by
  obtain ⟨t, ht⟩ := Option.isSome_iff_exists.mp h.locked
  obtain ⟨h₁, h₂, h₃⟩ := h.inv.cache.held ht
  exact ⟨h₁, h₂, by rw [h₃, ht]⟩

theorem inum_lt : (s.icache e).inum < sb.ninodes :=
  h.inv.cache.inum h.held.1

theorem typed : (T (s.icache e).inum).type ≠ 0 := by
  rw [h.mine]
  exact h.inv.cache.typed h.held.1 h.held.2.1

theorem owns_iff {k b : Nat} :
    own sb T s.view ((s.icache e).inum, k) = some b ↔ slot (s.icache e).din s.view k = b ∧ b ≠ 0 := by
  rw [own_eq_some, h.mine]
  have := h.typed
  rw [h.mine] at this
  exact ⟨fun hb => hb.2.2, fun hb => ⟨h.inum_lt, this, hb⟩⟩

theorem blocks (hm : SameMem s t) {P' : List Nat}
    (hst : Stored sb T (some e) P' t) : Editing sb X l L e T P' t :=
  ⟨⟨h.inv.handles.blocks hm, h.inv.cache.blocks hm, hst⟩, h.locked, by rw [hm.icache]; exact h.mine⟩

theorem setDin (hd : d.type = (s.icache e).din.type) {Q : List Nat}
    (hacct : Acct sb (update T (s.icache e).inum d) s.view (fun b => s.unlogged b ≠ none) Q) :
    Editing sb X l L e (update T (s.icache e).inum d) Q (s.setDin e d) :=
  ⟨⟨h.inv.handles.setDin hd, h.inv.cache.setDin hd,
      (h.inv.stored.table h.inv.cache h.held.1 hacct).mem⟩, h.locked, by
    rw [proj_setDin Inode.inum fun _ => rfl, update_self, din_setDin]⟩

end Held

end Editing

end Xv6.Fs
