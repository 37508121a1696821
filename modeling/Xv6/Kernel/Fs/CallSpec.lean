import Xv6.Kernel.Fs.NameSpec

/-! What the system calls do to the invariant. -/

namespace Xv6.Fs
open Bytes Hoare Xv6.Count Function

variable {sb : Superblock} {X : Option Pid} {l : List EntryId} {L : EntryId → Option Int16}
  {T : Nat → Dinode} {s t : State} {e dp ip : EntryId} {f : FileId} {p : Pid}

/-! ### Files and processes -/

variable {E : Stop → Prop}

@[simp] theorem wp_file {Q : File → State → Prop} :
    wp E (file f) Q s ↔ Q (s.ftable f) s := Iff.rfl

variable {ff : File}

@[simp] theorem wp_setFile {Q : Unit → State → Prop} :
    wp E (setFile f ff) Q s ↔ Q () (s.setFile f ff) := Iff.rfl

/-- A commit changes nothing that the invariant is about. -/
theorem Inv.commit {W : Option EntryId} {P : List Nat} {g : Nat → Bool} (h : Inv sb X l L T W P s) :
    Inv sb X l L T W P { s with inlog := g } := by
  obtain ⟨⟨h₁, h₂, h₃⟩, ⟨h₄, h₅, h₆, h₇, h₈⟩, ⟨h₉, h₁₀, h₁₁, h₁₂⟩⟩ := h
  exact ⟨⟨h₁, h₂, h₃⟩, ⟨h₄, h₅, h₆, h₇, h₈⟩, ⟨h₉, h₁₀, h₁₁, h₁₂⟩⟩

theorem endOp_wp (h : Held sb X l L s) : wp NoDoubleFree endOp (fun _ t => Held sb X l L t) s := by
  obtain ⟨T, hT⟩ := h
  exact ⟨T, hT.commit⟩

/-- A file of the table changes; the handles of the call make up for it. -/
theorem Held.setFile (h : Held sb X l L s) {l' : List EntryId}
    (hcount : ∀ e, (File.isOn e (s.ftable f)).toNat + l.count e = (File.isOn e ff).toNat + l'.count e)
    (hidle : ff.ref = 0 → ff.type = .none)
    (hwritten : ff.type = .inode → ff.writable = true →
      (s.icache ff.ip).valid = true ∧ (s.icache ff.ip).din.type ≠ T_DIR) :
    Held sb X l' L (s.setFile f ff) := by
  obtain ⟨T, hh, ⟨h₄, h₅, h₆, h₇, h₈⟩, ⟨h₉, h₁₀, h₁₁, h₁₂⟩⟩ := h
  refine ⟨T, ⟨fun e => ?_, fun g => ?_, fun g => ?_⟩, ⟨h₄, h₅, h₆, h₇, h₈⟩, ⟨h₉, h₁₀, h₁₁, h₁₂⟩⟩
  · have h₁ := hh.refs e
    have h₂ := count_update s.ftable (File.isOn e) f ff
    have h₃ := hcount e
    change (s.icache e).ref = cwds s X e + count (update s.ftable f ff) (File.isOn e) + _
    rw [files] at h₁
    omega
  · change (update s.ftable f ff g).ref = 0 → (update s.ftable f ff g).type = .none
    by_cases hg : g = f
    · rw [hg, update_self]; exact hidle
    · rw [update_of_ne hg]; exact hh.idle g
  · change (update s.ftable f ff g).type = .inode →
      (update s.ftable f ff g).writable = true →
      (s.icache (update s.ftable f ff g).ip).valid = true ∧
      (s.icache (update s.ftable f ff g).ip).din.type ≠ T_DIR
    by_cases hg : g = f
    · rw [hg, update_self]; exact hwritten
    · rw [update_of_ne hg]; exact hh.written g

/-- Fields that say nothing about the inode. -/
theorem Held.touchFile (h : Held sb X l L s) (hty : ff.type = (s.ftable f).type)
    (hip : ff.ip = (s.ftable f).ip) (hw : ff.writable = (s.ftable f).writable)
    (href : ff.ref = 0 → (s.ftable f).ref = 0) : Held sb X l L (s.setFile f ff) := by
  refine h.setFile (fun e => ?_) (fun h0 => ?_) fun hi hwr => ?_
  · simp only [File.isOn, hty, hip]
  · obtain ⟨T, h⟩ := h
    rw [hty]
    exact h.handles.idle f (href h0)
  · obtain ⟨T, h⟩ := h
    rw [hip]
    exact h.handles.written f (hty ▸ hi) (hw ▸ hwr)

variable {q : Proc}

/-- A process changes; `X` is the process whose current directory is not counted. -/
theorem Held.setProc (h : Held sb X l L s) {Y : Option Pid} {m : List EntryId}
    (hcwd : ∀ p', p' ≠ p → (X = some p' ↔ Y = some p'))
    (hcount : ∀ e, (cwdTable s.proc X p == some e).toNat + l.count e =
      ((if Y = some p then none else q.cwd) == some e).toNat + m.count e) :
    Held sb Y m L (s.setProc p q) := by
  obtain ⟨T, hh, ⟨h₄, h₅, h₆, h₇, h₈⟩, ⟨h₉, h₁₀, h₁₁, h₁₂⟩⟩ := h
  refine ⟨T, ⟨fun e => ?_, hh.idle, hh.written⟩, ⟨h₄, h₅, h₆, h₇, h₈⟩, ⟨h₉, h₁₀, h₁₁, h₁₂⟩⟩
  have h₁ := hh.refs e
  have h₂ := count_update (cwdTable s.proc X) (· == some e) p (if Y = some p then none else q.cwd)
  have h₃ := hcount e
  have htable : cwdTable (update s.proc p q) Y =
      update (cwdTable s.proc X) p (if Y = some p then none else q.cwd) := by
    funext p'
    by_cases hp : p' = p
    · subst hp; simp [cwdTable]
    · simp only [cwdTable, update_of_ne hp, hcwd p' hp]
  change (s.icache e).ref = count (cwdTable (update s.proc p q) Y) (· == some e) +
    files s e + m.count e
  rw [htable]
  rw [cwds] at h₁
  omega

theorem Held.setFd (h : Held sb X l L s) (hq : q.cwd = (s.proc p).cwd) :
    Held sb X l L (s.setProc p q) :=
  h.setProc (fun _ _ => Iff.rfl) fun e => by rw [cwdTable, hq]

/-- A current directory becomes a handle of the call. -/
theorem Held.takeCwd (h : Held sb none l L s) (hp : (s.proc p).cwd = some e) :
    Held sb (some p) (e :: l) L s := by
  have := h.setProc (q := s.proc p) (Y := some p) (m := e :: l)
    (fun p' hp' => ⟨nofun, fun heq => absurd (Option.some.inj heq).symm hp'⟩) fun e' => by
      by_cases he : e = e'
      · subst he
        simp [cwdTable, hp, Nat.add_comm]
      · simp [cwdTable, hp, he]
  rwa [State.setProc, update_eq_self] at this

/-- A handle of the call becomes a current directory. -/
theorem Held.giveCwd (h : Held sb (some p) (e :: l) L s) (hq : q.cwd = some e) :
    Held sb none l L (s.setProc p q) :=
  h.setProc (fun p' hp' => ⟨fun heq => absurd (Option.some.inj heq).symm hp', nofun⟩) fun e' => by
    by_cases he : e = e'
    · subst he
      simp [cwdTable, hq, Nat.add_comm]
    · simp [cwdTable, hq, he]

/-- The process has no current directory any more. -/
theorem Held.noCwd (h : Held sb (some p) l L s) (hq : q.cwd = none) :
    Held sb none l L (s.setProc p q) :=
  h.setProc (fun p' hp' => ⟨fun heq => absurd (Option.some.inj heq).symm hp', nofun⟩) fun e' => by
    simp [cwdTable, hq]

/-! ### `file.c` -/

theorem filealloc_wp (h : Held sb X l L s) :
    wp NoDoubleFree filealloc (fun r t => Held sb X l L t ∧ t.icache = s.icache ∧
      ∀ f, r = some f → (t.ftable f).type = .none ∧ (t.ftable f).ref = 1) s := by
  unfold filealloc
  rw [wp_bind, wp_get]
  cases hfind : (List.finRange NFILE).find? fun f => (s.ftable f).ref == 0 with
  | none => exact ⟨h, rfl, nofun⟩
  | some f =>
    have hr : (s.ftable f).ref = 0 := by simpa using List.find?_some hfind
    refine ⟨h.touchFile rfl rfl rfl fun _ => hr, rfl, fun g hg => ?_⟩
    cases hg
    obtain ⟨T, h⟩ := h
    change (update s.ftable f _ f).type = .none ∧ (update s.ftable f _ f).ref = 1
    rw [update_self]
    exact ⟨h.handles.idle f hr, rfl⟩

theorem filedup_wp (h : Held sb X l L s) :
    wp NoDoubleFree (filedup f) (fun _ t => Held sb X l L t ∧ t.icache = s.icache ∧ t.proc = s.proc) s := by
  unfold filedup
  rw [wp_bind, wp_file]
  exact wp_ite (fun _ => wp_panic (by decide)) fun _ => ⟨h.touchFile rfl rfl rfl nofun, rfl, rfl⟩

theorem fileclose_wp (h : Held sb X l unlocked s) :
    wp NoDoubleFree (fileclose sb f) (fun _ t => Held sb X l unlocked t) s := by
  unfold fileclose
  rw [wp_bind, wp_file]
  refine wp_ite (fun _ => wp_panic (by decide)) fun href => wp_ite (fun _ => ?_) fun _ => ?_
  · exact h.touchFile rfl rfl rfl fun h0 => by simp only at h0; omega
  -- the file's reference becomes the call's
  have hclose : (s.ftable f).type ≠ .none → Held sb X ((s.ftable f).ip :: l) unlocked
      (s.setFile f { s.ftable f with ref := 0, type := .none }) := fun hty =>
    h.setFile (fun e => by
      by_cases he : (s.ftable f).ip = e
      · subst he
        simp [File.isOn, hty, Nat.add_comm]
      · simp [File.isOn, he]) (fun _ => rfl) (by simp)
  rw [wp_bind, wp_setFile]
  cases hty : (s.ftable f).type with
  | none => exact h.setFile (fun e => by simp [File.isOn, hty]) (fun _ => rfl) (by simp)
  | inode | device => exact (iput_wp (hclose (by simp [hty])) (.inl rfl)).seq fun _ _ ht => endOp_wp ht

theorem advance_wp (h : Held sb X l L s) (hff : s.ftable f = ff) (r : Option Nat) :
    wp NoDoubleFree (advance f ff r) (fun _ t => Held sb X l L t ∧
      (t.ftable f).type = ff.type ∧ (t.ftable f).writable = ff.writable) s := by
  subst hff
  cases r with
  | none => exact ⟨h, rfl, rfl⟩
  | some n =>
    unfold advance
    rw [wp_setFile]
    refine ⟨h.touchFile rfl rfl rfl id, ?_, ?_⟩ <;> simp [State.setFile]

variable {n : Nat}

theorem fileread_wp (h : Held sb X l unlocked s) :
    wp NoDoubleFree (fileread sb f n) (fun _ t => Held sb X l unlocked t) s := by
  unfold fileread
  rw [wp_bind, wp_file]
  refine wp_ite (fun _ => h) fun _ => ?_
  cases (s.ftable f).type with
  | none => exact wp_panic (by decide)
  | device => exact h
  | inode =>
    refine (ilock_held h).seq fun _ t ht => ?_
    obtain ⟨T, hT⟩ := ht.held
    refine (readi_wp hT (by simp) _ _).seq ?_
    rintro r u ⟨rfl, -⟩
    refine (advance_wp ⟨T, hT⟩ (by rw [ht.ftable]) _).seq fun _ v ⟨hv, _⟩ => ?_
    refine (iunlock_held hv).mono fun _ w ⟨hw, _⟩ => ?_
    rwa [update_unlocked] at hw

variable {src : Nat → Option UInt8}

theorem filewriteLoop_wp (fuel i : Nat)
    (h : Held sb X l unlocked s) (hty : (s.ftable f).type = .inode)
    (hw : (s.ftable f).writable = true) :
    wp NoDoubleFree (filewriteLoop sb f src n fuel i) (fun _ t => Held sb X l unlocked t) s := by
  induction fuel generalizing i s with
  | zero => exact h
  | succ fuel ih =>
    refine wp_ite (fun _ => ?_) fun _ => h
    rw [wp_bind, wp_file]
    refine (ilock_held h).seq fun _ t ht => ?_
    -- the file is not a directory
    have hfile : (t.icache (s.ftable f).ip).din.type ≠ T_DIR := by
      obtain ⟨T, h⟩ := h
      obtain ⟨hv, hd⟩ := h.handles.written f hty hw
      rwa [ht.loaded hv]
    obtain ⟨T, hT⟩ := ht.held
    refine (writei_wp hT (by simp) fun hd => absurd hd hfile).seq
      fun r u ⟨T', hu, hframe⟩ => ?_
    refine (advance_wp ⟨T', hu⟩ (by rw [hframe.ftable, ht.ftable]) r).seq
      fun _ v ⟨hv, htv, hwv⟩ => ?_
    refine (iunlock_held hv).seq fun _ w ⟨hw', hft⟩ => ?_
    rw [update_unlocked] at hw'
    have hx := endOp_wp hw'
    rw [endOp, wp_modify] at hx
    rw [wp_bind, endOp, wp_modify]
    cases r with
    | none => exact hx
    | some k =>
      refine wp_ite (fun _ => wp_panic (by decide)) fun _ => ih _ hx ?_ ?_
      · rw [← hty, ← htv, ← hft]
      · rw [← hw, ← hwv, ← hft]

theorem filewrite_wp (h : Held sb X l unlocked s) :
    wp NoDoubleFree (filewrite sb f src n) (fun _ t => Held sb X l unlocked t) s := by
  unfold filewrite
  rw [wp_bind, wp_file]
  refine wp_ite (fun _ => h) fun hw => ?_
  cases hty : (s.ftable f).type with
  | none => exact wp_panic (by decide)
  | device => exact h
  | inode => exact filewriteLoop_wp n 0 h hty (by simpa using hw)

theorem lock_unlock_wp (h : Held sb X l unlocked s) :
    wp NoDoubleFree (do ilock sb e; iunlock e) (fun _ t => Held sb X l unlocked t) s := by
  refine (ilock_held h).seq fun _ t ht => ?_
  refine (iunlock_held ht.held).mono fun _ u ⟨hu, _⟩ => ?_
  rwa [update_unlocked] at hu

theorem filestat_wp (h : Held sb X l unlocked s) :
    wp NoDoubleFree (filestat sb f) (fun _ t => Held sb X l unlocked t) s := by
  unfold filestat
  rw [wp_bind, wp_file]
  cases (s.ftable f).type with
  | none => exact h
  | inode | device => exact lock_unlock_wp h

/-! ### `sysfile.c` -/

/-- Between system calls: no handles, no locks. -/
abbrev Quiet (sb : Superblock) (s : State) : Prop := Held sb none [] unlocked s

variable {fd : Nat}

theorem argfd_wp {Q : Option FileId → State → Prop} (h : ∀ r, Q r s) :
    wp NoDoubleFree (argfd p fd) Q s := h _

theorem setFd_wp {fd : Fin NOFILE} {o : Option FileId} (h : Held sb X l L s) :
    wp NoDoubleFree (setFd p fd o) (fun _ t => Held sb X l L t ∧ t.icache = s.icache ∧
      t.ftable = s.ftable ∧ ∀ q, (t.proc q).cwd = (s.proc q).cwd) s := by
  refine ⟨h.setFd rfl, rfl, rfl, fun q => ?_⟩
  change (update s.proc p _ q).cwd = _
  by_cases hq : q = p
  · rw [hq, update_self]
  · rw [update_of_ne hq]

theorem fdalloc_wp (h : Held sb X l L s) :
    wp NoDoubleFree (fdalloc p f) (fun _ t => Held sb X l L t ∧ t.icache = s.icache ∧
      t.ftable = s.ftable) s := by
  unfold fdalloc
  rw [wp_bind, wp_get]
  cases (List.finRange NOFILE).find? fun fd => (s.proc p).ofile fd == none with
  | none => exact ⟨h, rfl, rfl⟩
  | some fd => exact (setFd_wp h).seq fun _ t ⟨ht, hic, hft, _⟩ => ⟨ht, hic, hft⟩

theorem sysDup_wp (h : Quiet sb s) :
    wp NoDoubleFree (sysDup p fd) (fun _ t => Quiet sb t) s := by
  refine wp_bind.mpr (argfd_wp fun r => ?_)
  cases r with
  | none => exact h
  | some f =>
    refine (fdalloc_wp h).seq fun r t ⟨ht, _⟩ => ?_
    cases r with
    | none => exact ht
    | some fd => exact (filedup_wp ht).mono fun _ _ hu => hu.1

theorem sysClose_wp (h : Quiet sb s) :
    wp NoDoubleFree (sysClose sb p fd) (fun _ t => Quiet sb t) s := by
  refine wp_bind.mpr (argfd_wp fun r => ?_)
  cases r with
  | none => exact h
  | some f =>
    dsimp only
    split
    · exact (setFd_wp h).seq fun _ t ht => fileclose_wp ht.1
    · exact h

theorem sysRead_wp (h : Quiet sb s) :
    wp NoDoubleFree (sysRead sb p fd n) (fun _ t => Quiet sb t) s :=
  wp_bind.mpr (argfd_wp fun r => by
    cases r with
    | none => exact h
    | some f => exact fileread_wp h)

theorem sysWrite_wp (h : Quiet sb s) :
    wp NoDoubleFree (sysWrite sb p fd src n) (fun _ t => Quiet sb t) s :=
  wp_bind.mpr (argfd_wp fun r => by
    cases r with
    | none => exact h
    | some f => exact filewrite_wp h)

theorem sysFstat_wp (h : Quiet sb s) :
    wp NoDoubleFree (sysFstat sb p fd) (fun _ t => Quiet sb t) s :=
  wp_bind.mpr (argfd_wp fun r => by
    cases r with
    | none => exact h
    | some f => exact filestat_wp h)

/-- Fields that say nothing about blocks, assigned and written back. -/
theorem touch_wp {g : Dinode → Dinode} (h : Held sb X l L s) (hL : (L e).isSome = true)
    (hg : ∀ d, (g d).type = d.type ∧ (g d).addrs = d.addrs ∧ (g d).size = d.size) :
    wp NoDoubleFree (do setDin e g; iupdate sb e) (fun _ t => Held sb X l L t ∧ Frame e s t) s := by
  obtain ⟨T, h⟩ := h
  obtain ⟨h₁, h₂, h₃⟩ := hg (s.icache e).din
  rw [wp_bind, wp_setDin, wp_iupdate]
  exact ⟨⟨_, ((h.edit hL).touch h₁ h₂ h₃).iupdate⟩,
    (frame_setDin e _ s).trans ((sameMem_iupdate _ sb e).frame e)⟩

theorem addLink_wp {n : Int16} (h : Held sb X l L s) (hL : (L e).isSome = true) :
    wp NoDoubleFree (do addLink e n; iupdate sb e) (fun _ t => Held sb X l L t ∧ Frame e s t) s :=
  touch_wp h hL fun _ => ⟨rfl, rfl, rfl⟩

/-- The number of an inode that the call has a handle on. -/
theorem Held.inum_lt (h : Held sb X l L s) (he : e ∈ l) : (s.icache e).inum < sb.ninodes := by
  have hr := h.ref_pos he
  obtain ⟨T, h⟩ := h
  exact h.cache.inum hr

theorem unchanged_wp {α : Type} {a : α} : wp NoDoubleFree (pure a : M α) (fun _ t => t = s) s := rfl

theorem exec_read {f : Nat} (h : Held sb X l L s) (hL : (L e).isSome = true) :
    wp NoDoubleFree (readFull sb e f n) (fun _ t => t = s) s := by
  obtain ⟨T, h⟩ := h
  refine (readi_wp h hL _ _).seq ?_
  rintro r t ⟨rfl, -⟩
  cases r <;> exact rfl

theorem loadseg_wp {off : Nat} (h : Held sb X l L s) (hL : (L e).isSome = true) :
    wp NoDoubleFree (loadseg sb e off n) (fun _ t => t = s) s := by
  refine (wp_scan (I := (· = s)) (Q := fun _ t => t = s) _ ?_ rfl).seq ?_
  · rintro i - t rfl
    refine (exec_read h hL).seq ?_
    rintro r t rfl
    cases r <;> exact rfl
  · intro r t ht
    cases r <;> exact ht

variable {mem : Nat → Bool}

theorem loadHeader_wp {phoff i : Nat} (h : Held sb X l L s)
    (hL : (L e).isSome = true) :
    wp NoDoubleFree (loadHeader sb e mem phoff i) (fun _ t => t = s) s := by
  refine (exec_read h hL).seq ?_
  rintro r t rfl
  cases r with
  | none => exact rfl
  | some ph =>
    dsimp only
    generalize field ph 16 8 = vaddr, field ph 32 8 = filesz, field ph 40 8 = memsz
    refine wp_ite (fun _ => unchanged_wp) fun _ => ?_
    refine wp_ite (fun _ => unchanged_wp) fun _ => ?_
    refine wp_ite (fun _ => unchanged_wp) fun _ => ?_
    refine wp_ite (fun _ => unchanged_wp) fun _ => ?_
    refine wp_ite (fun _ => unchanged_wp) fun _ => ?_
    refine (loadseg_wp h hL).seq ?_
    rintro r t rfl
    exact wp_ite (fun _ => unchanged_wp) fun _ => unchanged_wp

theorem execLoad_wp (h : Held sb X l L s) (hL : (L e).isSome = true) :
    wp NoDoubleFree (execLoad sb e mem) (fun _ t => t = s) s := by
  refine (exec_read h hL).seq ?_
  rintro r t rfl
  cases r with
  | none => exact rfl
  | some elf =>
    refine wp_ite (fun _ => rfl) fun _ => ?_
    refine (wp_scan (I := (· = t)) (Q := fun _ u => u = t) _ ?_ rfl).seq ?_
    · rintro i - u rfl
      refine (loadHeader_wp h hL).mono ?_
      rintro r u rfl
      cases r <;> exact rfl
    · intro r u hu
      cases r <;> exact hu

/-- Giving back the only lock and the only handle. -/
theorem iunlockput_quiet {o : Option Int16} (h : Held sb none [e] (update unlocked e o) s) :
    wp NoDoubleFree (do iunlockput sb e; endOp) (fun _ t => Quiet sb t) s := by
  refine (iunlockput_wp h).seq fun _ t ht => ?_
  rw [update_unlocked] at ht
  exact endOp_wp ht

theorem exec_wp {path : Path} (h : Quiet sb s) :
    wp NoDoubleFree (exec sb p path mem) (fun _ t => Quiet sb t) s := by
  refine (namei_wp h).seq fun r t ht => ?_
  cases r with
  | none => exact endOp_wp ht
  | some ip =>
    refine (ilock_held ht).seq fun _ u hu => ?_
    refine (execLoad_wp hu.held (by simp)).seq ?_
    rintro _ v rfl
    exact iunlockput_quiet hu.held

end Xv6.Fs
