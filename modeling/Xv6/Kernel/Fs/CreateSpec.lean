import Xv6.Kernel.Fs.CallSpec

/-! What creating, linking and removing names do to the invariant, and the calls of processes. -/

namespace Xv6.Fs
open Bytes Hoare Xv6.Count Function

variable {sb : Superblock} {X : Option Pid} {l : List EntryId} {L : EntryId → Option Int16}
  {T : Nat → Dinode} {s t : State} {e dp ip : EntryId} {f : FileId} {p : Pid}

/-! ### `create` -/

variable {a b : Option Int16}

/-- Two locked inodes. -/
theorem update_two (hne : ip ≠ dp) :
    update (update (update unlocked dp a) ip b) dp none =
      update unlocked ip b := by
  rw [update_comm hne, update_idem]
  congr 1
  exact update_eq_self dp unlocked

/-- With two locked inodes the call has handles on both. -/
theorem mem_of_locked
    (h : ((update (update unlocked dp a) ip b) e).isSome = true) : e ∈ [ip, dp] := by
  by_cases hip : e = ip
  · simp [hip]
  · by_cases hdp : e = dp
    · simp [hdp]
    · simp [update_of_ne hip, update_of_ne hdp, unlocked] at h

variable {ty : Int16}

theorem createDots_wp
    (h : Held sb none [ip, dp] (update (update unlocked dp a) ip b) s)
    (ha : a.isSome = true) (hb : b.isSome = true) (hne : ip ≠ dp) :
    wp NoDoubleFree (createDots sb ip dp ty)
      (fun _ t => Held sb none [ip, dp] (update (update unlocked dp a) ip b) t) s := by
  have hip : ((update (update unlocked dp a) ip b) ip).isSome = true := by simpa using hb
  have hdp : ((update (update unlocked dp a) ip b) dp).isSome = true := by
    rw [update_of_ne hne.symm, update_self]
    exact ha
  refine wp_ite (fun _ => ?_) fun _ => h
  have hlink := addLink_wp (n := 1) h hdp
  rw [wp_bind] at hlink ⊢
  refine hlink.mono fun _ t ht => ?_
  refine ht.seq fun _ u ⟨hu, _⟩ => ?_
  rw [wp_bind, wp_entry, wp_bind, wp_entry]
  refine (dirlink_wp hu hip (fun _ => mem_of_locked) (hu.inum_lt (by simp))).seq
    fun r v hv => ?_
  refine wp_ite (fun _ => ?_) fun _ => wp_panic (by decide)
  refine (dirlink_wp hv hip (fun _ => mem_of_locked) (hu.inum_lt (by simp))).seq
    fun r w hw => ?_
  exact wp_ite (fun _ => hw) fun _ => wp_panic (by decide)

/-- What `create` returns: nothing, or a locked inode, which is not a directory when the type is
    `T_FILE`. -/
def Created (sb : Superblock) (type : Int16) (r : Option EntryId) (s : State) : Prop :=
  r.elim (Quiet sb s) fun ip => ∃ ty, Held sb none [ip] (update unlocked ip (some ty)) s ∧
    (type = T_FILE → ty ≠ T_DIR)

variable {path : Path} {type major minor : Int16}

theorem create_wp (h : Quiet sb s) :
    wp NoDoubleFree (create sb p path type major minor) (Created sb type) s := by
  refine (namex_wp h).seq fun r t ht => ?_
  cases r with
  | none => exact ht
  | some x =>
    obtain ⟨dp, name⟩ := x
    have ht : Held sb none [dp] unlocked t := ht
    refine (ilock_held ht).seq fun _ u hu => ?_
    refine (dirlookup_wp hu.held (by simp)).seq fun r v ⟨hv, _⟩ => ?_
    cases r with
    | some y =>
      -- the name exists
      obtain ⟨ip, off⟩ := y
      refine (iunlockput_wp (Held.perm hv (List.Perm.swap _ _ _))).seq fun _ w hw => ?_
      rw [update_unlocked] at hw
      refine (ilock_held hw).seq fun _ x hx => ?_
      rw [wp_bind, wp_entry]
      refine wp_ite (fun hty => ?_) fun _ => ?_
      · refine ⟨_, hx.held, fun _ hdir => ?_⟩
        rw [hdir] at hty
        exact absurd hty.2 (by decide)
      · refine (iunlockput_wp hx.held).seq fun _ y hy => ?_
        rw [update_unlocked] at hy
        exact hy
    | none =>
      have hv : Held sb none [dp] _ v := hv
      refine (ialloc_wp hv type).seq fun ip w ⟨T, hw, hty⟩ => ?_
      have hlock := ilock_wp (e := ip) hw
      refine hlock.seq fun _ x ⟨_, hfree, _, hx⟩ => ?_
      rw [hty] at hx
      have hne : ip ≠ dp := by
        rintro rfl
        rw [update_self] at hfree
        cases hfree
      have htouch := touch_wp (e := ip) (g := fun d => { d with major := major, minor := minor, nlink := 1 })
        ⟨T, hx⟩ (by simp) fun _ => ⟨rfl, rfl, rfl⟩
      rw [wp_bind] at htouch ⊢
      refine htouch.mono fun _ y hy => ?_
      refine hy.seq fun _ z ⟨hz, _⟩ => ?_
      refine (createDots_wp hz (by simp) (by simp) hne).seq fun _ s₁ hs₁ => ?_
      rw [wp_bind, wp_entry]
      have hdp : ∀ a : Int16, ((update (update unlocked dp (some a)) ip (some type))
          dp).isSome = true := fun a => by
        rw [update_of_ne hne.symm, update_self]
        rfl
      refine (dirlink_wp hs₁ (hdp _) (fun _ => mem_of_locked)
        (hs₁.inum_lt (by simp))).seq fun r s₂ hs₂ => ?_
      refine wp_ite (fun _ => ?_) fun _ => wp_panic (by decide)
      refine (iunlockput_wp (Held.perm hs₂ (List.Perm.swap _ _ _))).seq fun _ s₃ hs₃ => ?_
      rw [update_two hne] at hs₃
      refine ⟨type, hs₃, fun hf => ?_⟩
      rw [hf]
      decide

theorem makeNode_wp (h : Quiet sb s) :
    wp NoDoubleFree (makeNode sb p path type major minor) (fun _ t => Quiet sb t) s := by
  refine (create_wp h).seq fun r t ht => ?_
  cases r with
  | none => exact endOp_wp ht
  | some ip =>
    obtain ⟨ty, ht, -⟩ := ht
    exact iunlockput_quiet ht

/-! ### `sys_open` -/

variable {omode : Nat}

theorem openInode_wp
    (h : Held sb none [ip] (update unlocked ip (some ty)) s)
    (hw : (omode &&& O_WRONLY != 0 || omode &&& O_RDWR != 0) = true → ty ≠ T_DIR) :
    wp NoDoubleFree (openInode sb p ip omode) (fun _ t => Quiet sb t) s := by
  unfold openInode
  rw [wp_bind, wp_entry]
  refine wp_ite (fun _ => iunlockput_quiet h) fun _ => ?_
  refine (filealloc_wp h).seq fun r t hr => ?_
  obtain ⟨ht, hic, hf⟩ := hr
  cases r with
  | none => exact iunlockput_quiet ht
  | some f =>
    obtain ⟨hnone, href⟩ := hf f rfl
    refine (fdalloc_wp ht).seq fun r u hr => ?_
    obtain ⟨hu, hic', hft⟩ := hr
    cases r with
    | none =>
      -- no descriptor: the file goes back unused
      refine wp_bind.mpr ?_
      unfold fileclose
      rw [wp_bind, wp_file, hft, href]
      rw [if_neg (by omega), if_neg (by omega), wp_bind, wp_setFile, hnone]
      refine iunlockput_quiet (hu.setFile (fun e => ?_) (fun _ => rfl) (by simp))
      simp [File.isOn, hft, hnone]
    | some fd =>
      rw [wp_bind, wp_file, wp_bind, wp_setFile]
      have hheld : (u.icache ip).valid = true ∧ (u.icache ip).din.type = ty := by
        obtain ⟨T, hu⟩ := hu
        exact (hu.cache.held (update_self ip _ _)).2
      have hfile : Held sb none [] (update unlocked ip (some ty)) (u.setFile f
          { u.ftable f with
            type := if (s.icache ip).din.type = T_DEVICE then .device else .inode
            major := if (s.icache ip).din.type = T_DEVICE then (s.icache ip).din.major
              else (u.ftable f).major
            minor := if (s.icache ip).din.type = T_DEVICE then (s.icache ip).din.minor
              else (u.ftable f).minor
            ip := ip
            off := 0
            readable := omode &&& O_WRONLY == 0
            writable := omode &&& O_WRONLY != 0 || omode &&& O_RDWR != 0 }) := by
        refine hu.setFile (fun e => ?_) (fun h0 => ?_) fun _ hwr => ⟨hheld.1, ?_⟩
        · have hty : ((if (s.icache ip).din.type = T_DEVICE then FdType.device else .inode) != .none) =
              true := by
            split <;> rfl
          by_cases he : ip = e
          · subst he
            simp [File.isOn, hft, hnone, hty]
          · simp [File.isOn, hft, hnone, hty, List.count_singleton, beq_eq_false_iff_ne.mpr he]
        · rw [hft, href] at h0
          cases h0
        · rw [hheld.2]
          exact hw hwr
      refine (iunlock_held hfile).seq fun _ v hr => ?_
      have hv := hr.1
      rw [update_unlocked] at hv
      exact endOp_wp hv

theorem sysOpen_wp (h : Quiet sb s) :
    wp NoDoubleFree (sysOpen sb p path omode) (fun _ t => Quiet sb t) s := by
  refine wp_ite (fun _ => ?_) fun _ => ?_
  · refine (create_wp h).seq fun r t ht => ?_
    cases r with
    | none => exact endOp_wp ht
    | some ip =>
      obtain ⟨ty, ht, hty⟩ := ht
      exact openInode_wp ht fun _ => hty rfl
  · refine (namei_wp h).seq fun r t ht => ?_
    cases r with
    | none => exact endOp_wp ht
    | some ip =>
      refine (ilock_held ht).seq fun _ u hu => ?_
      rw [wp_bind, wp_entry]
      refine wp_ite (fun _ => iunlockput_quiet hu.held) fun hdir => ?_
      refine openInode_wp hu.held fun hwr hd => hdir ⟨hd, ?_⟩
      rintro rfl
      exact absurd hwr (by decide)

/-! ### `sys_link` and `sys_unlink` -/

theorem linkBad_wp (h : Held sb none [ip] unlocked s) :
    wp NoDoubleFree (linkBad sb ip) (fun _ t => Quiet sb t) s := by
  refine (ilock_held h).seq fun _ t ht => ?_
  have hlink := addLink_wp (e := ip) (n := -1) ht.held (by simp)
  rw [wp_bind] at hlink ⊢
  refine hlink.mono fun _ u hu => ?_
  exact hu.seq fun _ v ⟨hv, _⟩ => iunlockput_quiet hv

theorem sysLink_wp {old new : Path} (h : Quiet sb s) :
    wp NoDoubleFree (sysLink sb p old new) (fun _ t => Quiet sb t) s := by
  refine (namei_wp h).seq fun r t ht => ?_
  cases r with
  | none => exact endOp_wp ht
  | some ip =>
    refine (ilock_held ht).seq fun _ u hu => ?_
    rw [wp_bind, wp_entry]
    refine wp_ite (fun _ => iunlockput_quiet hu.held) fun _ => ?_
    have hlink := addLink_wp (e := ip) (n := 1) hu.held (by simp)
    rw [wp_bind] at hlink ⊢
    refine hlink.mono fun _ v hv => ?_
    refine hv.seq fun _ w ⟨hw, _⟩ => ?_
    refine (iunlock_held hw).seq fun _ x ⟨hx, _⟩ => ?_
    rw [update_unlocked] at hx
    refine (namex_wp hx).seq fun r y hy => ?_
    cases r with
    | none => exact linkBad_wp hy
    | some z =>
      obtain ⟨dp, name⟩ := z
      have hy : Held sb none [dp, ip] unlocked y := hy
      refine (ilock_held hy).seq fun _ s₁ hs₁ => ?_
      rw [wp_bind, wp_entry]
      refine (dirlink_wp hs₁.held (by simp) (fun e he => ?_)
        (hs₁.held.inum_lt (by simp))).seq fun r s₂ hs₂ => ?_
      · by_cases hdp : e = dp
        · simp [hdp]
        · simp [hdp, unlocked] at he
      refine wp_ite (fun _ => ?_) fun _ => ?_
      · refine (iunlockput_wp hs₂).seq fun _ s₃ hs₃ => ?_
        rw [update_unlocked] at hs₃
        exact (iput_wp hs₃ (.inl rfl)).seq fun _ _ hs₄ => endOp_wp hs₄
      · refine (iunlockput_wp hs₂).seq fun _ s₃ hs₃ => ?_
        rw [update_unlocked] at hs₃
        exact linkBad_wp hs₃

theorem isdirempty_wp (h : Held sb X l L s) (hL : (L e).isSome = true) :
    wp NoDoubleFree (isdirempty sb e) (fun _ t => t = s) s := by
  unfold isdirempty
  rw [wp_bind, wp_entry]
  refine (wp_scan (I := (· = s)) (Q := fun _ t => t = s) _ ?_ rfl).seq ?_
  · rintro off hoff t rfl
    obtain ⟨k, rfl⟩ := mem_offsets (List.mem_of_mem_drop hoff)
    refine (readDirent_wp (by decide) h hL k).seq ?_
    rintro de u ⟨rfl, -⟩
    exact wp_ite (fun _ => rfl) fun _ => rfl
  · intro r t ht
    cases r <;> exact ht

theorem unlinkBusy_wp (h : Held sb X l L s) (hL : (L e).isSome = true) :
    wp NoDoubleFree (unlinkBusy sb e ty) (fun _ t => t = s) s :=
  wp_ite (fun _ => (isdirempty_wp h hL).seq fun _ _ ht => ht) fun _ => rfl

theorem unlinkParent_wp (h : Held sb X l L s) (hL : (L e).isSome = true) :
    wp NoDoubleFree (unlinkParent sb e ty) (fun _ t => Held sb X l L t) s :=
  wp_ite (fun _ => (addLink_wp h hL).mono fun _ _ ht => ht.1) fun _ => h

theorem sysUnlink_wp (h : Quiet sb s) :
    wp NoDoubleFree (sysUnlink sb p path) (fun _ t => Quiet sb t) s := by
  refine (namex_wp h).seq fun r t ht => ?_
  cases r with
  | none => exact endOp_wp ht
  | some x =>
    obtain ⟨dp, name⟩ := x
    have ht : Held sb none [dp] unlocked t := ht
    refine (ilock_held ht).seq fun _ u hu => ?_
    refine wp_ite (fun _ => iunlockput_quiet hu.held) fun _ => ?_
    refine (dirlookup_wp hu.held (by simp)).seq fun r v ⟨hv, hoff⟩ => ?_
    cases r with
    | none => exact iunlockput_quiet hv
    | some y =>
      obtain ⟨ip, off⟩ := y
      obtain ⟨k, rfl⟩ := hoff _ rfl
      have hv : Held sb none [ip, dp] _ v := hv
      refine (ilock_held hv).seq fun _ w hw => ?_
      have hne : ip ≠ dp := by
        rintro rfl
        have := hw.free
        rw [update_self] at this
        cases this
      have hdp : ∀ a b : Int16, ((update (update unlocked dp (some a)) ip (some b))
          dp).isSome = true := fun a b => by
        rw [update_of_ne hne.symm, update_self]
        rfl
      rw [wp_bind, wp_entry]
      refine wp_ite (fun _ => wp_panic (by decide)) fun _ => ?_
      refine (unlinkBusy_wp hw.held (by simp)).seq ?_
      rintro busy x rfl
      refine wp_ite (fun _ => ?_) fun _ => ?_
      · refine (iunlockput_wp hw.held).seq fun _ s₁ hs₁ => ?_
        rw [update_idem] at hs₁
        have heq : update (update unlocked dp (some (u.icache dp).din.type)) ip none =
            update unlocked dp (some (u.icache dp).din.type) := by
          rw [update_comm hne.symm]
          congr 1
          exact update_eq_self ip unlocked
        rw [heq] at hs₁
        exact iunlockput_quiet hs₁
      · refine (writeDirent_wp (by decide) hw.held (hdp _ _) rfl
          (Nat.lt_of_le_of_lt (Nat.zero_le _) sb.root) k).seq fun _ s₁ ⟨hs₁, _⟩ => ?_
        refine (unlinkParent_wp hs₁ (hdp _ _)).seq fun _ s₂ hs₂ => ?_
        refine (iunlockput_wp (Held.perm hs₂ (List.Perm.swap _ _ _))).seq
          fun _ s₃ hs₃ => ?_
        rw [update_two hne] at hs₃
        have hlink := addLink_wp (e := ip) (n := -1) hs₃ (by simp)
        rw [wp_bind] at hlink ⊢
        refine hlink.mono fun _ s₄ hs₄ => ?_
        exact hs₄.seq fun _ s₅ ⟨hs₅, _⟩ => iunlockput_quiet hs₅

/-! ### `chdir`, `fork` and `exit` -/

theorem putCwd_wp (h : Held sb none l unlocked s) :
    wp NoDoubleFree (putCwd sb p) (fun _ t => Held sb (some p) l unlocked t) s := by
  unfold putCwd
  rw [wp_bind, wp_get]
  cases hcwd : (s.proc p).cwd with
  | none => exact wp_panic (by decide)
  | some cwd => exact iput_wp (h.takeCwd hcwd) (.inl rfl)

theorem sysChdir_wp (h : Quiet sb s) :
    wp NoDoubleFree (sysChdir sb p path) (fun _ t => Quiet sb t) s := by
  refine (namei_wp h).seq fun r t ht => ?_
  cases r with
  | none => exact endOp_wp ht
  | some ip =>
    refine (ilock_held ht).seq fun _ u hu => ?_
    rw [wp_bind, wp_entry]
    refine wp_ite (fun _ => iunlockput_quiet hu.held) fun _ => ?_
    refine (iunlock_held hu.held).seq fun _ v ⟨hv, _⟩ => ?_
    rw [update_unlocked] at hv
    refine (putCwd_wp hv).seq fun _ w hw => ?_
    exact (endOp_wp hw).seq fun _ x hx => hx.giveCwd rfl

theorem fork_wp (h : Quiet sb s) : wp NoDoubleFree (fork p) (fun _ t => Quiet sb t) s := by
  unfold fork
  rw [wp_bind, wp_get]
  cases hfind : (List.finRange NPROC).find? fun q => (s.proc q).cwd == none with
  | none => exact h
  | some np =>
    have hnp : (s.proc np).cwd = none := by simpa using List.find?_some hfind
    refine (wp_forM (I := fun _ t => Quiet sb t ∧ t.icache = s.icache ∧
      ∀ q, (t.proc q).cwd = (s.proc q).cwd) _ ?_ ⟨h, rfl, fun _ => rfl⟩).seq ?_
    · rintro fd fds t ⟨ht, hic, hcwd⟩
      cases (s.proc p).ofile fd with
      | none => exact ⟨ht, hic, hcwd⟩
      | some f =>
        refine (filedup_wp ht).seq fun _ u ⟨hu, hic', hproc⟩ => ?_
        refine (setFd_wp hu).mono fun _ v ⟨hv, hic'', _, hcwd'⟩ => ⟨hv, ?_, fun q => ?_⟩
        · rw [hic'', hic', hic]
        · rw [hcwd' q, hproc, hcwd q]
    · rintro _ t ⟨ht, hic, hcwd⟩
      cases hp : (s.proc p).cwd with
      | none => exact wp_panic (by decide)
      | some cwd =>
        have hpos := ht.cwd_pos ((hcwd p).trans hp)
        obtain ⟨T, hT⟩ := ht
        refine wp_bind.mpr ?_
        have hdup : Held sb none [cwd] unlocked (t.setRef cwd ((t.icache cwd).ref + 1)) :=
          ⟨T, hT.dup hpos⟩
        -- the child has no directory yet: it need not be counted
        refine (hdup.setProc (fun _ _ => Iff.rfl) fun e => ?_ :
          Held sb none [] unlocked (State.setProc _ np { t.proc np with cwd := some cwd }))
        have hnp' : ((t.setRef cwd ((t.icache cwd).ref + 1)).proc np).cwd = none :=
          (hcwd np).trans hnp
        by_cases he : cwd = e
        · subst he
          simp [cwdTable, hnp']
        · simp [cwdTable, hnp', List.count_singleton, beq_eq_false_iff_ne.mpr he]

theorem exit_wp (h : Quiet sb s) : wp NoDoubleFree (exit sb p) (fun _ t => Quiet sb t) s := by
  refine wp_ite (fun _ => wp_panic (by decide)) fun _ => ?_
  refine (wp_forM (I := fun _ t => Quiet sb t) _ ?_ h).seq fun _ t ht => ?_
  · intro fd fds t ht
    rw [wp_bind, wp_get]
    cases (t.proc p).ofile fd with
    | none => exact ht
    | some f =>
      exact (fileclose_wp ht).seq fun _ u hu => (setFd_wp hu).mono fun _ _ hv => hv.1
  · refine (putCwd_wp ht).seq fun _ u hu => ?_
    exact (endOp_wp hu).seq fun _ v hv => hv.noCwd rfl

end Xv6.Fs
