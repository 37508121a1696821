import Xv6.Kernel.Fs.FileSpec

/-! What looking up and linking names do to the invariant. -/

namespace Xv6.Fs
open Bytes Hoare Function

variable {sb : Superblock} {X : Option Pid} {l : List EntryId} {L : EntryId → Option Int16}
  {T : Nat → Dinode} {s t : State} {e dp ip : EntryId}

/-! ### Directories -/

theorem mem_offsets {size off : Nat} (h : off ∈ offsets size) : ∃ k, off = 16 * k := by
  obtain ⟨k, -, rfl⟩ := List.mem_map.mp h
  exact ⟨k, rfl⟩

/-- The handles of a call that may have got one more. -/
def HeldWith (sb : Superblock) (X : Option Pid) (l : List EntryId) (L : EntryId → Option Int16)
    (r : Option EntryId) (s : State) : Prop := r.elim (Held sb X l L s) fun e => Held sb X (e :: l) L s

theorem dirlookup_wp {name : Path} (h : Held sb X l L s) (hL : (L dp).isSome = true) :
    wp NoDoubleFree (dirlookup sb dp name) (fun r t => HeldWith sb X l L (r.map (·.1)) t ∧
      ∀ x, r = some x → ∃ k, x.2 = 16 * k) s := by
  unfold dirlookup
  rw [wp_bind, wp_entry]
  refine wp_ite (fun _ => wp_panic (by decide)) fun hty => ?_
  have hty : (s.icache dp).din.type = T_DIR := not_ne_iff.mp hty
  refine (wp_scan (I := (· = s)) (Q := fun x t => Held sb X (x.1 :: l) L t ∧ ∃ k, x.2 = 16 * k) _
    ?_ rfl).mono ?_
  · rintro off hoff t rfl
    obtain ⟨k, rfl⟩ := mem_offsets hoff
    refine (readDirent_wp (by decide) h hL k).seq ?_
    rintro de u ⟨rfl, hde⟩
    refine wp_ite (fun _ => rfl) fun _ => wp_ite (fun _ => ?_) fun _ => rfl
    obtain ⟨T, h⟩ := h
    refine (iget_wp h (hde hty)).seq fun e v ⟨hv, _⟩ => ?_
    exact ⟨⟨T, hv⟩, k, rfl⟩
  · intro r t ht
    cases r with
    | none =>
      obtain rfl : t = s := ht
      exact ⟨h, nofun⟩
    | some x => exact ⟨ht.1, fun y hy => Option.some.inj hy ▸ ht.2⟩

theorem length_strncpy (t : Path) (n : Nat) : (strncpy t n).length = n := by
  induction n generalizing t with
  | zero => rfl
  | succ n ih =>
    unfold strncpy
    split
    · simp
    · simp [ih]

/-- `dirlink` is called with handles on all locked inodes. -/
theorem dirlink_wp {name : Path} {inum : Nat} (h : Held sb X l L s) (hdp : (L dp).isSome = true)
    (hL : ∀ e, (L e).isSome = true → e ∈ l) (hinum : inum < sb.ninodes) :
    wp NoDoubleFree (dirlink sb dp name inum) (fun _ t => Held sb X l L t) s := by
  refine (dirlookup_wp h hdp).seq fun r t ⟨ht, _⟩ => ?_
  cases r with
  | some x =>
    refine (iput_wp ht ?_).seq fun _ u hu => hu
    cases hx : L x.1 with
    | none => exact .inl rfl
    | some ty => exact .inr (hL x.1 (by rw [hx]; rfl))
  | none =>
    have ht : Held sb X l L t := ht
    rw [wp_bind, wp_entry]
    refine (wp_scan (I := (· = t)) (Q := fun off u => u = t ∧ ∃ k, off = 16 * k) _
      ?_ rfl).seq ?_
    · rintro off hoff u rfl
      obtain ⟨k, rfl⟩ := mem_offsets hoff
      refine (readDirent_wp (by decide) ht hdp k).seq ?_
      rintro de v ⟨rfl, -⟩
      exact wp_ite (fun _ => ⟨rfl, k, rfl⟩) fun _ => rfl
    · intro found u hu
      have hfound : u = t ∧ ∃ k, found.getD (16 * (((t.icache dp).din.size.toNat + 15) / 16)) = 16 * k := by
        cases found with
        | none => exact ⟨hu, _, rfl⟩
        | some off => exact hu
      obtain ⟨rfl, k, hk⟩ := hfound
      simp only [hk]
      exact (writeDirent_wp (by decide) ht hdp (length_strncpy _ _) hinum k).seq
        fun _ v hv => hv.1

/-! ### Paths -/

/-- No inode is locked. -/
def unlocked : EntryId → Option Int16 := fun _ => none

@[simp] theorem update_unlocked (e : EntryId) (o : Option Int16) :
    update (update unlocked e o) e none = unlocked := by
  rw [update_idem]
  exact update_eq_self e unlocked

/-- What `ilock` leaves. -/
structure Locked (sb : Superblock) (X : Option Pid) (l : List EntryId) (L : EntryId → Option Int16)
    (e : EntryId) (s t : State) : Prop where
  free : L e = none
  used : 0 < (s.icache e).ref
  inum : (t.icache e).inum = (s.icache e).inum
  loaded : (s.icache e).valid = true → (t.icache e).din = (s.icache e).din
  ftable : t.ftable = s.ftable
  held : Held sb X l (update L e (some (t.icache e).din.type)) t

theorem ilock_held (h : Held sb X l L s) :
    wp NoDoubleFree (ilock sb e) (fun _ t => Locked sb X l L e s t) s := by
  obtain ⟨T, h⟩ := h
  refine (ilock_wp h).mono ?_
  rintro _ t ⟨rfl, hL, hr, ht⟩
  have hdin : ((s.locked T e).icache e).din = T (s.icache e).inum := by simp [State.locked]
  exact ⟨hL, hr, by simp [State.locked], fun hv => by rw [hdin, h.stored.sync e hr hv (by simp)], rfl,
    T, by rw [hdin]; exact ht⟩

theorem iunlock_held (h : Held sb X l L s) :
    wp NoDoubleFree (iunlock e) (fun _ t => Held sb X l (update L e none) t ∧
      t.ftable = s.ftable) s := by
  obtain ⟨T, h⟩ := h
  refine (iunlock_wp h).mono ?_
  rintro _ t ⟨rfl, ht⟩
  exact ⟨⟨T, ht⟩, rfl⟩

theorem length_dropWhile_le {α : Type} (p : α → Bool) (xs : List α) :
    (xs.dropWhile p).length ≤ xs.length := (List.dropWhile_suffix p).length_le

/-- An element is not empty. -/
theorem skipelem_length {path name rest : Path} (h : skipelem path = some (name, rest)) :
    rest.length < path.length := by
  unfold skipelem at h
  cases hdrop : path.dropWhile (· = slash) with
  | nil => rw [hdrop] at h; cases h
  | cons c path' =>
    rw [hdrop] at h
    have hc : ¬ decide (c = slash) = true := by
      have := List.head?_dropWhile_not (fun x => decide (x = slash)) path
      rw [hdrop] at this
      simpa using this
    obtain ⟨-, rfl⟩ := Prod.mk.inj (Option.some.inj h)
    have h₁ := length_dropWhile_le (fun x => decide (x = slash)) path
    have h₂ := length_dropWhile_le (fun x => decide (x = slash))
      ((c :: path').dropWhile fun x => decide (x ≠ slash))
    have h₃ := length_dropWhile_le (fun x => decide (x ≠ slash)) path'
    have h₄ : (c :: path').dropWhile (fun x => decide (x ≠ slash)) =
        path'.dropWhile fun x => decide (x ≠ slash) := by
      simp [hc]
    rw [hdrop, List.length_cons] at h₁
    rw [h₄] at h₂ ⊢
    omega

theorem namexLoop_wp {parent : Bool} (fuel : Nat) {path name : Path}
    (h : Held sb X (ip :: l) unlocked s) (hfuel : path.length < fuel) :
    wp NoDoubleFree (namexLoop sb parent fuel ip path name)
      (fun r t => HeldWith sb X l unlocked (r.map (·.1)) t) s := by
  induction fuel generalizing ip path name s with
  | zero => omega
  | succ fuel ih =>
    unfold namexLoop
    cases hskip : skipelem path with
    | none =>
      refine wp_ite (fun _ => ?_) fun _ => h
      exact (iput_wp h (.inl rfl)).seq fun _ t ht => ht
    | some x =>
      obtain ⟨name', path'⟩ := x
      have hlen := skipelem_length hskip
      refine (ilock_held h).seq fun _ t hlock => ?_
      have ht := hlock.held
      rw [wp_bind, wp_entry]
      refine wp_ite (fun _ => ?_) fun _ => wp_ite (fun _ => ?_) fun _ => ?_
      · refine (iunlockput_wp ht).seq fun _ u hu => ?_
        rw [update_unlocked] at hu
        exact hu
      · refine (iunlock_held ht).seq fun _ u ⟨hu, _⟩ => ?_
        rw [update_unlocked] at hu
        exact hu
      · refine (dirlookup_wp ht (by simp)).seq fun r u ⟨hu, _⟩ => ?_
        cases r with
        | none =>
          refine (iunlockput_wp hu).seq fun _ v hv => ?_
          rw [update_unlocked] at hv
          exact hv
        | some y =>
          refine (iunlockput_wp (Held.perm hu (List.Perm.swap _ _ _))).seq
            fun _ v hv => ?_
          rw [update_unlocked] at hv
          exact ih hv (by omega)

/-- A current directory is in use. -/
theorem Held.cwd_pos (h : Held sb none l L s) {p : Pid} (hp : (s.proc p).cwd = some e) :
    0 < (s.icache e).ref := by
  obtain ⟨T, h⟩ := h
  have h₁ := h.handles.refs e
  have h₂ : 0 < cwds s none e := Count.count_pos (i := p) (by simp [cwdTable, hp])
  omega

theorem namex_wp {p : Pid} {path : Path} {parent : Bool} (h : Held sb none l unlocked s) :
    wp NoDoubleFree (namex sb p path parent)
      (fun r t => HeldWith sb none l unlocked (r.map (·.1)) t) s := by
  refine wp_ite (fun _ => ?_) fun _ => ?_
  · obtain ⟨T, h⟩ := h
    refine (iget_wp h sb.root).seq fun e t ⟨ht, _⟩ => ?_
    exact namexLoop_wp _ ⟨T, ht⟩ (Nat.lt_succ_self _)
  · rw [wp_bind, wp_get]
    cases hcwd : (s.proc p).cwd with
    | none => exact wp_panic (by decide)
    | some cwd =>
      refine (idup_wp h (h.cwd_pos hcwd)).seq fun _ t ht => ?_
      exact namexLoop_wp _ ht (Nat.lt_succ_self _)

theorem namei_wp {p : Pid} {path : Path} (h : Held sb none l unlocked s) :
    wp NoDoubleFree (namei sb p path) (fun r t => HeldWith sb none l unlocked r t) s :=
  (namex_wp h).seq fun _ _ ht => ht

end Xv6.Fs
