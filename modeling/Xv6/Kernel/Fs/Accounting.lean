import Xv6.Kernel.Fs.CreateSpec

/-! Block accounting over sequences of system calls.

    ```
    WellFormed image ──boot──▶ Quiet ──call──▶ Quiet ──call──▶ Quiet
                                 │               │               │
                                 ▼               ▼               ▼
                             Accounted       Accounted       Accounted
    ```

    `Quiet` is the invariant of the file system between two system calls. What it says about the disk
    is that the free map is exact and that no block has two owners. -/

namespace Xv6.Fs
open Bytes Xv6.Count Hoare

variable {sb : Superblock} {s t : State} {p : Pid}

/-! ### One event -/

/-- Only buffers that hold no metadata can lose a change when they are recycled. -/
theorem Quiet.recycle (h : Quiet sb s) {U : Nat → Option Block} (hU : ∀ c, U c = none ∨ U c = s.unlogged c) :
    Quiet sb { s with unlogged := U } := by
  obtain ⟨T, h⟩ := h
  have hsame : ∀ c, s.unlogged c = none → ({ s with unlogged := U } : State).view c = s.view c := fun c hc => by
    have hnone : U c = none := (hU c).elim id fun heq => heq.trans hc
    simp [State.view, hc, hnone]
  have hless : ∀ c, U c ≠ none → s.unlogged c ≠ none := fun c hc => by
    rwa [(hU c).resolve_left hc] at hc
  have hclean : ∀ c, c < sb.nmeta → U c = none := fun c hc => by
    by_contra hne
    exact hless c hne (h.stored.clean c hc)
  have hm : SameMem s { s with unlogged := U } := ⟨rfl, rfl, rfl⟩
  refine ⟨T, h.handles.blocks hm, h.cache.blocks hm, h.stored.blocks hm (fun i hi => ?_) ?_ hclean⟩
  · have hlt := (sb.iblock_lt hi).trans sb.bmapstart_lt
    rw [dinodeAt, hsame _ (h.stored.clean _ hlt), dinodeAt]
  · refine h.stored.acct.congr (fun _ _ => ⟨rfl, rfl⟩) (fun _ _ => rfl) (fun c hc => ?_)
      (fun i a ha => ?_) fun i k a ha hsound hk => ?_
    · rw [bitAt, hsame _ (h.stored.clean _ (sb.bblock_lt hc)), bitAt]
    · exact hsame a (not_not.mp (h.stored.acct.sound i _ a ha (.inl rfl)).1)
    · obtain ⟨hU, hdir⟩ := hsound hk
      refine ⟨fun hu => hU (hless a hu), fun hne => ?_⟩
      rw [hsame a (not_not.mp hU)]
      exact hdir hne

theorem Quiet.evict (h : Quiet sb s) (b : Nat) : wp NoDoubleFree (Fs.evict b) (fun _ t => Quiet sb t) s := by
  rw [Fs.evict, wp_modify]
  refine h.recycle fun c => ?_
  by_cases hcb : c = b
  · exact .inl (by rw [hcb, Function.update_self])
  · exact .inr (Function.update_of_ne hcb _ _)

theorem Call.run_wp (c : Call) (h : Quiet sb s) :
    wp NoDoubleFree (c.run sb p) (fun _ t => Quiet sb t) s := by
  cases c with
  | «open» path omode => exact sysOpen_wp h
  | read fd n => exact sysRead_wp h
  | write fd src n => exact sysWrite_wp h
  | close fd => exact sysClose_wp h
  | dup fd => exact sysDup_wp h
  | fstat fd => exact sysFstat_wp h
  | link old new => exact sysLink_wp h
  | unlink path => exact sysUnlink_wp h
  | mkdir path | mknod path major minor => exact makeNode_wp h
  | chdir path => exact sysChdir_wp h
  | exec path mem => exact exec_wp h
  | fork => exact fork_wp h
  | exit => exact exit_wp h

theorem Event.run_wp (ev : Event) (h : Quiet sb s) :
    wp NoDoubleFree (ev.run sb) (fun _ t => Quiet sb t) s := by
  cases ev with
  | evict b => exact h.evict b
  | call p c =>
    refine wp_bind.mpr (wp_get.mpr ?_)
    cases (s.proc p).cwd with
    | none => exact h
    | some cwd => exact c.run_wp h

theorem runEvents_wp (es : List Event) (h : Quiet sb s) :
    wp NoDoubleFree (runEvents sb es) (fun _ t => Quiet sb t) s :=
  wp_forM es (fun ev _ _ ht => ev.run_wp ht) h

/-! ### What it says about a disk -/

/-- The owner `(i, k)` of a block, read from the disk: slot `k` of the allocated inode `i` holds its
    number. -/
def diskOwn (sb : Superblock) (d : Disk) : Nat × Nat → Option Nat := own sb (dinodeAt sb d) d

/-- The free map marks the metadata and the owned blocks, and a block has at most one owner. -/
structure Accounted (sb : Superblock) (d : Disk) : Prop where
  bits : ∀ b, b < sb.size → (bitAt sb d b = true ↔ b < sb.nmeta ∨ ∃ x, diskOwn sb d x = some b)
  data : ∀ {x b}, diskOwn sb d x = some b → sb.nmeta ≤ b ∧ b < sb.size
  once : ∀ {x y b}, diskOwn sb d x = some b → diskOwn sb d y = some b → x = y

/-- The `n`th block of the file of inode `i`; 0 for a hole. -/
def fileBlock (sb : Superblock) (d : Disk) (i n : Nat) : Nat := slot (dinodeAt sb d i) d (dataSlot n)

/-- No two places in files share a block. -/
def Unshared (sb : Superblock) (d : Disk) : Prop := ∀ i j n m, i < sb.ninodes → j < sb.ninodes →
  (dinodeAt sb d i).type ≠ 0 → (dinodeAt sb d j).type ≠ 0 →
    fileBlock sb d i n = fileBlock sb d j m → fileBlock sb d i n ≠ 0 → i = j ∧ n = m

/-- An exact free map, files without holes, and directories that name inodes. -/
structure WellFormed (sb : Superblock) (d : Disk) : Prop extends Accounted sb d where
  full : ∀ i, i < sb.ninodes → (dinodeAt sb d i).type ≠ 0 →
    ∀ n, n * BSIZE < (dinodeAt sb d i).size.toNat → fileBlock sb d i n ≠ 0
  dirs : ∀ i k b, diskOwn sb d (i, k) = some b → (dinodeAt sb d i).type = T_DIR → k ≠ NDIRECT →
    DirBlock sb (d b)

theorem Accounted.unshared {d : Disk} (h : Accounted sb d) : Unshared sb d := by
  intro i j n m hi hj hti htj heq hne
  have hown := h.once
    (own_eq_some.mpr ⟨hi, hti, rfl, hne⟩) (own_eq_some.mpr ⟨hj, htj, heq.symm, hne⟩)
  exact ⟨congrArg Prod.fst hown, dataSlot_inj (congrArg Prod.snd hown)⟩

namespace WellFormed

variable {d : Disk}

/-- A file without holes is not longer than its slots. -/
theorem small (h : WellFormed sb d) {i : Nat} (hi : i < sb.ninodes) (hty : (dinodeAt sb d i).type ≠ 0) :
    (dinodeAt sb d i).size.toNat ≤ MAXFILE * BSIZE := by
  by_contra hlt
  exact h.full i hi hty MAXFILE (by omega) (slot_ge le_rfl)

theorem acct (h : WellFormed sb d) : Acct sb (dinodeAt sb d) d (fun _ => False) [] where
  meta_used b hb := (h.bits b (hb.trans_le (Nat.sub_le _ _))).mpr (.inl hb)
  ledger := by
    refine ⟨fun b => ⟨fun hu => ?_, fun hb => ?_⟩, h.once, by simp, List.nodup_nil⟩
    · exact .inl (((h.bits b hu.2.1).mp hu.2.2).resolve_left (Nat.not_lt.mpr hu.1))
    · obtain ⟨x, hx⟩ := hb.resolve_right (by simp)
      obtain ⟨hge, hlt⟩ := h.data hx
      exact ⟨hge, hlt, (h.bits b hlt).mpr (.inr ⟨x, hx⟩)⟩
  full := h.full
  small _ := h.small
  sound i k b hb hk := ⟨id, fun hne => h.dirs i k b hb (hk.resolve_left hne) hne⟩

theorem handles_boot (d : Disk) : Handles none [] (boot d) where
  refs e := by
    have hfiles : files (boot d) e = 0 := by
      simp [files, count, boot, File.isOn]
    have hcwds : cwds (boot d) none e = if e = 0 then 1 else 0 := by
      by_cases he : e = 0
      · subst he
        change count (fun p : Pid => if p = 0 then some (0 : EntryId) else none) (· == some 0) = 1
        decide
      · simp [cwds, cwdTable, boot, count, he, Ne.symm he]
    rw [hfiles, hcwds]
    rfl
  idle _ _ := rfl
  written _ h := nomatch h

theorem cache_boot (d : Disk) : Cache sb unlocked (boot d) where
  uniq {e e'} he he' _ := by
    by_cases h : e = 0 <;> by_cases h' : e' = 0 <;> simp_all [boot]
  inum {e} he := by
    by_cases h : e = 0
    · subst h
      exact sb.root
    · simp [boot, h] at he
  typed _ hv := nomatch hv
  locks _ := rfl
  held h := nomatch h

theorem quiet_boot (h : WellFormed sb d) : Quiet sb (boot d) := by
  refine ⟨dinodeAt sb d, handles_boot d, cache_boot d, ⟨nofun, fun _ _ _ => rfl, ?_,
    fun _ _ => rfl⟩⟩
  have hnone : (fun b => (boot d).unlogged b ≠ none) = fun _ => False := by
    funext b
    simp [boot]
  rw [hnone]
  exact h.acct

end WellFormed

/-- On metadata and on indirect blocks the disk is what the buffers say. -/
theorem Quiet.accounted (h : Quiet sb s) : Accounted sb s.disk := by
  obtain ⟨T, h⟩ := h
  have hdisk : ∀ b, s.unlogged b = none → s.disk b = s.view b := fun b hb => by simp [State.view, hb]
  have hinode : ∀ i, i < sb.ninodes → dinodeAt sb s.disk i = T i := fun i hi => by
    rw [← h.stored.ondisk i hi (by simp), dinodeAt, dinodeAt,
      hdisk _ (h.stored.clean _ ((sb.iblock_lt hi).trans sb.bmapstart_lt))]
  have hown : ∀ x, diskOwn sb s.disk x = own sb T s.view x :=
    own_view (fun i hi => by rw [hinode i hi]; exact ⟨rfl, rfl⟩) fun i a ha =>
      hdisk a (not_not.mp (h.stored.acct.sound i _ a ha (.inl rfl)).1)
  refine ⟨fun b hb => ?_, fun hx => ?_, fun hx hy => ?_⟩
  · rw [bitAt, hdisk _ (h.stored.clean _ (sb.bblock_lt hb)), ← bitAt]
    simp only [hown]
    constructor
    · intro hbit
      by_cases hlt : b < sb.nmeta
      · exact .inl hlt
      · exact .inr (((h.stored.acct.ledger.used_iff b).mp ⟨by omega, hb, hbit⟩).resolve_right (by simp))
    · rintro (hlt | ⟨x, hx⟩)
      · exact h.stored.acct.meta_used b hlt
      · exact (h.stored.acct.owned hx).2.2
  · rw [hown] at hx
    have := h.stored.acct.owned hx
    exact ⟨this.1, this.2.1⟩
  · rw [hown] at hx hy
    exact h.stored.acct.ledger.once hx hy

theorem quiet_runEvents {d : Disk} (hd : WellFormed sb d) {es : List Event}
    (hs : runEvents sb es (boot d) = .ok ((), s)) : Quiet sb s := by
  have hrun := runEvents_wp es hd.quiet_boot
  rw [wp, hs] at hrun
  exact hrun

/-- After every sequence of system calls that runs to its end from a well-formed image, the free map
    is exact and no two places in files share a block; and no sequence frees a free block. -/
theorem blocks_accounted {d : Disk} (hd : WellFormed sb d) (es : List Event) :
    (∀ s, runEvents sb es (boot d) = .ok ((), s) → Accounted sb s.disk ∧ Unshared sb s.disk) ∧
      runEvents sb es (boot d) ≠ .error (.panic "freeing free block") := by
  constructor
  · intro s hs
    have hacc := (quiet_runEvents hd hs).accounted
    exact ⟨hacc, hacc.unshared⟩
  · intro hs
    have hrun := runEvents_wp es hd.quiet_boot
    rw [wp, hs] at hrun
    exact hrun rfl

/-! ### A small image -/

/-- One block of inodes and six data blocks. -/
def smallSb : Superblock :=
  ⟨40, 6, 16, 30, 2, 32, 33, by decide, by decide, by decide, by decide, by decide, by decide, by decide⟩

/-- The root directory holds `.` and `..`, in block 34. -/
def smallRoot : Dinode := ⟨T_DIR, 0, 0, 1, 1024, fun j => if j.val = 0 then 34 else 0⟩

def smallImage : Disk := fun b =>
  if b = 32 then putDinode Block.zero 64 smallRoot
  else if b = 33 then fun i => if i.val < 4 then 255 else if i.val = 4 then 7 else 0
  else if b = 34 then fun i =>
    if i.val = 0 ∨ i.val = 16 then 1 else if i.val = 2 ∨ i.val = 18 ∨ i.val = 19 then 46 else 0
  else Block.zero

theorem dinodeAt_smallImage {i : Nat} (hi : i < 16) :
    dinodeAt smallSb smallImage i = if i = 1 then smallRoot else Dinode.zero := by
  have hblk : smallSb.iblock i = 32 := by
    have : i / 16 = 0 := by omega
    exact congrArg (· + 32) this
  have hmod : i % IPB = i := Nat.mod_eq_of_lt hi
  rw [dinodeAt, hblk, hmod]
  change getDinode (putDinode Block.zero 64 smallRoot) (64 * i) = _
  by_cases h1 : i = 1
  · rw [h1, if_pos rfl]
    exact getDinode_putDinode _ _ _ (by decide)
  · rw [if_neg h1, getDinode_putDinode_of_disjoint _ _ _ _ (by omega)]
    simp only [getDinode, getLE_zero]
    rfl

theorem diskOwn_smallImage {i k b : Nat} :
    diskOwn smallSb smallImage (i, k) = some b ↔ i = 1 ∧ k = 0 ∧ b = 34 := by
  rw [diskOwn, own_eq_some]
  constructor
  · rintro ⟨hi, hty, hslot, hb⟩
    rw [dinodeAt_smallImage hi] at hty hslot
    by_cases h1 : i = 1
    · rw [if_pos h1] at hslot
      have haddr : ∀ j, smallRoot.addr j = if j = 0 then 34 else 0 := fun j => by
        by_cases hj : j < NDIRECT + 1
        · rw [Dinode.addr, dif_pos hj, smallRoot]
        · rw [Dinode.addr, dif_neg hj, if_neg (by omega)]
      simp only [slot, haddr] at hslot
      by_cases hk : k = 0
      · subst hk
        exact ⟨h1, rfl, hslot.symm⟩
      · simp [hk, NDIRECT] at hslot
        exact absurd hslot.symm hb
    · rw [if_neg h1] at hty
      exact absurd rfl hty
  · rintro ⟨rfl, rfl, rfl⟩
    rw [dinodeAt_smallImage (by decide)]
    exact ⟨by decide, by decide, rfl, by decide⟩

theorem smallImage_wellFormed : WellFormed smallSb smallImage where
  bits b hb := by
    have hbit : ∀ b : Fin 40, bitAt smallSb smallImage b = decide (b.val < 35) := by decide
    have hb : b < 40 := hb
    rw [hbit ⟨b, hb⟩, decide_eq_true_eq]
    change b < 35 ↔ _
    constructor
    · intro hlt
      by_cases h34 : b = 34
      · exact .inr ⟨(1, 0), diskOwn_smallImage.mpr ⟨rfl, rfl, h34⟩⟩
      · exact .inl (show b < 34 by omega)
    · rintro (hlt | ⟨⟨i, k⟩, hx⟩)
      · exact Nat.lt_succ_of_lt hlt
      · have := (diskOwn_smallImage.mp hx).2.2
        omega
  data {x b} hx := by
    obtain ⟨-, -, rfl⟩ := diskOwn_smallImage.mp hx
    decide
  once {x y b} hx hy := by
    obtain ⟨h₁, h₂, -⟩ := diskOwn_smallImage.mp hx
    obtain ⟨h₃, h₄, -⟩ := diskOwn_smallImage.mp hy
    exact Prod.ext (h₁.trans h₃.symm) (h₂.trans h₄.symm)
  full i hi hty n hn := by
    rw [dinodeAt_smallImage hi] at hty hn
    by_cases h1 : i = 1
    · subst h1
      have hn0 : n = 0 := by
        have : n * 1024 < 1024 := hn
        omega
      subst hn0
      have hslot : fileBlock smallSb smallImage 1 0 = 34 :=
        (own_eq_some.mp (diskOwn_smallImage.mpr ⟨rfl, rfl, rfl⟩)).2.2.1
      rw [hslot]
      decide
    · rw [if_neg h1] at hty
      exact absurd rfl hty
  dirs i k b hb _ _ := by
    obtain ⟨-, -, rfl⟩ := diskOwn_smallImage.mp hb
    have : ∀ j : Fin 64, getLE (smallImage 34) (16 * j) 2 < 16 := by decide
    exact fun j hj => this ⟨j, hj⟩

/-- A run that is seen to end well. -/
theorem runEvents_of_any {es : List Event} {d : Disk} (P : State → Bool)
    (h : (runEvents sb es (boot d)).toOption.any (fun r => P r.2) = true) :
    ∃ s, runEvents sb es (boot d) = .ok ((), s) ∧ P s = true := by
  obtain ⟨⟨⟨⟩, s⟩, hs, hP⟩ := (Option.any_eq_true _ _).mp h
  cases hrun : runEvents sb es (boot d) with
  | ok r =>
    rw [hrun] at hs
    exact ⟨s, congrArg _ (Option.some.inj hs), hP⟩
  | error e =>
    rw [hrun] at hs
    cases hs

/-- `mkdir /a` by the first process, then `unlink /a`. -/
theorem blocks_accounted_mkdir_unlink : WellFormed smallSb smallImage ∧
    ∃ s, runEvents smallSb [.call 0 (.mkdir [47, 97]), .call 0 (.unlink [47, 97])] (boot smallImage) = .ok ((), s) ∧
      bitAt smallSb s.disk 35 = false ∧ Accounted smallSb s.disk ∧ Unshared smallSb s.disk := by
  obtain ⟨s, hs, hbit⟩ : ∃ s, runEvents smallSb [.call 0 (.mkdir [47, 97]), .call 0 (.unlink [47, 97])] (boot smallImage) =
    .ok ((), s) ∧ _ := runEvents_of_any (fun s => bitAt smallSb s.disk 35 == false) (by decide +kernel)
  exact ⟨smallImage_wellFormed, s, hs, beq_iff_eq.mp hbit, (blocks_accounted smallImage_wellFormed _).1 s hs⟩

/-! ### References -/

/-- Processes in a directory, and files of the table in use that are open on an inode. -/
def cwdRefs (s : State) (e : EntryId) : Nat := count s.proc fun q => q.cwd == some e

def fileRefs (s : State) (e : EntryId) : Nat := count s.ftable fun f =>
  decide (0 < f.ref) && (f.type == .inode || f.type == .device) && f.ip == e

theorem Quiet.balanced (h : Quiet sb s) (e : EntryId) :
    (s.icache e).ref = cwdRefs s e + fileRefs s e ∧ (s.icache e).lock = false := by
  obtain ⟨T, h⟩ := h
  have hcwd : cwds s none e = cwdRefs s e := rfl
  have hfile : files s e = fileRefs s e := by
    unfold files fileRefs count
    congr 1
    refine Finset.filter_congr fun f _ => ?_
    have hidle := h.handles.idle f
    unfold File.isOn
    cases hty : (s.ftable f).type with
    | none => simp [hty]
    | inode | device =>
      have hpos : 0 < (s.ftable f).ref := Nat.pos_of_ne_zero fun h0 => by
        rw [hidle h0] at hty
        cases hty
      simp [hpos, hty]
  have hrefs := h.handles.refs e
  rw [List.count_nil, Nat.add_zero, hcwd, hfile] at hrefs
  exact ⟨hrefs, h.cache.locks e⟩

/-- Between system calls an inode is referenced by current directories and open files alone, and it
    is not locked. -/
theorem refs_balanced {d : Disk} (hd : WellFormed sb d) (es : List Event) {s : State}
    (hs : runEvents sb es (boot d) = .ok ((), s)) (e : EntryId) :
    (s.icache e).ref = cwdRefs s e + fileRefs s e ∧ (s.icache e).lock = false :=
  (quiet_runEvents hd hs).balanced e

/-- The first process opens `/`, makes the directory `a`, goes there and opens `.`; it fails to open `b` and
    to go there. A child is forked, and exits. -/
def someCalls : List Event :=
  [.call 0 (.open [47] 0), .call 0 (.mkdir [97]), .call 0 (.chdir [97]), .call 0 (.open [46] 0),
    .call 0 (.open [98] 0), .call 0 (.chdir [98]), .call 0 .fork, .call 1 .exit]

theorem refs_balanced_calls : ∃ s, runEvents smallSb someCalls (boot smallImage) = .ok ((), s) ∧
    (s.icache 0).ref = 1 ∧ (s.icache 1).ref = 2 ∧
      ∀ e, (s.icache e).ref = cwdRefs s e + fileRefs s e ∧ (s.icache e).lock = false := by
  obtain ⟨s, hs, href⟩ : ∃ s, runEvents smallSb someCalls (boot smallImage) = .ok ((), s) ∧ _ :=
    runEvents_of_any (fun s => (s.icache 0).ref == 1 && (s.icache 1).ref == 2) (by decide +kernel)
  rw [Bool.and_eq_true, beq_iff_eq, beq_iff_eq] at href
  exact ⟨s, hs, href.1, href.2, refs_balanced smallImage_wellFormed someCalls hs⟩

end Xv6.Fs
