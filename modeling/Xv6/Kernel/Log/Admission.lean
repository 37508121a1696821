import Mathlib.Algebra.Order.BigOperators.Ring.Finset
import Xv6.Kernel.Log.Isolation

/-! Admission control of the log: `begin_op` reserves `MAXOPBLOCKS` blocks for every operation.

    ```
    blocks recorded          still reserved by the running operations
    lh.length          +     Σ (m - blocks logged so far)                 ≤ LOGSIZE - 2 * (MAXOPBLOCKS - m)
    ```

    where an operation logs at most `m` blocks. With `m = MAXOPBLOCKS` a group may so log `LOGSIZE` blocks.
    The log that `mkfs` makes has `LOGSIZE` blocks of which one is the header, and `log_write` refuses every
    call once `LOGSIZE - 1` blocks are recorded: the last block of the reservation cannot be used. -/

namespace Xv6.Bio
open Function
open Log (Geometry mkfsLog)

variable {np : Nat} {g : Geometry} {s t : State np} {p : Fin np} {v : View np} {m : Nat}

/-- The blocks that the running operation of `p` has logged. -/
def opBlocks (ops : List (Op np)) (p : Fin np) : Finset Nat :=
  (logged (ops.filter fun o => o.pid = p ∧ o.ended = false)).toFinset

/-- Operations keep to an allowance: they log blocks of the log's device, at most `m` distinct ones each. -/
def withinAllowance (m : Nat) (s : State np) : Act np → Prop
  | .logWrite p b | .logWriteTooBig p b | .logWriteLocked p b => (s.bufs b).dev = ROOTDEV ∧
      (insert (s.bufs b).blockno (opBlocks s.ops p)).card ≤ m
  | _ => True

instance (s : State np) (a : Act np) : Decidable (withinAllowance m s a) := by
  apply @Act.casesOn _ (fun a => Decidable (withinAllowance m s a)) a <;> intros <;> unfold withinAllowance <;> infer_instance

/-- Blocks that are recorded, or may yet be recorded by a running operation. -/
def reserved (m : Nat) (v : View np) : Nat :=
  v.lh.length + ∑ p with v.inOp p = true, (m - (opBlocks v.ops p).card)

/-- The reservations fit into the log. -/
def Reserved (m : Nat) (v : View np) : Prop :=
  v.booted = true → reserved m v + 2 * (MAXOPBLOCKS - m) ≤ LOGSIZE

/-! ### What the operations of the group have logged -/

variable {ops : List (Op np)} {q : Fin np} {bn : Nat}

theorem mem_opBlocks : bn ∈ opBlocks ops p ↔ ∃ o ∈ ops, (o.pid = p ∧ o.ended = false) ∧ bn ∈ o.blocks := by
  simp [opBlocks, mem_logged, and_assoc]

theorem opBlocks_end (hq : q ≠ p) :
    opBlocks (ops.map fun o => if o.pid = p then { o with ended := true } else o) q = opBlocks ops q := by
  ext bn
  simp only [mem_opBlocks, List.mem_map]
  constructor
  · rintro ⟨_, ⟨o, ho, rfl⟩, hpid, hbn⟩
    by_cases hop : o.pid = p
    · simp [hop, Ne.symm hq] at hpid
    · rw [if_neg hop] at hpid hbn
      exact ⟨o, ho, hpid, hbn⟩
  · rintro ⟨o, ho, hpid, hbn⟩
    have hop : o.pid ≠ p := hpid.1 ▸ hq
    exact ⟨o, ⟨o, ho, if_neg hop⟩, hpid, hbn⟩

theorem opBlocks_log_other (hq : q ≠ p) :
    opBlocks (ops.map fun o => if o.pid = p ∧ o.ended = false then { o with blocks := bn :: o.blocks } else o) q =
      opBlocks ops q := by
  ext b
  simp only [mem_opBlocks, List.mem_map]
  constructor
  · rintro ⟨_, ⟨o, ho, rfl⟩, hpid, hb⟩
    by_cases hop : o.pid = p ∧ o.ended = false
    · simp [hop, Ne.symm hq] at hpid
    · rw [if_neg hop] at hpid hb
      exact ⟨o, ho, hpid, hb⟩
  · rintro ⟨o, ho, hpid, hb⟩
    have hop : o.pid ≠ p := hpid.1 ▸ hq
    exact ⟨o, ⟨o, ho, if_neg fun h => hop h.1⟩, hpid, hb⟩

theorem opBlocks_log (hrun : ∃ o ∈ ops, o.pid = p ∧ o.ended = false) :
    opBlocks (ops.map fun o => if o.pid = p ∧ o.ended = false then { o with blocks := bn :: o.blocks } else o) p =
      insert bn (opBlocks ops p) := by
  ext b
  simp only [mem_opBlocks, List.mem_map, Finset.mem_insert]
  constructor
  · rintro ⟨_, ⟨o, ho, rfl⟩, hpid, hb⟩
    by_cases hop : o.pid = p ∧ o.ended = false
    · rw [if_pos hop] at hb
      exact (List.mem_cons.mp hb).imp_right fun hb => ⟨o, ho, hop, hb⟩
    · rw [if_neg hop] at hpid
      exact absurd hpid hop
  · rintro (rfl | ⟨o, ho, hop, hb⟩)
    · obtain ⟨o, ho, hop⟩ := hrun
      exact ⟨_, ⟨o, ho, rfl⟩, by simp [hop], by simp [hop]⟩
    · exact ⟨_, ⟨o, ho, rfl⟩, by simp [hop], by simp [hop, hb]⟩

/-! ### The reservation along a run -/

/-- Every running operation has at most its allowance reserved. -/
theorem reserved_le (h : GroupInv v) : reserved m v ≤ v.lh.length + v.outstanding * m := by
  rw [reserved, h.outstanding]
  refine Nat.add_le_add_left ?_ _
  simpa only [nsmul_eq_mul, Nat.cast_id] using
    Finset.sum_le_card_nsmul _ _ _ fun q _ => Nat.sub_le m (opBlocks v.ops q).card

/-- `begin_op` tests that the reservation fits. -/
theorem reserved_beginEnter (hm : m ≤ MAXOPBLOCKS) (h : GroupInv (view s)) (hg : guard g s (.beginEnter p)) :
    Reserved m (view (next g s (.beginEnter p))) := by
  intro hb
  obtain ⟨hp, hw⟩ := hg
  have hle : reserved m (view (next g s (.beginEnter p))) ≤ s.lh.length + (s.outstanding + 1) * m :=
    reserved_le (groupInv_beginEnter h ⟨hp, hw⟩)
  rw [mustWait, not_or, not_lt] at hw
  obtain ⟨hc, hw⟩ := hw
  by_cases ho : s.outstanding = 0
  · -- the first operation of a group finds the log empty
    have hlh : s.lh = [] := h.empty hb (by simpa [view] using hc) ho
    rw [ho, hlh, List.length_nil] at hle
    simp only [MAXOPBLOCKS, LOGSIZE] at hm ⊢
    omega
  · have htwo := Nat.mul_le_mul_right (MAXOPBLOCKS - m) (show 2 ≤ s.outstanding + 1 by omega)
    have hsplit : (s.outstanding + 1) * m + (s.outstanding + 1) * (MAXOPBLOCKS - m) =
        (s.outstanding + 1) * MAXOPBLOCKS := by rw [← Nat.mul_add, Nat.add_sub_cancel' hm]
    omega

/-- A block that `log_write` records was reserved. -/
theorem reserved_logWriteLocked (h : GroupInv (view s)) (hr : Reserved m (view s))
    (hg : guard g s (.logWriteLocked p b)) (hok : withinAllowance m s (.logWriteLocked p b)) :
    Reserved m (view (next g s (.logWriteLocked p b))) := by
  intro hb
  have hp : (view s).phase p = .logWrite := congrArg PC.phase hg.1
  have hop : s.inOp p = true := h.needsOp p (by rw [hp]; rfl)
  have hcl : ∀ q, ((view s).phase q).cleared = false := fun q =>
    Phase.cleared_false (h.commits_false (h.not_committing hop).1 q)
  refine le_trans (Nat.add_le_add_right ?_ _) (hr hb)
  have hmem : p ∈ Finset.univ.filter fun q => s.inOp q = true := by simp [hop]
  have hrun : ∃ o ∈ s.ops, o.pid = p ∧ o.ended = false := (h.running p).mp hop
  change (if _ then s.lh else _).length + ∑ q with s.inOp q = true, (m - (opBlocks (s.ops.map _) q).card) ≤
    s.lh.length + ∑ q with s.inOp q = true, (m - (opBlocks s.ops q).card)
  rw [← Finset.add_sum_erase _ _ hmem, ← Finset.add_sum_erase _ _ hmem, opBlocks_log hrun,
    Finset.sum_congr rfl fun q hq => by rw [opBlocks_log_other (Finset.ne_of_mem_erase hq)]]
  have hle := hok.2
  by_cases hlh : (s.bufs b).blockno ∈ s.lh
  · have := Finset.card_le_card (Finset.subset_insert (s.bufs b).blockno (opBlocks s.ops p))
    rw [if_pos hlh]
    omega
  · -- a block that no operation of the group has logged is new to this one
    have hnew : (s.bufs b).blockno ∉ opBlocks s.ops p := fun hin => by
      obtain ⟨o, ho, -, hbn⟩ := mem_opBlocks.mp hin
      exact hlh ((h.recorded hb hcl _).mpr (mem_logged.mpr ⟨o, ho, hbn⟩))
    rw [Finset.card_insert_of_notMem hnew] at hle ⊢
    rw [if_neg hlh, List.length_append, List.length_singleton]
    omega

/-- `end_op` gives up what is left of its reservation. -/
theorem reserved_end (hr : Reserved m (view s)) {w : View np} (hb : w.booted = s.booted) (hlh : w.lh = s.lh)
    (hop : w.inOp = update s.inOp p false)
    (hops : w.ops = s.ops.map fun o => if o.pid = p then { o with ended := true } else o) : Reserved m w := by
  intro hw
  refine le_trans (Nat.add_le_add_right ?_ _) (hr (hb.symm.trans hw))
  rw [reserved, reserved, hlh, hop, hops]
  refine Nat.add_le_add_left ?_ _
  have hsub : (Finset.univ.filter fun q => update s.inOp p false q = true) ⊆
      Finset.univ.filter fun q => s.inOp q = true := fun q hq => by
    by_cases hqp : q = p
    · simp [hqp] at hq
    · simpa [hqp] using hq
  refine le_trans (Finset.sum_le_sum fun q hq => ?_) (Finset.sum_le_sum_of_subset hsub)
  have hqp : q ≠ p := by rintro rfl; simp at hq
  rw [opBlocks_end hqp]
  exact le_rfl

/-- When no operation is outstanding and the header is empty, everything is free. -/
theorem reserved_empty (h : GroupInv v) (hlh : v.lh = []) (ho : v.outstanding = 0) : Reserved m v := by
  intro _
  have := reserved_le (m := m) h
  rw [hlh, ho, List.length_nil, Nat.zero_mul] at this
  simp only [MAXOPBLOCKS, LOGSIZE]
  omega

theorem reserved_step (hm : m ≤ MAXOPBLOCKS) (h : GroupInv (view s)) (hr : Reserved m (view s))
    (hg : guard g s a) (hok : withinAllowance m s a) : Reserved m (view (next g s a)) := by
  have h' := groupInv_step h hg
  cases a
  case beginEnter => exact reserved_beginEnter hm h hg
  case logWriteLocked => exact reserved_logWriteLocked h hr hg hok
  case endLast | endMore => exact reserved_end hr rfl rfl rfl rfl
  case installDone => exact fun hb => le_trans (Nat.add_le_add_right (Nat.add_le_add_right (Nat.zero_le _) _) _) (hr hb)
  case endReset p =>
    have hp : (view s).phase p = .endReset := congrArg PC.phase hg
    exact reserved_empty h' (h.installed p (by rw [hp]; rfl)).1
      (h.exclusive (h.committing.mpr ⟨p, by rw [hp]; rfl⟩))
  case readHeadCopy p b =>
    have hp : (view s).phase p = .boot := congrArg PC.phase hg
    exact fun hb => absurd (h.booted hb p) (by simp [hp, Phase.boots])
  case bootDone p =>
    have hp : (view s).phase p = .bootErase := congrArg PC.phase hg
    exact reserved_empty h' (h.bootErase p hp) (h.booting (by rw [hp]; rfl)).outstanding
  all_goals exact hr

variable {d : Nat → Disk} {as : List (Act np)}

theorem reserved_run [NeZero np] (hm : m ≤ MAXOPBLOCKS)
    (hrun : (machine g np).Run (withinAllowance m) (init d) as t) : GroupInv (view t) ∧ Reserved m (view t) :=
  System.Run.invariant (M := machine g np) (I := fun s => GroupInv (view s) ∧ Reserved m (view s))
    (fun _ _ h hg hok => ⟨groupInv_step h.1 hg.2, reserved_step hm h.1 h.2 hg.2 hok⟩) hrun
    ⟨groupInv_init d, by rintro ⟨⟩⟩

/-- A group never records more blocks than `begin_op` has reserved. -/
theorem lh_length_le [NeZero np] (hm : m ≤ MAXOPBLOCKS)
    (hrun : (machine g np).Run (withinAllowance m) (init d) as t) (hb : t.booted = true) :
    t.lh.length + 2 * (MAXOPBLOCKS - m) ≤ LOGSIZE :=
  le_trans (Nat.add_le_add_right (Nat.le_add_right _ _) _) ((reserved_run hm hrun).2 hb)

/-! ### The last block of the reservation -/

/-- Where the operations leave a block of their reservation, `log_write` never panics. -/
theorem not_too_big [NeZero np] (hm : m < MAXOPBLOCKS)
    (hrun : (machine mkfsLog np).Run (withinAllowance m) (init d) as t) :
    t.panicked ≠ some "too big a transaction" := by
  induction hrun with
  | nil => simp [init]
  | snoc hrun hg hok ih =>
    rename_i t as a
    cases a
    case logWriteTooBig p b =>
      obtain ⟨-, hb, -, -, hbig⟩ := hg.2
      have := lh_length_le hm.le hrun hb
      simp only [tooBig, hok.1, mkfsLog, MAXOPBLOCKS, LOGSIZE] at hbig this hm
      omega
    case logWriteOutside | bgetPanic | endPanic => simp [machine, next]
    all_goals exact ih

/-- Log a block in each of the buffers `bs`. -/
def logAll (p : Fin np) (bs : List BufId) : List (Act np) :=
  bs.flatMap fun b : BufId => logActs p (100 + b.val) b

/-- Process 0 begins an operation and waits while process 1 runs two, of ten blocks each; the second
    is still running when process 0 logs ten blocks of its own. Its last `log_write` panics. -/
def threeFullOps : List (Act 2) :=
  bootActs mkfsLog 2 ++ beginActs 0 ++ beginActs 1 ++ logAll 1 [2, 3, 4, 5, 6, 7, 8, 9, 10, 11] ++
    [.endOp 1, .endAcquire 1, .endMore 1, .wakeup 1 0 [1], .wakeup 1 1 [], .wakeupDone 1] ++
    beginActs 1 ++ logAll 1 [12, 13, 14, 15, 16, 17, 18, 19, 20, 21] ++
    logAll 0 [22, 23, 24, 25, 26, 27, 28, 29, 0] ++
    [.bread 0 ROOTDEV 101] ++ missActs 0 101 .client 1 ++ [.logWriteTooBig 0 1]

theorem threeFullOps_exec :
    ((machine mkfsLog 2).exec (withinAllowance MAXOPBLOCKS) (init fun _ _ => Block.zero) threeFullOps).any
      (fun t => t.panicked = some "too big a transaction") = true := by decide +kernel

theorem withinAllowance_mono {n : Nat} (hmn : m ≤ n) (s : State np) (a : Act np)
    (h : withinAllowance m s a) : withinAllowance n s a := by
  cases a
  case logWrite | logWriteTooBig | logWriteLocked => exact ⟨h.1, h.2.trans hmn⟩
  all_goals trivial

/-- `begin_op`'s admission control is enough, on the log that `mkfs` makes, for operations that log fewer
    than `MAXOPBLOCKS` blocks, and only for these. -/
theorem log_write_fits (m : Nat) :
    (∀ (np : Nat) [NeZero np] (d : Nat → Disk) (as : List (Act np)) (t : State np),
      (machine mkfsLog np).Run (withinAllowance m) (init d) as t → t.panicked ≠ some "too big a transaction") ↔
    m < MAXOPBLOCKS := by
  refine ⟨fun h => ?_, fun hm np _ d as t hrun => not_too_big hm hrun⟩
  by_contra hm
  obtain ⟨t, ht, hres⟩ := (Option.any_eq_true ..).mp threeFullOps_exec
  exact h 2 _ _ t ((System.run_of_exec ht).mono (withinAllowance_mono (not_lt.mp hm))) (of_decide_eq_true hres)

/-- Three operations use all that `begin_op` reserves for them. -/
theorem log_write_too_big : ∃ t : State 2,
    (machine mkfsLog 2).Run (withinAllowance MAXOPBLOCKS) (init fun _ _ => Block.zero) threeFullOps t ∧
    t.panicked = some "too big a transaction" := by
  obtain ⟨t, ht, hres⟩ := (Option.any_eq_true ..).mp threeFullOps_exec
  exact ⟨t, System.run_of_exec ht, of_decide_eq_true hres⟩

end Xv6.Bio
