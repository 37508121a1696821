import Xv6.Kernel.Bio.Refcnt

/-! What a commit writes.

    ```
                  write_log            write_head   install_trans         write_head
    disk      slot 0 … slot n-1         header      home 0 … home n-1       header
    installed                                       [0]    …  [0 … n-1]
    ```

    A commit is isolated from the operations whatever the boot found. That its writes go where they should
    rests on the reference counts: a buffer whose count has wrapped is recycled while the commit holds it. -/

namespace Xv6.Bio
open Update Function
open Log (Geometry blockAt getHead)

variable {np : Nat} {g : Geometry} {s t : State np} {p : Fin np} {b : BufId} {as : List (Act np)}

/-- What isolation of the group commit means in a state `t`. -/
structure Isolated (g : Geometry) (t : State np) : Prop where
  /-- During a commit no operation is outstanding, and only the commit itself, when it is done with
      the install, changes the header: no `log_write` does. -/
  frozen : t.committing = true → t.outstanding = 0 ∧ (∀ p b, ¬ guard g t (.logWriteLocked p b)) ∧
    ∀ a, guard g t a → (next g t a).lh ≠ t.lh → ∃ p tail, a = .installDone p false tail
  /-- The commit record lists the blocks logged by the group's operations, each once; all of these
      have ended. -/
  record : ∀ p hb, t.pc p = .headCopy .record hb → t.lh.Nodup ∧
    (∀ bn, bn ∈ t.lh ↔ ∃ o ∈ t.ops, bn ∈ o.blocks) ∧ ∀ o ∈ t.ops, o.ended = true
  /-- With `log.lock` free nobody sleeps for a commit or for log space that is not to come. -/
  awake : t.lock = none → ∀ p, t.pc p = .sleeping → t.committing = true ∨ 0 < t.outstanding

/-- What a commit does to the disk. -/
structure CommitWrites (g : Geometry) (t : State np) : Prop where
  /-- Apart from a client's `bwrite`, a step writes the header, the slot of a recorded block, or the home
      of the recorded block that is to be installed. -/
  only : ∀ a, guard g t a → ∀ dev bn, (next g t a).disk dev bn ≠ t.disk dev bn → (∃ p b, a = .bwrite p b) ∨
    dev = ROOTDEV ∧ (g.start ≤ bn ∧ bn ≤ g.start + t.lh.length ∨
      ∃ p tail lbuf dbuf, a = .installCopy p false tail lbuf dbuf ∧ bn = blockAt t.lh tail)
  /-- The recorded blocks are installed one after the other: each home gets what is in its slot. -/
  install : ∀ p tail lbuf dbuf, guard g t (.installCopy p false tail lbuf dbuf) →
    tail < t.lh.length ∧ t.installed = t.lh.take tail ∧ Labelled t lbuf ROOTDEV (g.start + tail + 1) ∧
    (next g t (.installCopy p false tail lbuf dbuf)).installed = t.lh.take (tail + 1) ∧
    (next g t (.installCopy p false tail lbuf dbuf)).disk =
      update t.disk ROOTDEV (update (t.disk ROOTDEV) (blockAt t.lh tail) (t.bufs lbuf).data)
  /-- When `commit` returns, the blocks it has installed are those the operations of the group have logged,
      each once; all of these have ended. -/
  all : ∀ p, t.pc p = .endAcquire2 ∨ t.pc p = .endReset → t.installed.Nodup ∧
    (∀ bn, bn ∈ t.installed ↔ ∃ o ∈ t.ops, bn ∈ o.blocks) ∧ ∀ o ∈ t.ops, o.ended = true

theorem GroupInv.isolated (h : GroupInv (view t)) : Isolated g t := by
  refine ⟨fun hc => ⟨h.exclusive hc, not_logWriteLocked h hc, fun a => lh_next_of_committing h hc⟩,
    fun p hb hp => ?_, fun hl p hp => ?_⟩
  · have hp : (view t).phase p = .writing := congrArg PC.phase hp
    obtain ⟨hnd, hlog⟩ := h.lh_of_commits (by rw [hp]; rfl) (by rw [hp]; rfl)
    exact ⟨hnd, fun bn => (hlog bn).trans mem_logged, h.ended (by rw [hp]; rfl)⟩
  · have hp : (view t).phase p = .sleeping := congrArg PC.phase hp
    rcases h.wakeup p (by rw [hp]; rfl) with hc | ho | ⟨q, qs, hq, -⟩
    · exact .inl hc
    · exact .inr ho
    · -- a process in `wakeup` holds the lock
      have := (h.lock q).mpr (by rw [hq]; rfl)
      simp [view, hl] at this

/-! ### Writes -/

variable {d : Block} {dev bn : Nat}

theorem disk_store (s : State np) (b : BufId) (d : Block) (dev bn : Nat) :
    (store s b d).disk dev bn = if dev = (s.bufs b).dev ∧ bn = (s.bufs b).blockno then d else s.disk dev bn :=
  update_update _ _ _ _ _ _

/-- A store writes the block of its buffer. -/
theorem written_of_ne (h : (store s b d).disk dev bn ≠ s.disk dev bn) :
    dev = (s.bufs b).dev ∧ bn = (s.bufs b).blockno := by
  by_contra hne
  exact h ((disk_store s b d dev bn).trans (if_neg hne))

theorem RefInv.only (h : RefInv g t) {a : Act np} (hg : guard g t a)
    (hne : (next g t a).disk dev bn ≠ t.disk dev bn) : (∃ p b, a = .bwrite p b) ∨
    dev = ROOTDEV ∧ (g.start ≤ bn ∧ bn ≤ g.start + t.lh.length ∨
      ∃ p tail lbuf dbuf, a = .installCopy p false tail lbuf dbuf ∧ bn = blockAt t.lh tail) := by
  cases a
  case bwrite p b => exact .inl ⟨p, b, rfl⟩
  case logCopy p tail dst src =>
    obtain ⟨⟨-, hd, hn⟩, -, -, htail⟩ := h.frame_at hg
    obtain ⟨rfl, rfl⟩ := written_of_ne hne
    exact .inr ⟨hd, .inl (by omega)⟩
  case headCopy p hd hb =>
    obtain ⟨-, hd, hn⟩ := h.frame_at hg
    obtain ⟨rfl, rfl⟩ := written_of_ne hne
    exact .inr ⟨hd, .inl (by omega)⟩
  case installCopy p boot tail lbuf dbuf =>
    obtain ⟨-, ⟨-, hd, hn⟩, -, rfl⟩ := h.frame_at hg
    obtain ⟨rfl, rfl⟩ := written_of_ne hne
    exact .inr ⟨hd, .inr ⟨p, tail, lbuf, dbuf, rfl, hn⟩⟩
  all_goals exact absurd rfl hne

theorem RefInv.commitWrites (h : RefInv g t) (hi : GroupInv (view t)) : CommitWrites g t where
  only a hg dev bn := h.only hg
  install p tail lbuf dbuf hg := by
    obtain ⟨⟨-, hl⟩, ⟨-, hd, hn⟩, -⟩ := h.frame_at hg
    obtain ⟨htail, hin⟩ := hi.installing p tail true (congrArg PC.phase hg)
    have htail : tail < t.lh.length := htail
    have hin : t.installed = t.lh.take tail := hin
    refine ⟨htail, hin, hl, ?_, ?_⟩
    · show t.installed ++ [blockAt t.lh tail] = _
      rw [hin, Log.blockAt_eq htail, List.take_append_getElem htail]
    · simp only [next, store, hd, hn]
  all p hp := by
    have hp : (view t).phase p = .endAcquire2 ∨ (view t).phase p = .endReset :=
      hp.imp (congrArg PC.phase) (congrArg PC.phase)
    obtain ⟨-, hnd, hlog⟩ := hi.installed p (by rcases hp with hp | hp <;> rw [hp] <;> rfl)
    exact ⟨hnd, fun bn => (hlog bn).trans mem_logged,
      hi.ended (by rcases hp with hp | hp <;> rw [hp] <;> rfl)⟩

/-- Group commit is isolated in every state any interleaving reaches; and if the boot found the log empty,
    the homes that a commit writes are the blocks its group has logged. -/
theorem group_commit_isolated [NeZero np] (g : Geometry) (d : Nat → Disk)
    (hrun : (machine g np).Run (fun _ _ => True) (init d) as t) :
    Isolated g t ∧ (np + 3 < 2 ^ 32 → getHead (d ROOTDEV g.start) = [] → CommitWrites g t) :=
  ⟨(groupInv_run hrun).isolated, fun hnp hclean => (refInv_run hnp hclean hrun).commitWrites (groupInv_run hrun)⟩

/-- Process 0 logs block 102 and ends the only operation; process 1, which wanted to begin one, sleeps
    until the commit is over. -/
def sleeperActs : List (Act 2) :=
  bootActs Log.mkfsLog 2 ++ beginActs 0 ++ logActs 0 102 2 ++
    [.endOp 0, .endAcquire 0, .endLast 0, .beginOp 1] ++ commitActs Log.mkfsLog 0 102 2 3 1 ++
    [.beginAcquire 1, .beginWait 1, .sleepLock 1, .sleepState 1]

theorem group_commit_isolated_sleeper : ∃ t : State 2,
    (machine Log.mkfsLog 2).Run (fun _ _ => True) (init fun _ _ => Block.zero) sleeperActs t ∧
    t.pc 0 = .endAcquire2 ∧ t.pc 1 = .sleeping ∧ t.installed = [102] ∧ Isolated Log.mkfsLog t ∧
    CommitWrites Log.mkfsLog t := by
  have hrun := System.run_exec (machine Log.mkfsLog 2) (fun _ _ => True) (init fun _ _ => Block.zero)
    sleeperActs rfl
  obtain ⟨hiso, hwrites⟩ := group_commit_isolated _ _ hrun
  exact ⟨_, hrun, rfl, rfl, rfl, hiso, hwrites (by decide) rfl⟩

/-! ### After a recovery -/

/-- `bread` and `brelse` of a block that is not cached. -/
def readActs (p : Fin np) (bn : Nat) (b : BufId) : List (Act np) :=
  .bread p ROOTDEV bn :: missActs p bn .client b ++ .brelse p b :: relActs p b .client

/-- A boot has installed block 100, whose buffer 3 has lost a reference. Process 0 logs blocks 102 and 103
    and commits, while process 1 reads block 100: the commit gets buffer 3 for its second slot, and when
    process 1 has given it back nobody seems to use it. Process 1 reads other blocks, until it gets buffer 3
    for block 300. -/
def recycledActs : List (Act 2) :=
  List.flatten [recoveryActs, beginActs 0, logActs 0 102 4, .bread 0 ROOTDEV 103 :: missActs 0 103 .client 5,
    [.modify 0 5 (fun _ => 7), .logWrite 0 5, .logWriteLocked 0 5, .brelse 0 5], relActs 0 5 .client,
    .bread 1 ROOTDEV 100 :: hitActs 1 100 .client 3,
    [.endOp 0, .endAcquire 0, .endLast 0, .endRelease 0, .commitSome 0, .writeLogNext 0 0],
    hitActs 0 3 (.logTo 0) 2, hitActs 0 102 (.logFrom 0 2) 4, .logCopy 0 0 2 4 :: relActs 0 4 (.logFrom 0 2),
    relActs 0 2 (.logTo 0), [.writeLogNext 0 1, .bgetRecycle 0 ROOTDEV 4 (.logTo 1) 3],
    .brelse 1 3 :: relActs 1 3 .client, [.acquire 0 ROOTDEV 4 3 (.logTo 1), .fill 0 ROOTDEV 4 3 (.logTo 1)],
    hitActs 0 103 (.logFrom 1 3) 5,
    ((List.finRange NBUF).drop 6 ++ [0, 1, 2]).flatMap fun b : BufId => readActs 1 (200 + b.val) b,
    [.bread 1 ROOTDEV 300, .bgetRecycle 1 ROOTDEV 300 .client 3]]

/-- `write_log` writes block 300, which nobody has logged. -/
theorem commit_writes_other : ∃ t : State 2,
    (machine Log.mkfsLog 2).Run (fun _ _ => True) (init fun _ => crashedDisk) recycledActs t ∧
    guard Log.mkfsLog t (.logCopy 0 1 3 5) ∧ t.committing = true ∧ t.lh = [102, 103] ∧
    (next Log.mkfsLog t (.logCopy 0 1 3 5)).disk ROOTDEV 300 ≠ t.disk ROOTDEV 300 := by
  have hexec : ((machine Log.mkfsLog 2).exec (fun _ _ => True) (init fun _ => crashedDisk) recycledActs).any
      (fun t => guard Log.mkfsLog t (.logCopy 0 1 3 5) ∧ t.committing = true ∧ t.lh = [102, 103] ∧
        (next Log.mkfsLog t (.logCopy 0 1 3 5)).disk ROOTDEV 300 ⟨0, by decide⟩ = 7 ∧
        t.disk ROOTDEV 300 ⟨0, by decide⟩ = 0) = true := by decide +kernel
  obtain ⟨t, ht, hres⟩ := (Option.any_eq_true ..).mp hexec
  obtain ⟨hg, hc, hlh, hnew, hold⟩ := of_decide_eq_true hres
  refine ⟨t, System.run_of_exec ht, hg, hc, hlh, fun heq => ?_⟩
  rw [heq, hold] at hnew
  cases hnew

end Xv6.Bio
