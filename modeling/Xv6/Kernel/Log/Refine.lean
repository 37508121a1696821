import Xv6.Kernel.Bio.Written

/-! The `commit` of the machine does what the one of a single process does.

    ```
    machine   .commit ─▶ … ─▶ .logCopy ─▶ … ─▶ .headCopy ─▶ … ─▶ .installCopy ─▶ … ─▶ .endAcquire2
    Log.St       v              slot             writeHead           home             Log.commit g v
    ```

    The steps in between, of this process and of the others, change no block of the disk, nor the header. -/

namespace Xv6.Bio
open Log (Geometry St blockAt putHead getHead)
open Function Writes

variable {np : Nat} {g : Geometry} {s t : State np} {p q : Fin np} {v w : St} {d : Disk} {y : PC np} {k : Nat}

/-! ### The commit of one process -/

/-- A round of `write_log`. -/
def slot (g : Geometry) (v : St) (tail : Nat) : St := Log.copyOut v (g.start + tail + 1) (blockAt v.lh tail)

/-- A round of `install_trans`. -/
def home (g : Geometry) (v : St) (tail : Nat) : St := Log.copyOut v (blockAt v.lh tail) (g.start + tail + 1)

/-- The first `k` rounds. -/
def rounds (f : St → Nat → St) (v : St) (k : Nat) : St := (List.range (min k v.lh.length)).foldl f v

def committed (g : Geometry) (v : St) : St := Log.writeHead g (Log.writeLog g v)

def cleared (g : Geometry) (v : St) : St := { Log.installTrans g (committed g v) with lh := [] }

section Rounds

variable {f : St → Nat → St}

theorem rounds_zero (f : St → Nat → St) (v : St) : rounds f v 0 = v := by
  rw [rounds, Nat.zero_min]
  rfl

theorem rounds_succ (h : k < v.lh.length) : rounds f v (k + 1) = f (rounds f v k) k := by
  rw [rounds, rounds, Nat.min_eq_left h, Nat.min_eq_left h.le, List.range_succ, List.foldl_append]
  rfl

theorem rounds_of_le (h : v.lh.length ≤ k) : rounds f v k = (List.range v.lh.length).foldl f v := by
  rw [rounds, Nat.min_eq_right h]

theorem lh_foldl (hf : ∀ v i, (f v i).lh = v.lh) (l : List Nat) (v : St) : (l.foldl f v).lh = v.lh := by
  induction l generalizing v with
  | nil => rfl
  | cons i l ih => exact (ih (f v i)).trans (hf v i)

theorem lh_slots (g : Geometry) (v : St) (k : Nat) : (rounds (slot g) v k).lh = v.lh :=
  lh_foldl (f := slot g) (fun _ _ => rfl) _ _

theorem lh_committed (g : Geometry) (v : St) : (committed g v).lh = v.lh := lh_foldl (f := slot g) (fun _ _ => rfl) _ _

theorem lh_homes (g : Geometry) (v : St) (k : Nat) : (rounds (home g) (committed g v) k).lh = v.lh :=
  (lh_foldl (f := home g) (fun _ _ => rfl) _ _).trans (lh_committed g v)

end Rounds

/-- What one process would have made of `v` at this point of `commit`. -/
def PC.progress (g : Geometry) (v : St) (x : PC np) : Option St :=
  match x.phase with
  | .commit => some v
  | .writing => some (rounds (slot g) v (x.copied v.lh.length))
  | .install tail _ => some (rounds (home g) (committed g v) tail)
  | .erase => some (cleared g v)
  | .endAcquire2 => some (Log.commit g v)
  | _ => none

theorem progress_congr {x y : PC np} (hph : x.phase = y.phase) (hcopied : x.copied v.lh.length = y.copied v.lh.length) :
    x.progress g v = y.progress g v := by
  rw [PC.progress, PC.progress, hph, hcopied]

theorem commits_of_progress {x : PC np} (h : x.progress g v = some w) : x.phase.commits = true := by
  unfold PC.progress at h
  split at h <;> simp_all [Phase.commits]

/-! ### Steps -/

/-- One process would see these blocks and this header, and has written the disk like this. -/
structure Sees (d : Disk) (v : St) (s : State np) : Prop where
  cache : v.cache = s.contents ROOTDEV
  lh : v.lh = s.lh
  disk : s.disk ROOTDEV = apply d v.out

/-- A commit that has begun with `v`, on the disk `d`. -/
def Commits (g : Geometry) (d : Disk) (v : St) (s : State np) (p : Fin np) : Prop :=
  ∃ w, (s.pc p).progress g v = some w ∧ Sees d w s

/-- The process that commits writes a block. -/
theorem Sees.store {b : BufId} {x : Block} {bn : Nat} (h : Sees d w s) (hd : (s.bufs b).dev = ROOTDEV)
    (hn : (s.bufs b).blockno = bn) (ht : t.contents = (Bio.store s b x).contents ∧ t.disk = (Bio.store s b x).disk ∧ t.lh = s.lh)
    (hpc : t.pc = update s.pc p y)
    (hy : y.progress g v = some (Log.bwrite { w with cache := update w.cache bn x } bn)) : Commits g d v t p := by
  refine ⟨Log.bwrite { w with cache := update w.cache bn x } bn, by rw [hpc, update_self, hy], ?_, h.lh.trans ht.2.2.symm, ?_⟩
  · simp [Log.bwrite, ht.1, Bio.store, hd, hn, h.cache]
  · simp [Log.bwrite, ht.2.1, Bio.store, hd, hn, h.disk, apply_append]

/-- A step that changes no block of the disk, nor the header. -/
theorem Commits.quiet (h : Commits g d v s p) (hcont : t.contents = s.contents) (hlh : t.lh = s.lh) (hdisk : t.disk = s.disk)
    (hpc : t.pc = update s.pc q y) (hy : q = p → y.progress g v = (s.pc p).progress g v) : Commits g d v t p := by
  obtain ⟨w, hw, hs⟩ := h
  refine ⟨w, ?_, by rw [hcont]; exact hs.cache, by rw [hlh]; exact hs.lh, by rw [hdisk]; exact hs.disk⟩
  rw [hpc]
  by_cases hqp : q = p
  · subst hqp
    rw [update_self, hy rfl, hw]
  · rw [update_of_ne (Ne.symm hqp), hw]

variable {b b' : BufId} {a : Act np}

theorem commits_logCopy (hall : Written g s) (hpc : s.pc p = .logCopy k b b') (h : Commits g d v s p) :
    Commits g d v (next g s (.logCopy p k b b')) p := by
  obtain ⟨hw, hc, hr, -⟩ := hall
  obtain ⟨w, hp, hs⟩ := h
  obtain ⟨⟨-, hd, hbn⟩, hsrc, -, htail⟩ := hr.frame_at hpc
  rw [hpc] at hp
  obtain rfl : rounds (slot g) v k = w := Option.some.inj hp
  have hdata := hc.held hr hsrc (hw.home _ (Log.blockAt_mem htail)).1 (by simp [hpc])
  rw [← hs.cache, ← hs.lh] at hdata
  rw [← hs.lh, lh_slots] at htail
  refine hs.store hd hbn ⟨rfl, rfl, rfl⟩ rfl (congrArg some ((rounds_succ htail).trans ?_))
  rw [hdata]
  rfl

theorem commits_headCopy {hd : Head} (hall : Written g s) (hstart : 0 < g.start) (hn : 0 < v.lh.length)
    (hpc : s.pc p = .headCopy hd b) (h : Commits g d v s p) : Commits g d v (next g s (.headCopy p hd b)) p := by
  obtain ⟨-, hc, hr, -⟩ := hall
  obtain ⟨w, hp, hs⟩ := h
  have hheld : Held s p b ROOTDEV g.start := hr.frame_at hpc
  have hdata := hc.held hr hheld (named_of_ne hstart.ne') (by simp [hpc])
  rw [hpc] at hp
  refine hs.store hheld.2.1 hheld.2.2 ⟨rfl, rfl, rfl⟩ rfl ?_
  rw [hdata, ← hs.cache, ← hs.lh]
  cases hd with
  | record =>
    obtain rfl : Log.writeLog g v = w := (rounds_of_le le_rfl).symm.trans (Option.some.inj hp)
    exact congrArg some (rounds_zero _ _)
  | erase =>
    cases hp
    exact congrArg some (if_pos hn)
  | boot => cases hp

theorem commits_installCopy {boot : Bool} (hall : Written g s) (hpc : s.pc p = .installCopy boot k b b')
    (h : Commits g d v s p) : Commits g d v (next g s (.installCopy p boot k b b')) p := by
  obtain ⟨-, hc, hr, hi⟩ := hall
  obtain ⟨w, hp, hs⟩ := h
  obtain ⟨hlog, ⟨-, hd, hbn⟩, -, rfl⟩ := hr.frame_at hpc
  have htail : k < s.lh.length := (hi.installing p k true (congrArg PC.phase hpc)).1
  rw [hpc] at hp
  obtain rfl : rounds (home g) (committed g v) k = w := Option.some.inj hp
  have hdata := hc.held hr hlog (named_of_ne (Nat.succ_ne_zero _)) (by simp [hpc])
  rw [← hs.cache] at hdata
  rw [← hs.lh] at hbn
  rw [← hs.lh, lh_homes, ← lh_committed g] at htail
  refine hs.store hd hbn ⟨rfl, rfl, rfl⟩ rfl (congrArg some ((rounds_succ htail).trans ?_))
  rw [hdata]
  rfl

theorem commits_step (hall : Written g s) (hstart : 0 < g.start) (hn : 0 < v.lh.length) (hg : guard g s a) (hok : insideOps g s a)
    (hwrite : ∀ q b, a ≠ .bwrite q b) (hend : a ≠ .endAcquire2 p) (h : Commits g d v s p) : Commits g d v (next g s a) p := by
  have hi := hall.2.2.2
  obtain ⟨w, hp, hs⟩ := id h
  have hcommits := commits_of_progress hp
  have hcommitting : s.committing = true := hi.committing.mpr ⟨p, hcommits⟩
  -- nobody else is in `commit` or boots
  have hsame : ∀ {q}, (s.pc q).phase.commits = true ∨ (s.pc q).phase.boots = true → q = p := fun {q} hq => by
    by_contra hne
    obtain ⟨h₁, h₂⟩ := hi.others_quiet (.inl hcommits) hne
    rw [h₁, h₂] at hq
    simp at hq
  have hnot : ∀ {q x}, s.pc q = x → x.progress g v = none → q ≠ p := by
    rintro q x rfl hx rfl
    rw [hx] at hp
    cases hp
  cases a
  case modify q b x =>
    have hno : s.committing = false := (hi.not_committing hok.1).1
    rw [hcommitting] at hno
    cases hno
  case bwrite q b => exact absurd rfl (hwrite q b)
  case logWriteLocked q b => exact absurd hg (not_logWriteLocked hi hcommitting q b)
  case readHeadCopy q b =>
    have hpc : s.pc q = .readHeadCopy b := hg
    exact absurd (hsame (.inr (by rw [hpc]; rfl))) (hnot hpc rfl)
  case logCopy q tail dst src =>
    have hpc : s.pc q = .logCopy tail dst src := hg
    obtain rfl := hsame (.inl (by rw [hpc]; rfl))
    exact commits_logCopy hall hpc h
  case headCopy q hd hb =>
    have hpc : s.pc q = .headCopy hd hb := hg
    obtain rfl := hsame (by rw [hpc]; cases hd <;> simp [PC.phase, Head.phase, Phase.commits, Phase.boots])
    exact commits_headCopy hall hstart hn hpc h
  case installCopy q boot tail lbuf dbuf =>
    have hpc : s.pc q = .installCopy boot tail lbuf dbuf := hg
    obtain rfl := hsame (by rw [hpc]; cases boot <;> simp [PC.phase, Phase.commits, Phase.boots])
    exact commits_installCopy hall hpc h
  case installDone q boot tail =>
    obtain ⟨hpc, htail⟩ := hg
    obtain rfl := hsame (PC.phase_of_unpins (by rw [hpc]; rfl))
    rw [hpc] at hp
    cases boot <;> cases hp
    rw [← hs.lh, lh_homes, ← lh_committed g, Nat.not_lt] at htail
    rw [rounds_of_le htail] at hs
    exact ⟨cleared g v, by simp only [next, update_self]; rfl, hs.cache, rfl, hs.disk⟩
  case commitNone q =>
    refine h.quiet rfl rfl rfl rfl ?_
    rintro rfl
    rw [hg.1] at hp
    cases hp
    exact absurd (hs.lh ▸ hn) hg.2
  case commitSome q => exact h.quiet rfl rfl rfl rfl fun hq => by rw [← hq, hg.1]; exact congrArg some (rounds_zero _ _)
  case writeLogDone q tail =>
    refine h.quiet rfl rfl rfl rfl ?_
    rintro rfl
    rw [hg.1] at hp ⊢
    cases hp
    have htail := hg.2
    rw [← hs.lh, lh_slots, Nat.not_lt] at htail
    exact congrArg some ((rounds_of_le le_rfl).trans (rounds_of_le htail).symm)
  -- the others change no block and not the header
  case logWriteTooBig | logWriteOutside | bgetPanic | endPanic =>
    exact h.quiet rfl rfl rfl (update_eq_self _ _).symm fun _ => rfl
  case fill q dev bn b k =>
    refine h.quiet rfl rfl rfl rfl fun hq => ?_
    rw [← hq, show s.pc q = _ from hg]
    exact progress_congr (k.goto_phase _ _) (k.goto_copied _ _ _)
  case putref q b k =>
    refine h.quiet rfl rfl rfl rfl fun hq => ?_
    rw [← hq, show s.pc q = _ from hg]
    exact progress_congr (k.goto_phase g) (k.goto_copied _)
  case bgetHit q _ _ _ _ | bgetRecycle q _ _ _ _ | acquire q _ _ _ _ | writeLogNext q _ =>
    exact h.quiet rfl rfl rfl rfl fun hq => by rw [← hq, hg.1]; rfl
  case installNext q boot _ => exact h.quiet rfl rfl rfl rfl fun hq => by rw [← hq, hg.1]; cases boot <;> rfl
  case release q _ _ => exact h.quiet rfl rfl rfl rfl fun hq => by rw [← hq, show s.pc q = _ from hg]; rfl
  case bunpin q boot _ _ _ =>
    exact h.quiet rfl rfl rfl rfl fun hq => by rw [← hq, show s.pc q = _ from hg]; cases boot <;> rfl
  case endAcquire2 q => exact h.quiet rfl rfl rfl rfl fun hq => absurd (hq ▸ rfl) hend
  case wakeup q r rs =>
    have hother : Commits g d v { s with pc := if s.pc r = .sleeping then update s.pc r .wakened else s.pc } p := by
      split
      · rename_i hsleep
        exact h.quiet rfl rfl rfl rfl fun hq => absurd hq (hnot hsleep rfl)
      · exact h
    exact hother.quiet rfl rfl rfl rfl fun hq => absurd hq (hnot hg.1 rfl)
  case bread q _ _ | brelse q _ | logWrite q _ | beginOp q | endOp q | beginAcquire q | beginEnter q |
      beginWait q | endAcquire q | endLast q | endMore q =>
    exact h.quiet rfl rfl rfl rfl fun hq => absurd hq (hnot hg.1 rfl)
  case kill q | sleepLock q | sleepState q | resume q | wakeupDone q | endRelease q | endReset q | bootDone q =>
    exact h.quiet rfl rfl rfl rfl fun hq => absurd hq (hnot hg rfl)

/-- What clients do between calls of `log_write`; only the log writes to the disk. -/
def loggedOps (g : Geometry) (s : State np) (a : Act np) : Prop :=
  cleanRelease s a ∧ insideOps g s a ∧ ∀ q b, a ≠ .bwrite q b

/-- From a boot with an empty log on, a commit, whatever happens meanwhile, leaves the blocks, the header and
    the disk as `Log.commit` does. -/
theorem commit_refines [NeZero np] (f : Nat → Disk) (hnp : np + 3 < 2 ^ 32) (hclean : getHead (f ROOTDEV g.start) = [])
    (hstart : 0 < g.start) {as bs : List (Act np)} (hreach : (machine g np).Run (loggedOps g) (init f) as s)
    (hp : s.pc p = .commit) (hn : 0 < s.lh.length)
    (hrun : (machine g np).Run (fun s a => loggedOps g s a ∧ a ≠ .endAcquire2 p) s bs t) (hdone : t.pc p = .endAcquire2) :
    Sees (s.disk ROOTDEV) (Log.commit g ⟨s.contents ROOTDEV, s.lh, []⟩) t := by
  have hinv : Written g s :=
    hreach.invariant (fun _ _ h (hg : _ ∧ _) hok => written_step hnp h hg.2 hok.1 hok.2.1) (written_init hclean)
  have hstep : ∀ s' (a : Act np), Written g s' ∧ Commits g (s.disk ROOTDEV) ⟨s.contents ROOTDEV, s.lh, []⟩ s' p →
      (machine g np).guard s' a → loggedOps g s' a ∧ a ≠ .endAcquire2 p →
      Written g (next g s' a) ∧ Commits g (s.disk ROOTDEV) ⟨s.contents ROOTDEV, s.lh, []⟩ (next g s' a) p := by
    rintro s' a ⟨h, hcommits⟩ hg ⟨⟨hclean, hops, hwrite⟩, hend⟩
    exact ⟨written_step hnp h hg.2 hclean hops, commits_step h hstart hn hg.2 hops hwrite hend hcommits⟩
  obtain ⟨-, w, hw, hsees⟩ := hrun.invariant hstep ⟨hinv, _, by rw [hp]; rfl, rfl, rfl, rfl⟩
  rw [hdone] at hw
  cases hw
  exact hsees

end Xv6.Bio
