import Xv6.Kernel.Bio.Transparent

/-! `commit` copies blocks into the log and back without a client noticing.

    ```
    home ── write_log ──► slot ── install_trans ──► home
    ```

    Nobody modifies a block between the two copies if clients modify blocks only inside operations,
    so the second one stores what is already there. -/

namespace Xv6.Bio
open Log (Geometry blockAt getHead putHead)
open Update Function

variable {np : Nat} {g : Geometry} {s t : State np} {p : Fin np}

/-- A block of the log of `ROOTDEV`. -/
def InLog (g : Geometry) (dev bn : Nat) : Prop :=
  dev = ROOTDEV ∧ g.start ≤ bn ∧ bn < g.start + g.size

instance (g : Geometry) (dev bn : Nat) : Decidable (InLog g dev bn) :=
  inferInstanceAs (Decidable (_ ∧ _ ∧ _))

/-- A block that is not of the log, nor the boot block of the root device. -/
def ClientBlock (g : Geometry) (dev bn : Nat) : Prop := Named dev bn ∧ ¬ InLog g dev bn

instance (dev bn : Nat) : Decidable (Named dev bn) := inferInstanceAs (Decidable (¬ _))

instance (g : Geometry) (dev bn : Nat) : Decidable (ClientBlock g dev bn) :=
  inferInstanceAs (Decidable (_ ∧ _))

/-- Clients modify only such blocks, and only inside operations; the group fits the log. -/
def insideOps (g : Geometry) (s : State np) : Act np → Prop
  | .modify p b _ => s.inOp p = true ∧ ClientBlock g (s.bufs b).dev (s.bufs b).blockno
  | .logWriteLocked _ b => ClientBlock g (s.bufs b).dev (s.bufs b).blockno ∧
      ((s.bufs b).blockno ∈ s.lh ∨ s.lh.length + 1 < g.size)
  | _ => True

instance (g : Geometry) (s : State np) (a : Act np) : Decidable (insideOps g s a) := by
  apply @Act.casesOn _ (fun a => Decidable (insideOps g s a)) a <;> intros <;> unfold insideOps <;> infer_instance

/-! ### How far `write_log` has come -/

def Cont.copied (n : Nat) : Cont → Nat
  | .logTo tail | .logFrom tail _ => tail
  | .head .record | .instLog false _ | .instHome false _ _ => n
  | _ => 0

def Ret.copied (n : Nat) : Ret → Nat
  | .logFrom tail _ | .logTo tail => tail + 1
  | .head .record | .instLog false _ _ | .instHome false _ => n
  | _ => 0

/-- The number of blocks, of the `n` recorded ones, that a process has copied to the log. -/
def PC.copied (n : Nat) : PC np → Nat
  | .bget _ _ k | .acquire _ _ _ k | .fill _ _ _ k => k.copied n
  | .release _ k | .putref _ k => k.copied n
  | .writeLog tail | .logCopy tail _ _ => tail
  | .headCopy .record _ | .install false _ | .installCopy false _ _ _ | .bunpin false _ _ _ => n
  | _ => 0

theorem Cont.goto_copied (n : Nat) (lh : List Nat) (b : BufId) (k : Cont) :
    (k.goto lh b : PC np).copied n = k.copied n := by
  rcases k with _ | _ | _ | _ | _ | (_ | _ | _) | ⟨_ | _, _⟩ | ⟨_ | _, _, _⟩ <;> rfl

theorem Ret.goto_copied (n : Nat) (k : Ret) : (k.goto g : PC np).copied n = k.copied n := by
  rcases k with _ | _ | _ | _ | _ | (_ | _ | _) | ⟨_ | _, _, _⟩ | ⟨_ | _, _⟩ <;> rfl

/-- Outside `commit` and the boot no process is copying. -/
theorem copied_of_quiet {x : PC np} (hx : x.phase.commits = false ∧ x.phase.boots = false) (n : Nat) :
    x.copied n = 0 := by
  have hc : ∀ k : Cont, (k.phase : Phase np).commits = false ∧ (k.phase : Phase np).boots = false →
      k.copied n = 0 := by
    rintro (_ | _ | _ | _ | _ | (_ | _ | _) | ⟨_ | _, _⟩ | ⟨_ | _, _, _⟩) hk <;>
      simp_all [Cont.copied, Cont.phase, Head.phase, Phase.commits, Phase.boots]
  have hr : ∀ k : Ret, (k.phase : Phase np).commits = false ∧ (k.phase : Phase np).boots = false →
      k.copied n = 0 := by
    rintro (_ | _ | _ | _ | _ | (_ | _ | _) | ⟨_ | _, _, _⟩ | ⟨_ | _, _⟩) hk <;>
      simp_all [Ret.copied, Ret.phase, Phase.commits, Phase.boots]
  cases x
  case bget | acquire | fill => exact hc _ hx
  case release | putref => exact hr _ hx
  case headCopy hd _ => cases hd <;> simp_all [PC.copied, PC.phase, Head.phase, Phase.commits]
  case install boot _ | installCopy boot _ _ _ | bunpin boot _ _ _ =>
    cases boot
    · simp [PC.phase, Phase.commits] at hx
    · simp [PC.phase, Phase.boots] at hx
  all_goals simp_all [PC.copied, PC.phase, Phase.commits]

/-! ### The invariant -/

structure WrittenInv (g : Geometry) (s : State np) : Prop where
  home : ∀ bn ∈ s.lh, ClientBlock g ROOTDEV bn
  short : s.lh.length < g.size
  same : ∀ dev bn, ClientBlock g dev bn → s.contents dev bn = s.written dev bn
  slots : ∀ p i, i < s.lh.length → i < (s.pc p).copied s.lh.length →
    s.contents ROOTDEV (g.start + i + 1) = s.contents ROOTDEV (blockAt s.lh i)

theorem named_of_ne {dev bn : Nat} (h : bn ≠ 0) : Named dev bn := fun hz => h hz.2

theorem contents_store (s : State np) (b : BufId) (d : Block) (dev bn : Nat) :
    (store s b d).contents dev bn =
      if dev = (s.bufs b).dev ∧ bn = (s.bufs b).blockno then d else s.contents dev bn :=
  update_update _ _ _ _ _ _

variable {y : PC np}

/-- Steps that leave the contents of blocks alone. -/
theorem WrittenInv.step (h : WrittenInv g s) (hpc : t.pc = update s.pc p y)
    (hlh : t.lh = s.lh) (hcont : ∀ dev bn, Named dev bn → t.contents dev bn = s.contents dev bn)
    (hwr : t.written = s.written) (hcopied : y.copied s.lh.length ≤ (s.pc p).copied s.lh.length) :
    WrittenInv g t where
  home := by rw [hlh]; exact h.home
  short := by rw [hlh]; exact h.short
  same dev bn hn := by rw [hcont dev bn hn.1, hwr]; exact h.same dev bn hn
  slots q i hi hq := by
    rw [hlh] at hi hq ⊢
    rw [hcont _ _ (named_of_ne (Nat.succ_ne_zero _)), hcont _ _ (h.home _ (Log.blockAt_mem hi)).1]
    by_cases hqp : q = p
    · subst hqp
      rw [hpc, update_self] at hq
      exact h.slots q i hi (hq.trans_le hcopied)
    · exact h.slots q i hi (by simpa [hpc, hqp] using hq)

theorem WrittenInv.plain (h : WrittenInv g s) (hpc : t.pc = update s.pc p y)
    (hlh : t.lh = s.lh) (hcont : t.contents = s.contents) (hwr : t.written = s.written)
    (hy : y.copied s.lh.length = 0) : WrittenInv g t :=
  h.step hpc hlh (fun _ _ _ => by rw [hcont]) hwr (by simp [hy])

/-- Steps that nobody takes while blocks are being copied. -/
theorem WrittenInv.reset (h : WrittenInv g s) (hpc : ∀ q, (t.pc q).copied t.lh.length = 0)
    (hhome : ∀ bn ∈ t.lh, ClientBlock g ROOTDEV bn) (hshort : t.lh.length < g.size)
    (hsame : ∀ dev bn, s.contents dev bn = s.written dev bn → t.contents dev bn = t.written dev bn) :
    WrittenInv g t where
  home := hhome
  short := hshort
  same dev bn hn := hsame dev bn (h.same dev bn hn)
  slots q i _ hq := by simp [hpc q] at hq

variable {b : BufId} {d : Block}

/-- A write to the log by the process that commits. -/
theorem WrittenInv.storedLog (h : WrittenInv g s) (hi : GroupInv (view s))
    (hph : (s.pc p).phase.commits = true ∨ (s.pc p).phase.boots = true)
    (hpc : t.pc = update s.pc p y) (hlh : t.lh = s.lh)
    (hcont : t.contents = (store s b d).contents) (hwr : t.written = s.written)
    (hb : InLog g (s.bufs b).dev (s.bufs b).blockno)
    (hcopied : ∀ i, i < y.copied s.lh.length →
      if g.start + i + 1 = (s.bufs b).blockno then d = s.contents ROOTDEV (blockAt s.lh i)
      else i < (s.pc p).copied s.lh.length) : WrittenInv g t where
  home := by rw [hlh]; exact h.home
  short := by rw [hlh]; exact h.short
  same dev bn hn := by
    rw [hcont, hwr, contents_store, if_neg]
    · exact h.same dev bn hn
    · rintro ⟨rfl, rfl⟩
      exact hn.2 hb
  slots q i hi' hq := by
    rw [hlh] at hi' hq ⊢
    have hqp : q = p := by
      by_contra hne
      rw [hpc, update_of_ne hne, copied_of_quiet (hi.others_quiet hph hne)] at hq
      exact absurd hq (Nat.not_lt_zero i)
    subst hqp
    rw [hpc, update_self] at hq
    have hhome : ¬ (ROOTDEV = (s.bufs b).dev ∧ blockAt s.lh i = (s.bufs b).blockno) := by
      rintro ⟨hd, hn⟩
      refine (h.home (blockAt s.lh i) (Log.blockAt_mem hi')).2 ?_
      rw [hd, hn]
      exact hb
    rw [hcont, contents_store, contents_store, if_neg hhome]
    have hci := hcopied i hq
    split at hci
    · rename_i heq
      rw [if_pos ⟨hb.1.symm, heq⟩, hci]
    · rename_i hne
      rw [if_neg fun hc => hne hc.2]
      exact h.slots q i hi' hci

variable {tail : Nat}

/-- What a process reads from a buffer that it holds. -/
theorem CacheInv.held (hc : CacheInv s) (hr : RefInv g s) {bn : Nat} (hb : Held s p b ROOTDEV bn) (hn : Named ROOTDEV bn)
    (hp : ∀ dev bn k, s.pc p ≠ .fill dev bn b k) : (s.bufs b).data = s.contents ROOTDEV bn := by
  obtain ⟨hl, hd, hbn⟩ := hb
  have hdata := hc.data b (hr.valid_of_lock hl hp) (by rw [hd, hbn]; exact hn)
  rwa [hd, hbn] at hdata

theorem WrittenInv.logCopy (h : WrittenInv g s) (hc : CacheInv s) (hr : RefInv g s) (hi : GroupInv (view s))
    {dst src : BufId} (hg : guard g s (.logCopy p tail dst src)) :
    WrittenInv g (next g s (.logCopy p tail dst src)) := by
  have hp : s.pc p = .logCopy tail dst src := hg
  have hf := hr.frame p
  rw [hp] at hf
  obtain ⟨⟨-, hdd, hdn⟩, hsrc, -, htail⟩ := hf
  have hsrc := hc.held hr hsrc (h.home _ (Log.blockAt_mem htail)).1 (by simp [hp])
  have hshort := h.short
  refine h.storedLog hi
    (.inl (by rw [hp]; rfl)) rfl rfl rfl rfl ⟨hdd, by omega, by omega⟩ fun i hlt => ?_
  have hlt : i < tail + 1 := hlt
  split
  · have : i = tail := by omega
    rw [this, hsrc]
  · rw [hp]
    show i < tail
    omega

theorem WrittenInv.headCopy (h : WrittenInv g s) (hr : RefInv g s) (hi : GroupInv (view s)) {hd : Head}
    {hb : BufId} (hg : guard g s (.headCopy p hd hb)) : WrittenInv g (next g s (.headCopy p hd hb)) := by
  have hp : s.pc p = .headCopy hd hb := hg
  have hf := hr.frame p
  rw [hp] at hf
  obtain ⟨-, hdd, hdn⟩ := hf
  have hpos := g.nonempty
  refine h.storedLog hi ?_ rfl rfl rfl rfl
    ⟨hdd, by omega, by omega⟩ fun i hlt => ?_
  · rw [hp]
    cases hd <;> simp [PC.phase, Head.phase, Phase.commits, Phase.boots]
  · rw [if_neg (by omega), hp]
    cases hd <;> exact hlt

variable {boot : Bool}

/-- `install_trans` stores what the block already contains. -/
theorem WrittenInv.installCopy (h : WrittenInv g s) (hc : CacheInv s) (hr : RefInv g s) (hi : GroupInv (view s))
    {lbuf dbuf : BufId} (hg : guard g s (.installCopy p boot tail lbuf dbuf)) :
    WrittenInv g (next g s (.installCopy p boot tail lbuf dbuf)) := by
  have hp : s.pc p = .installCopy boot tail lbuf dbuf := hg
  have hf := hr.frame p
  rw [hp] at hf
  obtain ⟨hlog, ⟨-, hdd, hdn⟩, -, rfl⟩ := hf
  have htail : tail < s.lh.length := (hi.installing p tail true (congrArg PC.phase hp)).1
  have hdata := hc.held hr hlog (named_of_ne (Nat.succ_ne_zero _)) (by simp [hp])
  have hslot := h.slots p tail htail (by rw [hp]; exact htail)
  refine h.step (p := p) (y := .bunpin false tail lbuf dbuf) rfl rfl (fun dev bn _ => ?_) rfl
    (by rw [hp]; rfl)
  rw [next, contents_store, hdd, hdn]
  split
  · rename_i heq
    rw [heq.1, heq.2, hdata, hslot]
  · rfl

theorem WrittenInv.bwrite (h : WrittenInv g s) (hc : CacheInv s) (hr : RefInv g s)
    (hg : guard g s (.bwrite p b)) : WrittenInv g (next g s (.bwrite p b)) := by
  obtain ⟨hp, -, hl⟩ := hg
  have hv : (s.bufs b).valid = true := hr.valid_of_lock hl (by simp [hp])
  refine h.step (p := p) (y := .idle) (by simp [next, store, ← hp]) rfl (fun dev bn hn => ?_) rfl (by simp [PC.copied])
  rw [next, contents_store]
  split
  · rename_i heq
    rw [heq.1, heq.2] at hn ⊢
    exact hc.data b hv hn
  · rfl

/-- Inside an operation nobody copies. -/
theorem quiet_of_inOp (hi : GroupInv (view s)) (hb : s.booted = true) (hop : s.inOp p = true) (q : Fin np)
    (n : Nat) : (s.pc q).copied n = 0 :=
  copied_of_quiet ⟨hi.commits_false (hi.not_committing hop).1 q, hi.booted hb q⟩ n

theorem WrittenInv.modify (h : WrittenInv g s) (hi : GroupInv (view s))
    (hg : guard g s (.modify p b d)) (hop : s.inOp p = true) : WrittenInv g (next g s (.modify p b d)) := by
  refine h.reset (fun q => quiet_of_inOp hi hg.2.1 hop q _) h.home h.short fun dev bn heq => ?_
  simp only [next, update_update, heq]

theorem WrittenInv.logWriteLocked (h : WrittenInv g s) (hr : RefInv g s) (hi : GroupInv (view s))
    (hg : guard g s (.logWriteLocked p b)) (hok : insideOps g s (.logWriteLocked p b)) :
    WrittenInv g (next g s (.logWriteLocked p b)) := by
  obtain ⟨hout, hfits⟩ := hok
  have hp : s.pc p = .logWrite b := hg.1
  have hf := hr.frame p
  rw [hp] at hf
  rw [hf.2] at hout
  refine h.reset (fun q => ?_) ?_ ?_ fun _ _ => id
  · by_cases hqp : q = p
    · subst hqp; simp [next, PC.copied]
    · simpa [next, hqp] using copied_of_quiet ((hi.quiet_of_logWrite hp).2 q) _
  · simp only [next]
    split
    · exact h.home
    · intro bn hbn
      rcases List.mem_append.mp hbn with hbn | hbn
      · exact h.home bn hbn
      · rw [List.mem_singleton.mp hbn]
        exact hout
  · have hshort := h.short
    simp only [next]
    split
    · exact hshort
    · rename_i hnew
      rw [List.length_append, List.length_singleton]
      exact hfits.resolve_left hnew

theorem WrittenInv.installDone (h : WrittenInv g s) (hi : GroupInv (view s))
    (hg : guard g s (.installDone p boot tail)) : WrittenInv g (next g s (.installDone p boot tail)) := by
  have hp : s.pc p = .install boot tail := hg.1
  refine h.reset (fun q => ?_) (by simp [next]) g.nonempty fun _ _ => id
  by_cases hqp : q = p
  · subst hqp; cases boot <;> simp [next, PC.copied, Cont.copied]
  · have hph : (s.pc p).phase.commits = true ∨ (s.pc p).phase.boots = true :=
      PC.phase_of_unpins (by rw [hp]; rfl)
    simpa [next, hqp] using copied_of_quiet (hi.others_quiet hph hqp) _

theorem WrittenInv.readHeadCopy (h : WrittenInv g s) (hr : RefInv g s) (hi : GroupInv (view s))
    (hg : guard g s (.readHeadCopy p b)) : WrittenInv g (next g s (.readHeadCopy p b)) := by
  have hp : s.pc p = .readHeadCopy b := hg
  have hph : (view s).phase p = .boot := congrArg PC.phase hp
  have hb : s.booted = false := (hi.booting (by rw [hph]; rfl)).booted
  have hlh : (next g s (.readHeadCopy p b)).lh = [] := ((hr.readHeadCopy hi hg).boot hb).1
  refine h.reset (fun q => ?_) (by simp [hlh]) (by simpa [hlh] using g.nonempty) fun _ _ => id
  by_cases hqp : q = p
  · subst hqp; simp [next, PC.copied, Ret.copied]
  · simpa [next, hqp] using copied_of_quiet (hi.others_quiet (.inr (by rw [hp]; rfl)) hqp) _

theorem WrittenInv.wakeup (h : WrittenInv g s) {q : Fin np} {qs : List (Fin np)} :
    WrittenInv g (next g s (.wakeup p q qs)) := by
  by_cases hq : s.pc q = .sleeping
  · have h₁ : WrittenInv g { s with pc := update s.pc q .wakened } :=
      h.plain rfl rfl rfl rfl rfl
    exact h₁.plain (p := p) (y := .wakeup qs) (by simp [next, hq]) rfl rfl rfl rfl
  · exact h.plain (p := p) (y := .wakeup qs) (by simp [next, hq]) rfl rfl rfl rfl

theorem writtenInv_step {a : Act np} (h : WrittenInv g s) (hc : CacheInv s) (hr : RefInv g s)
    (hi : GroupInv (view s)) (hg : guard g s a) (hok : insideOps g s a) : WrittenInv g (next g s a) := by
  cases a
  case modify => exact h.modify hi hg hok.1
  case bwrite => exact h.bwrite hc hr hg
  case logWriteLocked => exact h.logWriteLocked hr hi hg hok
  case logCopy => exact h.logCopy hc hr hi hg
  case headCopy => exact h.headCopy hr hi hg
  case installCopy => exact h.installCopy hc hr hi hg
  case installDone => exact h.installDone hi hg
  case readHeadCopy => exact h.readHeadCopy hr hi hg
  case wakeup => exact h.wakeup
  case bgetHit p dev bn k b | bgetRecycle p dev bn k b | acquire p dev bn b k | writeLogNext p tail =>
    have hp := hg.1
    exact h.step rfl rfl (fun _ _ _ => rfl) rfl (by rw [hp]; exact le_rfl)
  case fill p dev bn b k =>
    have hp : s.pc p = .fill dev bn b k := hg
    exact h.step rfl rfl (fun _ _ _ => rfl) rfl (by rw [hp, Cont.goto_copied]; exact le_rfl)
  case release p b k =>
    have hp : s.pc p = .release b k := hg
    exact h.step rfl rfl (fun _ _ _ => rfl) rfl (by rw [hp]; exact le_rfl)
  case putref p b k =>
    have hp : s.pc p = .putref b k := hg
    exact h.step rfl rfl (fun _ _ _ => rfl) rfl (by rw [hp, Ret.goto_copied]; exact le_rfl)
  case bunpin p boot tail lbuf dbuf =>
    have hp : s.pc p = .bunpin boot tail lbuf dbuf := hg
    exact h.step rfl rfl (fun _ _ _ => rfl) rfl (by rw [hp]; cases boot <;> exact le_rfl)
  case writeLogDone p tail =>
    obtain ⟨hp, htail⟩ := hg
    exact h.step rfl rfl (fun _ _ _ => rfl) rfl (by rw [hp]; exact Nat.not_lt.mp htail)
  case installNext p boot tail =>
    have hp := hg.1
    exact h.step (p := p) rfl rfl (fun _ _ _ => rfl) rfl (by rw [hp]; cases boot <;> exact le_rfl)
  case logWriteTooBig | logWriteOutside | bgetPanic | endPanic =>
    exact ⟨h.home, h.short, h.same, h.slots⟩
  case bread p _ _ | brelse p _ | logWrite p _ | beginOp p | endOp p | beginAcquire p | beginEnter p |
      beginWait p | endAcquire p | endLast p | endMore p | commitSome p | commitNone p | endAcquire2 p |
      kill p | sleepLock p | sleepState p | resume p | wakeupDone p | endRelease p | endReset p |
      bootDone p =>
    exact h.plain (p := p) rfl rfl rfl rfl rfl

theorem writtenInv_init [NeZero np] (g : Geometry) (d : Nat → Disk) : WrittenInv g (init d : State np) where
  home := by simp [init]
  short := g.nonempty
  same _ _ _ := rfl
  slots p i hi := by simp [init] at hi

/-- All that holds of the machine whose boot finds the log empty. -/
def Written (g : Geometry) (s : State np) : Prop := WrittenInv g s ∧ CacheInv s ∧ RefInv g s ∧ GroupInv (view s)

theorem written_step {a : Act np} (hnp : np + 3 < 2 ^ 32) (h : Written g s) (hg : guard g s a) (hclean : cleanRelease s a)
    (hops : insideOps g s a) : Written g (next g s a) := by
  obtain ⟨hw, hc, hr, hi⟩ := h
  exact ⟨writtenInv_step hw hc hr hi hg hops, cacheInv_step hc hr hi hg hclean, refInv_step hr hi hnp hg, groupInv_step hi hg⟩

theorem written_init [NeZero np] {d : Nat → Disk} (hclean : getHead (d ROOTDEV g.start) = []) :
    Written g (init d : State np) :=
  ⟨writtenInv_init g d, cacheInv_init d, refInv_init hclean, groupInv_init d⟩

/-! ### What a client reads -/

/-- What it means for the cache to be transparent in a state: no block has two buffers, and every
    `bread` that is about to return does so with the block locked and its last contents. -/
structure Transparent (g : Geometry) (t : State np) : Prop where
  unique : ∀ dev bn b c, Named dev bn → Labelled t b dev bn → Labelled t c dev bn → b = c
  returns : ∀ p dev bn b k, t.pc p = .fill dev bn b k → Named dev bn →
    Held (next g t (.fill p dev bn b k)) p b dev bn ∧
    ((next g t (.fill p dev bn b k)).bufs b).valid = true ∧
    ((next g t (.fill p dev bn b k)).bufs b).data = t.contents dev bn

theorem CacheInv.transparent (h : CacheInv t) (hr : RefInv g t) : Transparent g t where
  unique dev bn b c hn hb hc := by
    obtain ⟨rfl, rfl⟩ := hc
    exact hr.eq_of_named hn hb.1 hb.2
  returns p dev bn b k hp hn := by
    have hf := hr.frame p
    rw [hp] at hf
    obtain ⟨-, ⟨hl, hd, hb⟩, -⟩ := hf
    obtain ⟨hd', hb'⟩ := label_next (a := .fill p dev bn b k) rfl b
    have hlock := lock_next (g := g) (s := t) (a := .fill p dev bn b k) rfl b
    have hv : ((next g t (.fill p dev bn b k)).bufs b).valid = true := by simp [next]
    have hdata := (h.fill hr hp).data b hv
    rw [hd', hb', hd, hb] at hdata
    exact ⟨⟨hlock.trans hl, hd'.trans hd, hb'.trans hb⟩, hv, hdata hn⟩

/-- The cache is transparent in every state that clients reach which log or write what they modified
    before they release it. If they modify blocks only inside operations, whose groups fit the log,
    then what they left in a block is what the last of them left there: the copies that `commit`
    makes do not count. -/
theorem cache_transparent [NeZero np] (g : Geometry) (d : Nat → Disk) (hnp : np + 3 < 2 ^ 32)
    (hclean : getHead (d ROOTDEV g.start) = []) {as : List (Act np)} {t : State np}
    (hrun : (machine g np).Run cleanRelease (init d) as t) :
    Transparent g t ∧
    ((machine g np).Run (fun s a => cleanRelease s a ∧ insideOps g s a) (init d) as t →
      ∀ dev bn, ClientBlock g dev bn → t.contents dev bn = t.written dev bn) := by
  refine ⟨?_, fun hops dev bn hb => ?_⟩
  · have hinv : CacheInv t ∧ RefInv g t ∧ GroupInv (view t) :=
      System.Run.invariant (M := machine g np) (I := fun s => CacheInv s ∧ RefInv g s ∧ GroupInv (view s))
        (fun _ _ h hg hok => ⟨cacheInv_step h.1 h.2.1 h.2.2 hg.2 hok, refInv_step h.2.1 h.2.2 hnp hg.2,
          groupInv_step h.2.2 hg.2⟩) hrun
        ⟨cacheInv_init d, refInv_init hclean, groupInv_init d⟩
    exact hinv.1.transparent hinv.2.1
  · have hinv : Written g t :=
      hops.invariant (fun _ _ h (hg : _ ∧ _) hok => written_step hnp h hg.2 hok.1 hok.2) (written_init hclean)
    exact hinv.1.same dev bn hb

/-- `bread`, modify, `log_write`, `brelse`, and a second `bread` that is about to return. -/
def rereadActs : List (Act 2) :=
  List.flatten [bootActs Log.mkfsLog 2, beginActs 0, .bread 0 ROOTDEV 102 :: missActs 0 102 .client 2,
    [.modify 0 2 (fun _ => 7), .logWrite 0 2, .logWriteLocked 0 2, .brelse 0 2], relActs 0 2 .client,
    [.bread 1 ROOTDEV 102, .bgetHit 1 ROOTDEV 102 .client 2, .acquire 1 ROOTDEV 102 2 .client]]

theorem cache_transparent_reread : ∃ t : State 2,
    (machine Log.mkfsLog 2).Run cleanRelease (init fun _ _ => Block.zero) rereadActs t ∧
    t.pc 1 = .fill ROOTDEV 102 2 .client ∧ t.contents ROOTDEV 102 = (fun _ => 7) ∧
    Transparent Log.mkfsLog t ∧ ∀ dev bn, ClientBlock Log.mkfsLog dev bn → t.contents dev bn = t.written dev bn := by
  have hrun := System.run_exec (machine Log.mkfsLog 2)
    (fun s a => cleanRelease s a ∧ insideOps Log.mkfsLog s a) (init fun _ _ => Block.zero) rereadActs rfl
  have hclean : (machine Log.mkfsLog 2).Run cleanRelease _ _ _ := hrun.mono fun _ _ h => h.1
  obtain ⟨htrans, hops⟩ := cache_transparent _ _ (by decide) rfl hclean
  exact ⟨_, hclean, rfl, rfl, htrans, hops hrun⟩

end Xv6.Bio
