import Xv6.Kernel.Bio.Refcnt

/-! The buffer cache is transparent: `bread` returns what the last holder of the block left in it.

    ```
    contents ── data of the buffer that caches the block, if one is valid
          └──── disk, if none is
    data ≠ disk only while the buffer is held dirty, or pinned by the log
    ```

    Eviction takes buffers that are neither held nor pinned, so it loses nothing. -/

namespace Xv6.Bio
open Log (Geometry blockAt getHead putHead)
open Update Function

variable {np : Nat} {g : Geometry} {s t : State np} {p : Fin np}

/-- Clients call `log_write` or `bwrite` on what they modified before they call `brelse`. -/
def cleanRelease (s : State np) : Act np → Prop
  | .brelse _ b => s.dirty b = false
  | _ => True

instance (s : State np) (a : Act np) : Decidable (cleanRelease s a) := by
  apply @Act.casesOn _ (fun a => Decidable (cleanRelease s a)) a <;> intros <;> unfold cleanRelease <;> infer_instance

/-- A block that is not the one of the unused buffers. -/
def Named (dev bn : Nat) : Prop := ¬ (dev = 0 ∧ bn = 0)

/-- Buffers that a process holds inside `bread`, `brelse` or `commit`. -/
def PC.uses : PC np → List BufId
  | .bget _ _ k => k.other.toList
  | .acquire _ _ _ k => k.other.toList
  | .fill _ _ b k => b :: k.other.toList
  | .release b k => b :: k.other.toList
  | .putref _ k => k.other.toList
  | .logCopy _ dst src => [dst, src]
  | .headCopy _ hb => [hb]
  | .readHeadCopy hb => [hb]
  | .installCopy _ _ lbuf dbuf => [lbuf, dbuf]
  | .bunpin _ _ lbuf dbuf => [lbuf, dbuf]
  | _ => []

variable {b : BufId}

theorem PC.Frame.lock_of_uses {x : PC np} (hf : x.Frame g s p) (hb : b ∈ x.uses) :
    (s.bufs b).lock = some p := by
  have hk : ∀ {k : Cont} {dev bn : Nat}, k.Frame g s p dev bn → b ∈ k.other.toList →
      (s.bufs b).lock = some p := fun hk hb => hk.lock_other (by simpa using hb)
  have hr : ∀ {k : Ret}, k.Frame s p → b ∈ k.other.toList → (s.bufs b).lock = some p :=
    fun hr hb => hr.1 b (by simpa using hb)
  cases x with
  | bget dev bn k => exact hk hf hb
  | acquire dev bn c k => exact hk hf.1 hb
  | fill dev bn c k =>
    rcases List.mem_cons.mp hb with rfl | hb
    · exact hf.2.1.1
    · exact hk hf.1 hb
  | release c k =>
    rcases List.mem_cons.mp hb with rfl | hb
    · exact hf.1
    · exact hr hf.2.1 hb
  | putref c k => exact hr hf hb
  | logCopy tail dst src =>
    rcases List.mem_pair.mp hb with rfl | rfl
    · exact hf.1.1
    · exact hf.2.1.1
  | headCopy h hb' | readHeadCopy hb' => rw [List.mem_singleton.mp hb]; exact hf.1
  | installCopy boot tail lbuf dbuf | bunpin boot tail lbuf dbuf =>
    rcases List.mem_pair.mp hb with rfl | rfl
    · exact hf.1.1
    · exact hf.2.1.1
  | _ => simp [PC.uses] at hb

/-- The cache invariant. -/
structure CacheInv (s : State np) : Prop where
  data : ∀ b, (s.bufs b).valid = true → Named (s.bufs b).dev (s.bufs b).blockno →
    (s.bufs b).data = s.contents (s.bufs b).dev (s.bufs b).blockno
  disk : ∀ dev bn, Named dev bn → (∀ b, (s.bufs b).valid = true → ¬ Labelled s b dev bn) →
    s.disk dev bn = s.contents dev bn
  clean : ∀ b, (s.bufs b).valid = true → Named (s.bufs b).dev (s.bufs b).blockno →
    (s.bufs b).data = s.disk (s.bufs b).dev (s.bufs b).blockno ∨ s.dirty b = true ∨ pinned s b
  dirty : ∀ b, s.dirty b = true → (s.bufs b).lock ≠ none
  uses : ∀ p b, b ∈ (s.pc p).uses → s.dirty b = false
  /-- A block is installed before it is unpinned. -/
  synced : ∀ p boot tail lbuf dbuf, s.pc p = .bunpin boot tail lbuf dbuf →
    Named (s.bufs dbuf).dev (s.bufs dbuf).blockno →
    (s.bufs dbuf).data = s.disk (s.bufs dbuf).dev (s.bufs dbuf).blockno

theorem RefInv.eq_of_named (h : RefInv g s) {c : BufId} (hb : Named (s.bufs b).dev (s.bufs b).blockno)
    (hdev : (s.bufs c).dev = (s.bufs b).dev) (hbn : (s.bufs c).blockno = (s.bufs b).blockno) : c = b := by
  refine caches_inj ((h.canon c).resolve_right fun hz => hb ?_)
    ((h.canon b).resolve_right fun hz => hb ⟨hz.1, hz.2.1⟩) hdev hbn
  exact ⟨hdev ▸ hz.1, hbn ▸ hz.2.1⟩

/-! ### Steps that change no data -/

variable {y : PC np}

theorem CacheInv.quiet (h : CacheInv s) (hpc : t.pc = update s.pc p y)
    (hlabel : ∀ b, (t.bufs b).dev = (s.bufs b).dev ∧ (t.bufs b).blockno = (s.bufs b).blockno)
    (hdata : ∀ b, (t.bufs b).valid = (s.bufs b).valid ∧ (t.bufs b).data = (s.bufs b).data)
    (hdisk : t.disk = s.disk) (hcont : t.contents = s.contents) (hdirty : t.dirty = s.dirty)
    (hpin : ∀ b, pinned s b → pinned t b)
    (hlock : ∀ b, s.dirty b = true → (t.bufs b).lock ≠ none)
    (huses : ∀ b ∈ y.uses, s.dirty b = false)
    (hy : ∀ boot tail lbuf dbuf, y ≠ .bunpin boot tail lbuf dbuf) : CacheInv t where
  data b := by
    rw [(hlabel b).1, (hlabel b).2, (hdata b).1, (hdata b).2, hcont]
    exact h.data b
  disk dev bn hn hb := by
    rw [hdisk, hcont]
    refine h.disk dev bn hn fun b hv hl => hb b ((hdata b).1.trans hv) ?_
    exact ⟨(hlabel b).1.trans hl.1, (hlabel b).2.trans hl.2⟩
  clean b := by
    rw [(hlabel b).1, (hlabel b).2, (hdata b).1, (hdata b).2, hdisk, hdirty]
    exact fun hv hn => (h.clean b hv hn).imp_right (Or.imp_right (hpin b))
  dirty b := by rw [hdirty]; exact hlock b
  uses q b hb := by
    rw [hdirty]
    by_cases hq : q = p
    · subst hq; exact huses b (by simpa [hpc] using hb)
    · exact h.uses q b (by simpa [hpc, hq] using hb)
  synced q boot tail lbuf dbuf hq := by
    rw [(hlabel dbuf).1, (hlabel dbuf).2, (hdata dbuf).2, hdisk]
    by_cases hqp : q = p
    · subst hqp
      rw [hpc, update_self] at hq
      exact absurd hq (hy boot tail lbuf dbuf)
    · exact h.synced q boot tail lbuf dbuf (by simpa [hpc, hqp] using hq)

/-- Steps between program counters. -/
theorem CacheInv.walk (h : CacheInv s) (hpc : t.pc = update s.pc p y)
    (hbufs : t.bufs = s.bufs) (hlru : t.lru = s.lru) (hlh : t.lh = s.lh) (hun : t.unpinned = s.unpinned)
    (hdisk : t.disk = s.disk) (hcont : t.contents = s.contents) (hdirty : t.dirty = s.dirty)
    (huses : ∀ b ∈ y.uses, s.dirty b = false)
    (hy : ∀ boot tail lbuf dbuf, y ≠ .bunpin boot tail lbuf dbuf) : CacheInv t := by
  have hlabel : ∀ b, (t.bufs b).dev = (s.bufs b).dev ∧ (t.bufs b).blockno = (s.bufs b).blockno :=
    fun b => by rw [hbufs]; exact ⟨rfl, rfl⟩
  refine h.quiet hpc hlabel (fun b => by rw [hbufs]; exact ⟨rfl, rfl⟩) hdisk hcont hdirty (fun b => ?_)
    (fun b => by rw [hbufs]; exact h.dirty b) huses hy
  exact (pinned_congr (hlabel b) (lookup_congr hlru hlabel) hlh hun).mpr

theorem CacheInv.plain (h : CacheInv s) (hpc : t.pc = update s.pc p y)
    (hbufs : t.bufs = s.bufs) (hlru : t.lru = s.lru) (hlh : t.lh = s.lh) (hun : t.unpinned = s.unpinned)
    (hdisk : t.disk = s.disk) (hcont : t.contents = s.contents) (hdirty : t.dirty = s.dirty)
    (hy : y.plain = true) : CacheInv t := by
  refine h.walk hpc hbufs hlru hlh hun hdisk hcont hdirty ?_ ?_ <;>
    cases y <;> simp_all [PC.plain, PC.uses]

variable {a : Act np}

/-- Steps of `bread` and `brelse` that change a buffer's lock or its count. -/
theorem CacheInv.onBuf (h : CacheInv s) (hr : RefInv g s) (hg : guard g s a)
    {buf : Buf np} (ha : a.relabels = false)
    (hpc : (next g s a).pc = update s.pc p y)
    (hbufs : (next g s a).bufs = update s.bufs b buf)
    (hdata : buf.valid = (s.bufs b).valid ∧ buf.data = (s.bufs b).data)
    (hlh : (next g s a).lh = s.lh) (hun : (next g s a).unpinned = s.unpinned)
    (hdisk : (next g s a).disk = s.disk) (hcont : (next g s a).contents = s.contents)
    (hdirty : (next g s a).dirty = s.dirty) (hlock : s.dirty b = true → buf.lock ≠ none)
    (huses : ∀ c ∈ y.uses, s.dirty c = false)
    (hy : ∀ boot tail lbuf dbuf, y ≠ .bunpin boot tail lbuf dbuf) : CacheInv (next g s a) := by
  refine h.quiet hpc (label_next ha) (fun c => ?_) hdisk hcont hdirty (fun c => ?_) (fun c hc => ?_) huses hy
  · rw [hbufs]
    exact ⟨proj_update Buf.valid hdata.1 c, proj_update Buf.data hdata.2 c⟩
  · exact (pinned_congr (label_next ha c) (hr.lookup_next hg ha) hlh hun).mpr
  · rw [hbufs]
    by_cases hcb : c = b
    · subst hcb; simpa using hlock hc
    · simpa [hcb] using h.dirty c hc

variable {dev bn : Nat} {k : Cont}

theorem CacheInv.bgetHit (h : CacheInv s) (hr : RefInv g s)
    (hg : guard g s (.bgetHit p dev bn k b)) : CacheInv (next g s (.bgetHit p dev bn k b)) := by
  have hp : s.pc p = .bget dev bn k := hg.1
  refine h.onBuf hr hg rfl rfl rfl ⟨rfl, rfl⟩ rfl rfl rfl rfl rfl (h.dirty b)
    (fun c hc => h.uses p c ?_) nofun
  rw [hp]
  exact hc

theorem CacheInv.acquire (h : CacheInv s) (hr : RefInv g s)
    (hg : guard g s (.acquire p dev bn b k)) : CacheInv (next g s (.acquire p dev bn b k)) := by
  obtain ⟨hp, hl⟩ := id hg
  have hb : s.dirty b = false := by
    rw [← Bool.not_eq_true]
    exact fun hd => h.dirty b hd hl
  refine h.onBuf hr hg rfl rfl rfl ⟨rfl, rfl⟩ rfl rfl rfl rfl rfl (by simp)
    (fun c hc => ?_) nofun
  rcases List.mem_cons.mp hc with rfl | hc
  · exact hb
  · exact h.uses p c (by rw [hp]; exact hc)

theorem CacheInv.release (h : CacheInv s) (hr : RefInv g s) {k : Ret}
    (hg : guard g s (.release p b k)) : CacheInv (next g s (.release p b k)) := by
  have hp : s.pc p = .release b k := hg
  have hb : s.dirty b = false := h.uses p b (by rw [hp]; exact List.mem_cons_self)
  refine h.onBuf hr hg rfl rfl rfl ⟨rfl, rfl⟩ rfl rfl rfl rfl rfl (by simp [hb])
    (fun c hc => h.uses p c ?_) nofun
  rw [hp]
  exact List.mem_cons_of_mem b hc

theorem Ret.goto_uses (g : Geometry) (k : Ret) : (k.goto g : PC np).uses = k.other.toList := by
  rcases k with _ | _ | _ | _ | _ | (_ | _ | _) | _ | _ <;> rfl

theorem Ret.goto_ne_bunpin (g : Geometry) (k : Ret) (boot : Bool) (tail : Nat) (lbuf dbuf : BufId) :
    (k.goto g : PC np) ≠ .bunpin boot tail lbuf dbuf := by
  rcases k with _ | _ | _ | _ | _ | (_ | _ | _) | _ | _ <;> nofun

theorem CacheInv.putref (h : CacheInv s) (hr : RefInv g s) {k : Ret}
    (hg : guard g s (.putref p b k)) : CacheInv (next g s (.putref p b k)) := by
  have hp : s.pc p = .putref b k := hg
  refine h.onBuf hr hg rfl rfl rfl ⟨rfl, rfl⟩ rfl rfl rfl rfl rfl (h.dirty b)
    (fun c hc => h.uses p c ?_) ?_
  · rw [hp]
    rwa [Ret.goto_uses] at hc
  · exact Ret.goto_ne_bunpin g k

variable {boot : Bool} {tail : Nat}

/-- The header is emptied only after all the blocks it records have been unpinned. -/
theorem CacheInv.installDone (h : CacheInv s) (hr : RefInv g s)
    (hg : guard g s (.installDone p boot tail)) : CacheInv (next g s (.installDone p boot tail)) := by
  obtain ⟨hp, htail⟩ := hg
  have hun : s.unpinned = tail := hr.unpins p tail (by rw [hp]; rfl)
  have hdrop : s.lh.drop s.unpinned = [] := List.drop_eq_nil_of_le (by omega)
  exact h.quiet rfl (fun _ => ⟨rfl, rfl⟩) (fun _ => ⟨rfl, rfl⟩) rfl rfl rfl
    (fun b hb => by simp [pinned, hdrop] at hb) h.dirty (by simp [PC.uses, Cont.other]) nofun

theorem CacheInv.readHeadCopy (h : CacheInv s) (hr : RefInv g s) (hi : GroupInv (view s))
    (hg : guard g s (.readHeadCopy p b)) : CacheInv (next g s (.readHeadCopy p b)) := by
  have hp : s.pc p = .readHeadCopy b := hg
  have hph : (view s).phase p = .boot := congrArg PC.phase hp
  have hb : s.booted = false := (hi.booting (by rw [hph]; rfl)).booted
  refine h.quiet rfl (fun _ => ⟨rfl, rfl⟩) (fun _ => ⟨rfl, rfl⟩) rfl rfl rfl
    (fun c hc => ?_) h.dirty (fun c hc => h.uses p c ?_) nofun
  · simp [pinned, (hr.boot hb).1] at hc
  · rw [hp]
    exact hc

/-- One iteration of the `wakeup` loop. -/
theorem CacheInv.wakeup (h : CacheInv s) {q : Fin np} {qs : List (Fin np)} :
    CacheInv (next g s (.wakeup p q qs)) := by
  by_cases hq : s.pc q = .sleeping
  · have h₁ : CacheInv { s with pc := update s.pc q .wakened } :=
      h.plain rfl rfl rfl rfl rfl rfl rfl rfl rfl
    exact h₁.plain (p := p) (y := .wakeup qs) (by simp [next, hq]) rfl rfl rfl rfl rfl rfl rfl rfl
  · exact h.plain (p := p) (y := .wakeup qs) (by simp [next, hq]) rfl rfl rfl rfl rfl rfl rfl rfl

/-! ### Writes -/

variable {d : Block}

/-- `memmove` into a buffer that `p` holds, with `bwrite`. -/
theorem CacheInv.stored (h : CacheInv s) (hr : RefInv g s)
    (hpc : t.pc = update s.pc p y) (hbufs : t.bufs = (store s b d).bufs)
    (hdisk : t.disk = (store s b d).disk) (hcont : t.contents = (store s b d).contents)
    (hdirty : t.dirty = (store s b d).dirty) (hpin : ∀ c, pinned s c → pinned t c)
    (hl : (s.bufs b).lock = some p) (huses : ∀ c ∈ y.uses, c ≠ b → s.dirty c = false)
    (hy : ∀ boot tail lbuf dbuf, y = .bunpin boot tail lbuf dbuf → dbuf = b) : CacheInv t := by
  have hself : t.bufs b = { s.bufs b with data := d } := by simp [hbufs, store]
  have hother : ∀ c, c ≠ b → t.bufs c = s.bufs c := fun c hc => by simp [hbufs, store, hc]
  have hnotb : ∀ c, c ≠ b → Named (s.bufs c).dev (s.bufs c).blockno →
      ¬ ((s.bufs c).dev = (s.bufs b).dev ∧ (s.bufs c).blockno = (s.bufs b).blockno) :=
    fun c hc hn hlab => hc (hr.eq_of_named hn hlab.1.symm hlab.2.symm).symm
  refine ⟨fun c hv hn => ?_, fun dev bn hn hc => ?_, fun c hv hn => ?_, fun c hc => ?_, fun q c hc => ?_,
    fun q boot tail lbuf dbuf hq hn => ?_⟩
  · by_cases hc : c = b
    · subst hc; simp [hself, hcont, store]
    · rw [hother c hc] at hv hn ⊢
      simp only [hcont, store, update_update, if_neg (hnotb c hc hn)]
      exact h.data c hv hn
  · simp only [hdisk, hcont, store, update_update]
    split
    · rfl
    · rename_i hne
      refine h.disk dev bn hn fun c hv hlab => ?_
      by_cases hcb : c = b
      · subst hcb; exact hne ⟨hlab.1.symm, hlab.2.symm⟩
      · exact hc c (by rw [hother c hcb]; exact hv) (by rw [Labelled, hother c hcb]; exact hlab)
  · by_cases hc : c = b
    · subst hc; simp [hself, hdisk, store]
    · rw [hother c hc] at hv hn ⊢
      simp only [hdisk, hdirty, store, update_update, if_neg (hnotb c hc hn), update_of_ne hc]
      exact (h.clean c hv hn).imp_right (Or.imp_right (hpin c))
  · by_cases hcb : c = b
    · subst hcb; simp [hdirty, store] at hc
    · rw [hother c hcb]
      exact h.dirty c (by simpa [hdirty, store, hcb] using hc)
  · by_cases hcb : c = b
    · subst hcb; simp [hdirty, store]
    · simp only [hdirty, store, update_of_ne hcb]
      by_cases hq : q = p
      · subst hq; exact huses c (by simpa [hpc] using hc) hcb
      · exact h.uses q c (by simpa [hpc, hq] using hc)
  · by_cases hqp : q = p
    · subst hqp
      have hdb := hy boot tail lbuf dbuf (by simpa [hpc] using hq)
      subst hdb
      simp [hself, hdisk, store]
    · rw [hpc, update_of_ne hqp] at hq
      have hlock : (s.bufs dbuf).lock = some q := by
        have hf := hr.frame q
        rw [hq] at hf
        exact hf.2.1.1
      have hdb : dbuf ≠ b := by
        rintro rfl
        rw [hl, Option.some.injEq] at hlock
        exact hqp hlock.symm
      rw [hother dbuf hdb] at hn ⊢
      simp only [hdisk, store, update_update, if_neg (hnotb dbuf hdb hn)]
      exact h.synced q boot tail lbuf dbuf hq hn

theorem CacheInv.bwrite (h : CacheInv s) (hr : RefInv g s) (hg : guard g s (.bwrite p b)) :
    CacheInv (next g s (.bwrite p b)) := by
  obtain ⟨hp, -, hl⟩ := hg
  refine h.stored (y := .idle) hr ?_ rfl rfl rfl rfl (fun c => ?_) hl nofun nofun
  · simp [next, store, ← hp]
  · exact (pinned_congr (label_next rfl c) (lookup_congr rfl (label_next rfl)) rfl rfl).mpr

/-- The three `memmove`s of `commit`. -/
theorem CacheInv.logCopy (h : CacheInv s) (hr : RefInv g s) {dst src : BufId}
    (hg : guard g s (.logCopy p tail dst src)) : CacheInv (next g s (.logCopy p tail dst src)) := by
  have hp : s.pc p = .logCopy tail dst src := hg
  have hf := hr.frame p
  rw [hp] at hf
  refine h.stored hr rfl rfl rfl rfl rfl (fun c => ?_)
    hf.1.1 (fun c hc _ => h.uses p c ?_) nofun
  · exact (pinned_congr (label_next rfl c) (lookup_congr rfl (label_next rfl)) rfl rfl).mpr
  · rw [hp]
    simpa [PC.uses, Ret.other, or_comm] using hc

theorem CacheInv.headCopy (h : CacheInv s) (hr : RefInv g s) {hd : Head} {hb : BufId}
    (hg : guard g s (.headCopy p hd hb)) : CacheInv (next g s (.headCopy p hd hb)) := by
  have hp : s.pc p = .headCopy hd hb := hg
  have hf := hr.frame p
  rw [hp] at hf
  refine h.stored (p := p) (y := .release hb (.head hd)) hr rfl rfl rfl rfl rfl (fun c => ?_)
    hf.1 (fun c hc _ => h.uses p c ?_) nofun
  · exact (pinned_congr (label_next rfl c) (lookup_congr rfl (label_next rfl)) rfl rfl).mpr
  · rw [hp]
    simpa [PC.uses, Ret.other] using hc

variable {lbuf dbuf : BufId}

section Installing

variable (h : CacheInv s) (hr : RefInv g s)

include h hr

theorem CacheInv.installCopy
    (hg : guard g s (.installCopy p boot tail lbuf dbuf)) :
    CacheInv (next g s (.installCopy p boot tail lbuf dbuf)) := by
  have hp : s.pc p = .installCopy boot tail lbuf dbuf := hg
  have hf := hr.frame p
  rw [hp] at hf
  refine h.stored (p := p) (y := .bunpin boot tail lbuf dbuf) hr rfl rfl rfl rfl rfl (fun c => ?_)
    hf.2.1.1 (fun c hc _ => h.uses p c ?_) (fun _ _ _ _ hy => (PC.bunpin.inj hy).2.2.2.symm)
  · exact (pinned_congr (label_next rfl c) (lookup_congr rfl (label_next rfl)) rfl rfl).mpr
  · rw [hp]
    exact hc

/-- A client changes the data of a buffer it holds. -/
theorem CacheInv.modify
    (hg : guard g s (.modify p b d)) : CacheInv (next g s (.modify p b d)) := by
  obtain ⟨hp, -, hl⟩ := hg
  have hv : (s.bufs b).valid = true := hr.valid_of_lock hl (by simp [hp])
  have hself : (next g s (.modify p b d)).bufs b = { s.bufs b with data := d } := by simp [next]
  have hother : ∀ c, c ≠ b → (next g s (.modify p b d)).bufs c = s.bufs c := fun c hc => by
    simp [next, hc]
  have hnotb : ∀ c, c ≠ b → Named (s.bufs c).dev (s.bufs c).blockno →
      ¬ ((s.bufs c).dev = (s.bufs b).dev ∧ (s.bufs c).blockno = (s.bufs b).blockno) :=
    fun c hc hn hlab => hc (hr.eq_of_named hn hlab.1.symm hlab.2.symm).symm
  -- nobody, and not `p` either, is inside a call with this buffer
  have hfree : ∀ q, b ∉ (s.pc q).uses := by
    intro q hb
    have := (hr.frame q).lock_of_uses hb
    rw [hl, Option.some.injEq] at this
    subst this
    simp [hp, PC.uses] at hb
  refine ⟨fun c hv hn => ?_, fun dev bn hn hc => ?_, fun c hv hn => ?_, fun c hc => ?_, fun q c hc => ?_,
    fun q boot tail lbuf dbuf hq hn => ?_⟩
  · by_cases hc : c = b
    · subst hc; simp [next]
    · rw [hother c hc] at hv hn ⊢
      simp only [next, update_update, if_neg (hnotb c hc hn)]
      exact h.data c hv hn
  · simp only [next, update_update]
    rw [if_neg]
    · refine h.disk dev bn hn fun c hv hlab => ?_
      by_cases hcb : c = b
      · subst hcb; exact hc c (by rw [hself]; exact hv) (by rw [Labelled, hself]; exact hlab)
      · exact hc c (by rw [hother c hcb]; exact hv) (by rw [Labelled, hother c hcb]; exact hlab)
    · rintro ⟨rfl, rfl⟩
      exact hc b (by rw [hself]; exact hv) (by simp [Labelled, hself])
  · by_cases hc : c = b
    · subst hc; exact .inr (.inl (by simp [next]))
    · rw [hother c hc] at hv hn ⊢
      have hpin : pinned s c → pinned (next g s (.modify p b d)) c :=
        (pinned_congr (label_next rfl c) (lookup_congr rfl (label_next rfl)) rfl rfl).mpr
      simpa only [next, update_of_ne hc] using
        (h.clean c hv hn).imp_right (Or.imp_right hpin)
  · by_cases hcb : c = b
    · subst hcb; simp [hself, hl]
    · rw [hother c hcb]
      exact h.dirty c (by simpa [next, hcb] using hc)
  · have hcb : c ≠ b := by rintro rfl; exact hfree q hc
    simpa [next, hcb] using h.uses q c hc
  · have hdb : dbuf ≠ b := by
      rintro rfl
      have hq : s.pc q = .bunpin boot tail lbuf dbuf := hq
      exact hfree q (by simp [hq, PC.uses])
    rw [hother dbuf hdb] at hn ⊢
    exact h.synced q boot tail lbuf dbuf hq hn

/-! ### The log -/

/-- `log_write` leaves the buffer pinned instead of dirty. -/
theorem CacheInv.logWriteLocked (hi : GroupInv (view s))
    (hg : guard g s (.logWriteLocked p b)) : CacheInv (next g s (.logWriteLocked p b)) := by
  have hlabel := label_next (g := g) (s := s) (a := .logWriteLocked p b) rfl
  have hvalid := valid_next (g := g) (s := s) (a := .logWriteLocked p b) rfl
  have hlock := lock_next (g := g) (s := s) (a := .logWriteLocked p b) rfl
  have hdata : ∀ c, ((next g s (.logWriteLocked p b)).bufs c).data = (s.bufs c).data := by
    intro c
    simp only [next]
    split
    · rfl
    · by_cases hc : c = b
      · subst hc; simp
      · simp [hc]
  have hpin := hr.pinned_logWrite hi hg
  have hsub : ∀ c, (next g s (.logWriteLocked p b)).dirty c = true → s.dirty c = true := by
    intro c hc
    by_cases hcb : c = b
    · subst hcb; simp [next] at hc
    · simpa [next, hcb] using hc
  refine ⟨fun c => ?_, fun dev bn hn hc => ?_, fun c hv hn => ?_, fun c hc => ?_, fun q c hc => ?_,
    fun q boot tail lbuf dbuf hq => ?_⟩
  · rw [(hlabel c).1, (hlabel c).2, hvalid, hdata]
    exact h.data c
  · refine h.disk dev bn hn fun c hv hl => hc c ((hvalid c).trans hv) ?_
    exact ⟨(hlabel c).1.trans hl.1, (hlabel c).2.trans hl.2⟩
  · rw [(hlabel c).1, (hlabel c).2] at hn ⊢
    rw [hvalid] at hv
    rw [hdata]
    by_cases hcb : c = b
    · exact .inr (.inr ((hpin c).mpr (.inr hcb)))
    · rcases h.clean c hv hn with hd | hd | hd
      · exact .inl hd
      · exact .inr (.inl (by simpa [next, hcb] using hd))
      · exact .inr (.inr ((hpin c).mpr (.inl hd)))
  · rw [hlock]
    exact h.dirty c (hsub c hc)
  · rw [← Bool.not_eq_true]
    intro hd
    by_cases hqp : q = p
    · subst hqp; simp [next, PC.uses] at hc
    · have := h.uses q c (by simpa [next, hqp] using hc)
      simp [hsub c hd] at this
  · rw [(hlabel dbuf).1, (hlabel dbuf).2, hdata]
    by_cases hqp : q = p
    · subst hqp; simp [next] at hq
    · exact h.synced q boot tail lbuf dbuf (by simpa [next, hqp] using hq)

/-- `bunpin` unpins a buffer whose block has been installed. -/
theorem CacheInv.bunpin (hi : GroupInv (view s))
    (hg : guard g s (.bunpin p boot tail lbuf dbuf)) :
    CacheInv (next g s (.bunpin p boot tail lbuf dbuf)) := by
  have hp : s.pc p = .bunpin boot tail lbuf dbuf := hg
  obtain rfl : boot = false := by
    have hf := hr.frame p
    rw [hp] at hf
    exact hf.2.2.2
  have hlabel := label_next (g := g) (s := s) (a := .bunpin p false tail lbuf dbuf) rfl
  have hvalid := valid_next (g := g) (s := s) (a := .bunpin p false tail lbuf dbuf) rfl
  have hlock := lock_next (g := g) (s := s) (a := .bunpin p false tail lbuf dbuf) rfl
  have hdata : ∀ c, ((next g s (.bunpin p false tail lbuf dbuf)).bufs c).data = (s.bufs c).data :=
    fun c => by apply proj_update Buf.data; rfl
  have huses : ∀ c ∈ (PC.release lbuf (.instLog false tail dbuf) : PC np).uses, s.dirty c = false := by
    intro c hc
    refine h.uses p c ?_
    rw [hp]
    simpa [PC.uses, Ret.other] using hc
  refine ⟨fun c => ?_, fun dev bn hn hc => ?_, fun c hv hn => ?_, fun c hc => ?_, fun q c hc => ?_,
    fun q boot tail' lbuf' dbuf' hq => ?_⟩
  · rw [(hlabel c).1, (hlabel c).2, hvalid, hdata]
    exact h.data c
  · refine h.disk dev bn hn fun c hv hl => hc c ((hvalid c).trans hv) ?_
    exact ⟨(hlabel c).1.trans hl.1, (hlabel c).2.trans hl.2⟩
  · rw [(hlabel c).1, (hlabel c).2] at hn ⊢
    rw [hvalid] at hv
    rw [hdata]
    by_cases hcd : c = dbuf
    · subst hcd; exact .inl (h.synced p false tail lbuf c hp hn)
    · exact (h.clean c hv hn).imp_right (Or.imp_right fun hd => (hr.pinned_bunpin hi hg c).mpr ⟨hd, hcd⟩)
  · rw [hlock]
    exact h.dirty c hc
  · by_cases hqp : q = p
    · subst hqp; exact huses c (by simpa [next] using hc)
    · exact h.uses q c (by simpa [next, hqp] using hc)
  · rw [(hlabel dbuf').1, (hlabel dbuf').2, hdata]
    by_cases hqp : q = p
    · subst hqp; simp [next] at hq
    · exact h.synced q boot tail' lbuf' dbuf' (by simpa [next, hqp] using hq)

/-! ### Eviction and reading in -/

/-- The buffer that `bget` recycles holds nothing that is not on the disk. -/
theorem CacheInv.bgetRecycle
    (hg : guard g s (.bgetRecycle p dev bn k b)) : CacheInv (next g s (.bgetRecycle p dev bn k b)) := by
  obtain ⟨hp, hmiss, hvic⟩ := hg
  have hz : (s.bufs b).refcnt = 0 := by simpa using List.find?_some hvic
  obtain ⟨hl, -, hpin⟩ := hr.unused hz
  have hndirty : s.dirty b ≠ true := fun hd => h.dirty b hd hl
  have hnew : ∀ c, ¬ ((s.bufs c).dev = dev ∧ (s.bufs c).blockno = bn) := by
    intro c hc
    have := List.find?_eq_none.mp hmiss c (hr.lru c)
    simp [hc.1, hc.2] at this
  obtain ⟨-, hcs⟩ := caches_relabel (t := next g s (.bgetRecycle p dev bn k b)) (b := b) hr.lru rfl rfl
    ⟨rfl, rfl⟩ hnew
  have hself : ((next g s (.bgetRecycle p dev bn k b)).bufs b).valid = false := by simp [next]
  have hother : ∀ c, c ≠ b → (next g s (.bgetRecycle p dev bn k b)).bufs c = s.bufs c := fun c hc => by
    simp [next, hc]
  have hne : ∀ c, ((next g s (.bgetRecycle p dev bn k b)).bufs c).valid = true → c ≠ b := by
    rintro c hv rfl
    simp [hself] at hv
  refine ⟨fun c hv hn => ?_, fun dev' bn' hn hc => ?_, fun c hv hn => ?_, fun c hc => ?_, fun q c hc => ?_,
    fun q boot tail lbuf dbuf hq hn => ?_⟩
  · have hcb := hne c hv
    rw [hother c hcb] at hv hn ⊢
    exact h.data c hv hn
  · -- the only buffer that may have held the block is the one that was recycled
    by_cases hb : (s.bufs b).valid = true ∧ Labelled s b dev' bn'
    · obtain ⟨hv, rfl, rfl⟩ := hb
      have hclean := (h.clean b hv hn).resolve_right (by simp [hndirty, hpin])
      exact hclean.symm.trans (h.data b hv hn)
    · refine h.disk dev' bn' hn fun c hv hlab => ?_
      by_cases hcb : c = b
      · subst hcb; exact hb ⟨hv, hlab⟩
      · exact hc c (by rw [hother c hcb]; exact hv) (by rw [Labelled, hother c hcb]; exact hlab)
  · have hcb := hne c hv
    rw [hother c hcb] at hv hn ⊢
    refine (h.clean c hv hn).imp_right (Or.imp_right fun hpc => ⟨hcs c hcb hpc.1, ?_⟩)
    rw [hother c hcb]
    exact hpc.2
  · have hcb : c ≠ b := by rintro rfl; exact hndirty hc
    rw [hother c hcb]
    exact h.dirty c hc
  · by_cases hqp : q = p
    · subst hqp
      simp only [next, update_self] at hc
      exact h.uses q c (by rw [hp]; exact hc)
    · exact h.uses q c (by simpa [next, hqp] using hc)
  · by_cases hqp : q = p
    · subst hqp; simp [next] at hq
    · rw [show (next g s (.bgetRecycle p dev bn k b)).pc q = s.pc q by simp [next, hqp]] at hq
      have hdb : dbuf ≠ b := by
        rintro rfl
        have := (hr.frame q).lock_of_uses (b := dbuf) (by simp [hq, PC.uses])
        simp [hl] at this
      rw [hother dbuf hdb] at hn ⊢
      exact h.synced q boot tail lbuf dbuf hq hn

/-- `bread` reads a block that no valid buffer holds from the disk. -/
theorem CacheInv.fill
    (hg : guard g s (.fill p dev bn b k)) : CacheInv (next g s (.fill p dev bn b k)) := by
  have hp : s.pc p = .fill dev bn b k := hg
  have hlabel := label_next (g := g) (s := s) (a := .fill p dev bn b k) rfl
  have hlock := lock_next (g := g) (s := s) (a := .fill p dev bn b k) rfl
  have hother : ∀ c, c ≠ b → (next g s (.fill p dev bn b k)).bufs c = s.bufs c := fun c hc => by
    simp [next, hc]
  have hpin : ∀ c, pinned s c → pinned (next g s (.fill p dev bn b k)) c := fun c =>
    (pinned_congr (hlabel c) (hr.lookup_next hg rfl) rfl rfl).mpr
  -- a buffer read in is the only one with its label
  have hread : (s.bufs b).valid = false → Named (s.bufs b).dev (s.bufs b).blockno →
      s.disk (s.bufs b).dev (s.bufs b).blockno = s.contents (s.bufs b).dev (s.bufs b).blockno := by
    refine fun hv hn => h.disk _ _ hn fun c hvc hlab => ?_
    rw [hr.eq_of_named hn hlab.1 hlab.2, hv] at hvc
    simp at hvc
  have huses : ∀ c ∈ (k.goto s.lh b : PC np).uses, s.dirty c = false := by
    intro c hc
    refine h.uses p c ?_
    rw [hp]
    cases k <;> simp_all [Cont.goto, PC.uses, Cont.other, Ret.other, or_comm]
  refine ⟨fun c hv hn => ?_, fun dev' bn' hn hc => ?_, fun c hv hn => ?_, fun c hc => ?_, fun q c hc => ?_,
    fun q boot tail lbuf dbuf hq hn => ?_⟩
  · rw [(hlabel c).1, (hlabel c).2] at hn ⊢
    by_cases hcb : c = b
    · subst hcb
      cases hvs : (s.bufs c).valid
      · simpa [next, hvs] using hread hvs hn
      · simpa [next, hvs] using h.data c hvs hn
    · rw [hother c hcb] at hv ⊢
      exact h.data c hv hn
  · refine h.disk dev' bn' hn fun c hv hlab => ?_
    refine hc c ?_ ⟨(hlabel c).1.trans hlab.1, (hlabel c).2.trans hlab.2⟩
    by_cases hcb : c = b
    · subst hcb; simp [next]
    · rw [hother c hcb]; exact hv
  · rw [(hlabel c).1, (hlabel c).2] at hn ⊢
    by_cases hcb : c = b
    · subst hcb
      cases hvs : (s.bufs c).valid
      · exact .inl (by simp [next, hvs])
      · simpa [next, hvs] using (h.clean c hvs hn).imp_right (Or.imp_right (hpin c))
    · rw [hother c hcb] at hv ⊢
      exact (h.clean c hv hn).imp_right (Or.imp_right (hpin c))
  · rw [hlock]
    exact h.dirty c hc
  · by_cases hqp : q = p
    · subst hqp; exact huses c (by simpa [next] using hc)
    · exact h.uses q c (by simpa [next, hqp] using hc)
  · by_cases hqp : q = p
    · subst hqp
      have hq : (k.goto s.lh b : PC np) = .bunpin boot tail lbuf dbuf := by simpa [next] using hq
      cases k <;> simp [Cont.goto] at hq
    · rw [show (next g s (.fill p dev bn b k)).pc q = s.pc q by simp [next, hqp]] at hq
      have hdb : dbuf ≠ b := by
        rintro rfl
        have h1 := (hr.frame q).lock_of_uses (b := dbuf) (by simp [hq, PC.uses])
        have h2 := (hr.frame p).lock_of_uses (b := dbuf) (by simp [hp, PC.uses])
        rw [h1, Option.some.injEq] at h2
        exact hqp h2
      rw [hother dbuf hdb] at hn ⊢
      exact h.synced q boot tail lbuf dbuf hq hn

/-! ### Runs -/

theorem cacheInv_step (hi : GroupInv (view s))
    (hg : guard g s a) (hok : cleanRelease s a) : CacheInv (next g s a) := by
  cases a
  case modify => exact h.modify hr hg
  case bwrite => exact h.bwrite hr hg
  case bgetHit => exact h.bgetHit hr hg
  case bgetRecycle => exact h.bgetRecycle hr hg
  case acquire => exact h.acquire hr hg
  case fill => exact h.fill hr hg
  case release => exact h.release hr hg
  case putref => exact h.putref hr hg
  case logWriteLocked => exact h.logWriteLocked hr hi hg
  case logCopy => exact h.logCopy hr hg
  case headCopy => exact h.headCopy hr hg
  case installCopy => exact h.installCopy hr hg
  case bunpin => exact h.bunpin hr hi hg
  case installDone => exact h.installDone hr hg
  case readHeadCopy => exact h.readHeadCopy hr hi hg
  case wakeup => exact h.wakeup
  case brelse p b =>
    -- the discipline of the clients enters here
    refine h.walk rfl rfl rfl rfl rfl rfl rfl rfl (fun c hc => ?_) (by simp)
    simp only [PC.uses, Ret.other, Option.toList_none, List.mem_singleton] at hc
    exact hc ▸ hok
  case bread p _ _ | logWrite p _ | writeLogNext p _ | writeLogDone p _ | installNext p _ _ =>
    exact h.walk rfl rfl rfl rfl rfl rfl rfl rfl (by simp [PC.uses, Cont.other]) (by simp)
  case logWriteTooBig | logWriteOutside | bgetPanic | endPanic =>
    exact ⟨h.data, h.disk, h.clean, h.dirty, h.uses, h.synced⟩
  case beginOp p | endOp p | beginAcquire p | beginEnter p | beginWait p | endAcquire p | endLast p |
      endMore p | commitSome p | commitNone p | endAcquire2 p | kill p | sleepLock p | sleepState p |
      resume p | wakeupDone p | endRelease p | endReset p | bootDone p =>
    exact h.plain rfl rfl rfl rfl rfl rfl rfl rfl rfl

end Installing

theorem cacheInv_init [NeZero np] (d : Nat → Disk) : CacheInv (init d : State np) := by
  have huses : ∀ p, ((init d : State np).pc p).uses = [] ∧
      ∀ boot tail lbuf dbuf, (init d : State np).pc p ≠ .bunpin boot tail lbuf dbuf := by
    intro p
    by_cases hp : p = 0
    · subst hp; simp [init, PC.uses, Cont.other]
    · simp [init, hp, PC.uses]
  exact ⟨by simp [init], fun _ _ _ _ => rfl, by simp [init], by simp [init],
    fun p b hb => by simp [(huses p).1] at hb,
    fun p boot tail lbuf dbuf hp => absurd hp ((huses p).2 boot tail lbuf dbuf)⟩

end Xv6.Bio
