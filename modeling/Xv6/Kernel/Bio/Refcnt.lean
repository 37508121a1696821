import Xv6.Kernel.Bio.Frames

/-! Reference counts of the buffer cache.

    ```
    refcnt  =  breads not yet matched by brelse  +  1 if the block is pinned
    ```

    Exact counts, stable labels and intact frames hold each other up: `bget` recycles a buffer when
    its count is zero, and only an exact count makes sure that nobody is using it then. -/

namespace Xv6.Bio
open Log (Geometry blockAt getHead putHead)
open Update Function
open Xv6.Count

variable {np : Nat} {g : Geometry} {s t : State np} {p : Fin np}

/-- The invariant of a machine whose boot finds the log empty. -/
structure RefInv (g : Geometry) (s : State np) : Prop where
  exact : ∀ b, (s.bufs b).refcnt.toNat = holders s b + if pinned s b then 1 else 0
  lru : ∀ b, b ∈ s.lru
  /-- Every buffer caches the block it is labelled with, or is one of those never used. -/
  canon : ∀ b, caches s b ∨ (s.bufs b).dev = 0 ∧ (s.bufs b).blockno = 0 ∧ (s.bufs b).refcnt = 0
  frame : ∀ p, (s.pc p).Frame g s p
  filled : ∀ b p, (s.bufs b).lock = some p →
    (s.bufs b).valid = true ∨ ∃ dev bn k, s.pc p = .fill dev bn b k
  unpins : ∀ p n, (s.pc p).unpins = some n → s.unpinned = n
  unpinned : (∀ p, (s.pc p).unpins = none) → s.unpinned = 0
  cached : ∀ bn ∈ s.lh.drop s.unpinned, ∃ b, caches s b ∧ Labelled s b ROOTDEV bn
  boot : s.booted = false → s.lh = [] ∧ getHead (s.disk ROOTDEV g.start) = [] ∧
    ∀ b, (s.bufs b).valid = true → Labelled s b ROOTDEV g.start → getHead (s.bufs b).data = []

theorem holders_le (s : State np) (b : BufId) : holders s b ≤ np + 1 := by
  have := count_le s.pc fun x => decide (x.refs = some b)
  rw [Fintype.card_fin] at this
  rw [holders]
  split <;> omega

variable {b : BufId}

/-- Nobody uses a buffer whose count is zero. -/
theorem RefInv.unused (h : RefInv g s) (hb : (s.bufs b).refcnt = 0) :
    (s.bufs b).lock = none ∧ (∀ p, (s.pc p).refs ≠ some b) ∧ ¬ pinned s b := by
  have hz := h.exact b
  rw [hb, UInt32.toNat_zero] at hz
  have hh : holders s b = 0 := by omega
  have hcount : count s.pc (fun x => decide (x.refs = some b)) = 0 := by rw [holders] at hh; omega
  refine ⟨?_, fun p hp => ?_, fun hp => ?_⟩
  · by_contra hl
    rw [holders, if_neg hl] at hh
    omega
  · have := count_eq_zero hcount p
    simp [hp] at this
  · rw [if_pos hp] at hz
    omega

theorem RefInv.refcnt_pos (h : RefInv g s) (hb : 0 < holders s b) :
    0 < (s.bufs b).refcnt.toNat := by
  rw [h.exact b]
  omega

theorem holders_pos_of_lock (hb : (s.bufs b).lock ≠ none) : 0 < holders s b := by
  rw [holders, if_neg hb]
  omega

theorem holders_pos_of_refs (hp : (s.pc p).refs = some b) : 0 < holders s b := by
  have : 0 < count s.pc (fun x => decide (x.refs = some b)) := count_pos (i := p) (by simpa using hp)
  rw [holders]
  omega

/-- A buffer in use caches its block. -/
theorem RefInv.caches_of_pos (h : RefInv g s) (hb : 0 < holders s b) : caches s b := by
  refine (h.canon b).resolve_right fun hz => ?_
  have := h.refcnt_pos hb
  rw [hz.2.2] at this
  simp at this

theorem RefInv.caches_of_lock (h : RefInv g s) (hb : (s.bufs b).lock = some p) :
    caches s b :=
  h.caches_of_pos (holders_pos_of_lock (by rw [hb]; simp))

/-- At most one buffer caches a block. -/
theorem caches_inj {c : BufId} (hb : caches s b) (hc : caches s c)
    (hdev : (s.bufs b).dev = (s.bufs c).dev) (hbn : (s.bufs b).blockno = (s.bufs c).blockno) : b = c := by
  rw [caches, hdev, hbn, hc] at hb
  exact (Option.some.inj hb).symm

/-! ### Arithmetic of the 32-bit counts -/

variable {x : UInt32} in
theorem toNat_add_one (h : x.toNat + 1 < 2 ^ 32) : (x + 1).toNat = x.toNat + 1 := by
  rw [UInt32.toNat_add]
  exact Nat.mod_eq_of_lt h

variable {x : UInt32} in
theorem toNat_sub_one (h : 0 < x.toNat) : (x - 1).toNat = x.toNat - 1 := by
  rw [UInt32.toNat_sub_of_le]
  · rfl
  · rw [UInt32.le_iff_toNat_le]
    exact h

/-! ### One step of one process -/

variable {x y : PC np}

theorem RefInv.frame_at (h : RefInv g s) (hp : s.pc p = x) : x.Frame g s p := hp ▸ h.frame p

/-- What a step of `p` to the program counter `y` has to show; labels stay, and so do the locks of the
    other processes. -/
theorem RefInv.step (h : RefInv g s) (hpc : t.pc = update s.pc p y)
    (hexact : ∀ b, (t.bufs b).refcnt.toNat = holders t b + if pinned t b then 1 else 0)
    (hlru : ∀ b, b ∈ t.lru) (hlook : ∀ dev bn, lookup t dev bn = lookup s dev bn)
    (hlabel : ∀ b, (t.bufs b).dev = (s.bufs b).dev ∧ (t.bufs b).blockno = (s.bufs b).blockno)
    (hspare : ∀ b, ¬ caches s b → (t.bufs b).refcnt = (s.bufs b).refcnt)
    (hlock : ∀ b q, q ≠ p → ((t.bufs b).lock = some q ↔ (s.bufs b).lock = some q))
    (hlh : t.lh = s.lh ∨
      ∀ q, q ≠ p → (s.pc q).phase.commits = false ∧ (s.pc q).phase.boots = false)
    (hframe : y.Frame g t p)
    (hvalid : ∀ b, (s.bufs b).valid = true → (t.bufs b).valid = true)
    (hfilled : ∀ b, (t.bufs b).lock = some p →
      (t.bufs b).valid = true ∨ ∃ dev bn k, y = .fill dev bn b k)
    (hothers : t.unpinned = s.unpinned ∨ ∀ q, q ≠ p → (s.pc q).unpins = none)
    (hunpins : ∀ n, y.unpins = some n → t.unpinned = n)
    (hunpinned : y.unpins = none → (∀ q, q ≠ p → (s.pc q).unpins = none) → t.unpinned = 0)
    (hcached : ∀ bn ∈ t.lh.drop t.unpinned, bn ∈ s.lh.drop s.unpinned ∨
      ∃ b, caches s b ∧ Labelled s b ROOTDEV bn)
    (hboot : t.booted = false → t.lh = [] ∧ getHead (t.disk ROOTDEV g.start) = [] ∧
      ∀ b, (t.bufs b).valid = true → Labelled t b ROOTDEV g.start → getHead (t.bufs b).data = []) :
    RefInv g t where
  exact := hexact
  lru := hlru
  canon b := by
    rw [caches, hlook, (hlabel b).1, (hlabel b).2, ← caches]
    by_cases hc : caches s b
    · exact .inl hc
    · rw [hspare b hc]; exact h.canon b
  frame q := by
    by_cases hq : q = p
    · subst hq; simpa [hpc] using hframe
    · rw [hpc, update_of_ne hq]
      refine (h.frame q).keep ⟨fun b => (hlock b q hq).mpr, fun b _ => hlabel b, ?_⟩
      exact hlh.imp_right fun hlh => hlh q hq
  filled b q hl := by
    by_cases hq : q = p
    · subst hq; simpa [hpc] using hfilled b hl
    · rw [hpc, update_of_ne hq]
      exact (h.filled b q ((hlock b q hq).mp hl)).imp_left (hvalid b)
  unpins q n hn := by
    by_cases hq : q = p
    · subst hq; exact hunpins n (by simpa [hpc] using hn)
    · rw [hpc, update_of_ne hq] at hn
      rcases hothers with ho | ho
      · rw [ho]; exact h.unpins q n hn
      · rw [ho q hq] at hn; simp at hn
  unpinned hn := by
    refine hunpinned (by simpa [hpc] using hn p) fun q hq => ?_
    have := hn q
    rwa [hpc, update_of_ne hq] at this
  cached bn hbn := by
    obtain ⟨b, hc, hd, hn⟩ := (hcached bn hbn).elim (h.cached bn) id
    refine ⟨b, ?_, (hlabel b).1.trans hd, (hlabel b).2.trans hn⟩
    rw [caches, hlook, (hlabel b).1, (hlabel b).2]
    exact hc
  boot := hboot

/-- How a step of `p` to `y` changes the users of a buffer. -/
theorem holders_step (hpc : t.pc = update s.pc p y) :
    holders t b + (if (s.pc p).refs = some b then 1 else 0) + (if (s.bufs b).lock = none then 0 else 1) =
      holders s b + (if y.refs = some b then 1 else 0) + if (t.bufs b).lock = none then 0 else 1 := by
  have hcount := count_update s.pc (fun x => decide (x.refs = some b)) p y
  have hnat : ∀ x : PC np, (decide (x.refs = some b)).toNat = if x.refs = some b then 1 else 0 := by
    intro x; split <;> simp_all
  rw [hnat, hnat] at hcount
  rw [holders, holders, hpc]
  omega

theorem holders_congr (hlock : (t.bufs b).lock = (s.bufs b).lock)
    (hpc : t.pc = update s.pc p y) (hrefs : y.refs = (s.pc p).refs) :
    holders t b = holders s b := by
  have := holders_step (b := b) hpc
  rw [hrefs, hlock] at this
  omega

theorem caches_congr (hlabel : (t.bufs b).dev = (s.bufs b).dev ∧
    (t.bufs b).blockno = (s.bufs b).blockno)
    (hlook : ∀ dev bn, lookup t dev bn = lookup s dev bn) : caches t b ↔ caches s b := by
  rw [caches, caches, hlabel.1, hlabel.2, hlook]

theorem pinned_congr (hlabel : (t.bufs b).dev = (s.bufs b).dev ∧
    (t.bufs b).blockno = (s.bufs b).blockno) (hlook : ∀ dev bn, lookup t dev bn = lookup s dev bn)
    (hlh : t.lh = s.lh) (hun : t.unpinned = s.unpinned) : pinned t b ↔ pinned s b := by
  rw [pinned, pinned, caches_congr hlabel hlook, hlabel.1, hlabel.2, hlh, hun]

/-- Buffers agree in everything but their data. -/
def SameRefs (s t : State np) : Prop :=
  ∀ b, (t.bufs b).refcnt = (s.bufs b).refcnt ∧ (t.bufs b).lock = (s.bufs b).lock ∧
    (t.bufs b).dev = (s.bufs b).dev ∧ (t.bufs b).blockno = (s.bufs b).blockno ∧
    (t.bufs b).valid = (s.bufs b).valid

theorem SameRefs.refl (s : State np) : SameRefs s s := fun _ => ⟨rfl, rfl, rfl, rfl, rfl⟩

/-- A step that moves no reference and leaves the header alone. -/
theorem RefInv.move (h : RefInv g s) (hpc : t.pc = update s.pc p y)
    (hbufs : SameRefs s t) (hlru : t.lru = s.lru) (hlh : t.lh = s.lh)
    (hun : t.unpinned = s.unpinned) (hp : s.pc p = x) (hrefs : y.refs = x.refs)
    (hunp : y.unpins = x.unpins) (hframe : y.Frame g s p) (hfill : ∀ dev bn b k, x ≠ .fill dev bn b k)
    (hboot : t.booted = false → getHead (t.disk ROOTDEV g.start) = [] ∧ s.booted = false ∧
      ∀ b, (t.bufs b).valid = true → Labelled t b ROOTDEV g.start → getHead (t.bufs b).data = []) :
    RefInv g t := by
  have hlabel : ∀ b, (t.bufs b).dev = (s.bufs b).dev ∧ (t.bufs b).blockno = (s.bufs b).blockno :=
    fun b => ⟨(hbufs b).2.2.1, (hbufs b).2.2.2.1⟩
  have hlook := lookup_congr hlru hlabel
  subst hp
  refine h.step hpc (fun b => ?_) (by rw [hlru]; exact h.lru) hlook hlabel (fun b _ => (hbufs b).1)
    (fun b q _ => by rw [(hbufs b).2.1]) (.inl hlh) ?_ (fun b hv => by rw [(hbufs b).2.2.2.2]; exact hv)
    (fun b hl => ?_) (.inl hun) (fun n hn => ?_) (fun hn hq => ?_)
    (fun bn hbn => .inl (by rwa [hlh, hun] at hbn)) (fun hb => ?_)
  · rw [(hbufs b).1, h.exact b, holders_congr (hbufs b).2.1 hpc hrefs]
    simp only [pinned_congr (hlabel b) hlook hlh hun]
  · refine hframe.keep ⟨fun b hl => by rw [(hbufs b).2.1]; exact hl, fun b _ => hlabel b, .inl hlh⟩
  · rw [(hbufs b).2.1] at hl
    rw [(hbufs b).2.2.2.2]
    refine .inl ((h.filled b p hl).resolve_right ?_)
    rintro ⟨dev, bn, k, hp⟩
    exact hfill dev bn b k hp
  · rw [hun]; exact h.unpins p n (hunp ▸ hn)
  · rw [hun]
    refine h.unpinned fun q => ?_
    by_cases hqp : q = p
    · subst hqp; exact hunp ▸ hn
    · exact hq q hqp
  · obtain ⟨hd, hb', hv⟩ := hboot hb
    exact ⟨hlh.trans (h.boot hb').1, hd, hv⟩

/-- A step that changes no buffer, no disk and not the header. -/
theorem RefInv.walk (h : RefInv g s) (hpc : t.pc = update s.pc p y)
    (hbufs : t.bufs = s.bufs) (hdisk : t.disk = s.disk) (hlru : t.lru = s.lru) (hlh : t.lh = s.lh)
    (hun : t.unpinned = s.unpinned) (hb : t.booted = false → s.booted = false) (hp : s.pc p = x)
    (hrefs : y.refs = x.refs) (hunp : y.unpins = x.unpins) (hframe : y.Frame g s p)
    (hfill : ∀ dev bn b k, x ≠ .fill dev bn b k) : RefInv g t := by
  refine h.move hpc (fun b => by simp [hbufs]) hlru hlh hun hp hrefs hunp hframe hfill fun htb => ?_
  obtain ⟨-, hd, hv⟩ := h.boot (hb htb)
  refine ⟨by rw [hdisk]; exact hd, hb htb, fun b => ?_⟩
  rw [Labelled, hbufs]
  exact hv b

/-! ### Where `bread` and `brelse` return to -/

variable {k : Cont} {dev bn : Nat}

theorem Cont.Frame.goto (hk : k.Frame g s p dev bn)
    (hb : Held s p b dev bn) (hne : k.other ≠ some b) : (k.goto s.lh b : PC np).Frame g s p := by
  cases k with
  | client => trivial
  | readsb => exact ⟨hb.1, ⟨nofun, by simp⟩, nofun⟩
  | readHead => obtain ⟨rfl, rfl⟩ := hk; exact hb
  | logTo tail => obtain ⟨⟨rfl, rfl⟩, htail⟩ := hk; exact ⟨⟨rfl, rfl⟩, hb, htail⟩
  | logFrom tail dst =>
    obtain ⟨⟨rfl, rfl⟩, hd, htail⟩ := hk
    exact ⟨hd, hb, fun h => hne (by rw [Cont.other, h]), htail⟩
  | head h => obtain ⟨rfl, rfl⟩ := hk; exact hb
  | instLog boot tail => obtain ⟨⟨rfl, rfl⟩, hboot⟩ := hk; exact ⟨⟨rfl, rfl⟩, hb, hboot⟩
  | instHome boot tail lbuf =>
    obtain ⟨⟨rfl, rfl⟩, hl, hboot⟩ := hk
    exact ⟨hl, hb, fun h => hne (by rw [Cont.other, h]), hboot⟩

theorem Ret.Frame.goto {k : Ret} (hk : k.Frame s p) : (k.goto g : PC np).Frame g s p := by
  obtain ⟨hlock, hboot⟩ := hk
  cases k with
  | client => trivial
  | readsb => exact ⟨rfl, rfl⟩
  | readHead => exact fun _ => rfl
  | logFrom tail dst => exact ⟨hlock dst rfl, ⟨nofun, by simp⟩, nofun⟩
  | logTo tail => trivial
  | head h =>
    cases h with
    | record => exact nofun
    | erase | boot => trivial
  | instLog boot tail dbuf =>
    have hb : boot ≠ true := fun hb => (hboot tail).1 dbuf (by rw [hb])
    exact ⟨hlock dbuf rfl, ⟨nofun, by simp [hb]⟩, nofun⟩
  | instHome boot tail => exact fun hb => absurd (by rw [hb]) (hboot tail).2

theorem Cont.goto_refs (lh : List Nat) (b : BufId) (k : Cont) :
    (k.goto lh b : PC np).refs = none := by
  cases k <;> rfl

theorem Ret.goto_refs (g : Geometry) (k : Ret) : (k.goto g : PC np).refs = none := by
  rcases k with _ | _ | _ | _ | _ | (_ | _ | _) | _ | _ <;> rfl

/-! ### `bget` and `brelse` -/

variable {buf : Buf np}

/-- A step of `p` that changes the buffer `b` alone, and by as much as `p`'s use of it changes. -/
theorem RefInv.exact_update (h : RefInv g s)
    (hpc : t.pc = update s.pc p y) (hbufs : t.bufs = update s.bufs b buf)
    (hlook : ∀ dev bn, lookup t dev bn = lookup s dev bn)
    (hlh : t.lh = s.lh) (hun : t.unpinned = s.unpinned)
    (hlab : buf.dev = (s.bufs b).dev ∧ buf.blockno = (s.bufs b).blockno)
    (hx : ∀ c, c ≠ b → (s.pc p).refs ≠ some c) (hy : ∀ c, c ≠ b → y.refs ≠ some c)
    (hb : buf.refcnt.toNat + (if (s.pc p).refs = some b then 1 else 0) +
        (if (s.bufs b).lock = none then 0 else 1) =
      (s.bufs b).refcnt.toNat + (if y.refs = some b then 1 else 0) + if buf.lock = none then 0 else 1)
    (c : BufId) : (t.bufs c).refcnt.toNat = holders t c + if pinned t c then 1 else 0 := by
  have hst := holders_step (b := c) hpc
  have hex := h.exact c
  by_cases hc : c = b
  · subst hc
    have hpin : pinned t c ↔ pinned s c := pinned_congr (by simpa [hbufs] using hlab) hlook hlh hun
    simp only [hbufs, update_self] at hst ⊢
    simp only [hpin]
    omega
  · have hpin : pinned t c ↔ pinned s c := pinned_congr (by simp [hbufs, hc]) hlook hlh hun
    simp only [hbufs, update_of_ne hc, hx c hc, hy c hc, if_false] at hst ⊢
    simp only [hpin]
    omega

/-- The booting invariant survives a step that leaves data and labels of valid buffers alone. -/
theorem RefInv.boot_keep (h : RefInv g s) (hb : t.booted = s.booted) (hdisk : t.disk = s.disk)
    (hlh : t.lh = s.lh) (hbufs : ∀ b, (t.bufs b).valid = true → (s.bufs b).valid = true ∧
      (t.bufs b).data = (s.bufs b).data ∧ (t.bufs b).dev = (s.bufs b).dev ∧
      (t.bufs b).blockno = (s.bufs b).blockno) (htb : t.booted = false) :
    t.lh = [] ∧ getHead (t.disk ROOTDEV g.start) = [] ∧
      ∀ b, (t.bufs b).valid = true → Labelled t b ROOTDEV g.start → getHead (t.bufs b).data = [] := by
  obtain ⟨h1, h2, h3⟩ := h.boot (hb ▸ htb)
  refine ⟨by rw [hlh]; exact h1, by rw [hdisk]; exact h2, fun b hv hl => ?_⟩
  obtain ⟨hv', hd, hdev, hbn⟩ := hbufs b hv
  rw [hd]
  exact h3 b hv' ⟨hdev ▸ hl.1, hbn ▸ hl.2⟩

/-- There are too few processes for a count to overflow. -/
theorem RefInv.no_overflow (h : RefInv g s) (hnp : np + 3 < 2 ^ 32) (b : BufId) :
    (s.bufs b).refcnt.toNat + 1 < 2 ^ 32 := by
  have hle := holders_le s b
  have hex := h.exact b
  split at hex <;> omega

/-- A step of `p` on the buffer `b` that moves references or takes or gives back the lock. -/
theorem RefInv.onBuf (h : RefInv g s)
    (hpc : t.pc = update s.pc p y) (hbufs : t.bufs = update s.bufs b buf)
    (hlab : buf.dev = (s.bufs b).dev ∧ buf.blockno = (s.bufs b).blockno)
    (hdata : buf.valid = (s.bufs b).valid ∧ buf.data = (s.bufs b).data)
    (hx : ∀ c, c ≠ b → (s.pc p).refs ≠ some c) (hy : ∀ c, c ≠ b → y.refs ≠ some c)
    (hb : buf.refcnt.toNat + (if (s.pc p).refs = some b then 1 else 0) +
        (if (s.bufs b).lock = none then 0 else 1) =
      (s.bufs b).refcnt.toNat + (if y.refs = some b then 1 else 0) + if buf.lock = none then 0 else 1)
    (hlock : ∀ q, q ≠ p → (buf.lock = some q ↔ (s.bufs b).lock = some q)) (hcb : caches s b)
    (hlru : ∀ c, c ∈ t.lru) (hlook : ∀ dev bn, lookup t dev bn = lookup s dev bn) (hlh : t.lh = s.lh) (hun : t.unpinned = s.unpinned)
    (hbooted : t.booted = s.booted) (hdisk : t.disk = s.disk) (hframe : y.Frame g t p)
    (hfill : ∀ dev bn c k, s.pc p ≠ .fill dev bn c k)
    (hfilled : buf.lock = some p → (s.bufs b).valid = true ∨ ∃ dev bn k, y = .fill dev bn b k)
    (hunp : y.unpins = (s.pc p).unpins ∨ y.unpins = some s.unpinned) : RefInv g t := by
  have hdev : ∀ c, (t.bufs c).dev = (s.bufs c).dev ∧ (t.bufs c).blockno = (s.bufs c).blockno := by
    intro c
    rw [hbufs]
    exact ⟨proj_update Buf.dev hlab.1 c, proj_update Buf.blockno hlab.2 c⟩
  have hval : ∀ c, (t.bufs c).valid = (s.bufs c).valid ∧ (t.bufs c).data = (s.bufs c).data := by
    intro c
    rw [hbufs]
    exact ⟨proj_update Buf.valid hdata.1 c, proj_update Buf.data hdata.2 c⟩
  refine h.step hpc (h.exact_update hpc hbufs hlook hlh hun hlab hx hy hb) hlru hlook hdev
    (fun c hc => by rw [hbufs, update_of_ne (by rintro rfl; exact hc hcb)]) (fun c q hq => ?_)
    (.inl hlh) hframe (fun c hv => by rw [(hval c).1]; exact hv) (fun c hl => ?_) (.inl hun)
    (fun n hn => ?_) (fun hn hq => ?_) (fun bn hbn => .inl (by rwa [hlh, hun] at hbn))
    (h.boot_keep hbooted hdisk hlh fun c hv =>
      ⟨(hval c).1 ▸ hv, (hval c).2, (hdev c).1, (hdev c).2⟩)
  · by_cases hc : c = b
    · subst hc; rw [hbufs, update_self]; exact hlock q hq
    · rw [hbufs, update_of_ne hc]
  · rw [(hval c).1]
    by_cases hc : c = b
    · subst hc; exact hfilled (by simpa [hbufs] using hl)
    · refine .inl ((h.filled c p (by simpa [hbufs, hc] using hl)).resolve_right ?_)
      rintro ⟨dev, bn, k, hk⟩
      exact hfill dev bn c k hk
  · rw [hun]
    rcases hunp with hunp | hunp
    · exact h.unpins p n (hunp ▸ hn)
    · exact Option.some.inj (hunp.symm.trans hn)
  · rw [hun]
    refine h.unpinned fun q => ?_
    by_cases hqp : q = p
    · subst hqp
      rcases hunp with hunp | hunp
      · exact hunp ▸ hn
      · rw [hunp] at hn; simp at hn
    · exact hq q hqp

/-- Frames of `p` survive a change of a buffer that keeps its label, and its lock if `p` has it. -/
theorem keeps_update (hbufs : t.bufs = update s.bufs b buf)
    (hlab : buf.dev = (s.bufs b).dev ∧ buf.blockno = (s.bufs b).blockno)
    (hlock : (s.bufs b).lock = some p → buf.lock = some p) (hlh : t.lh = s.lh) (x : PC np) :
    Keeps s t p x := by
  refine ⟨fun c hl => ?_, fun c _ => ?_, .inl hlh⟩
  · by_cases hc : c = b
    · subst hc; rw [hbufs, update_self]; exact hlock hl
    · rw [hbufs, update_of_ne hc]; exact hl
  · rw [hbufs]
    exact ⟨proj_update Buf.dev hlab.1 c, proj_update Buf.blockno hlab.2 c⟩

/-- Moving a buffer that caches its block to the front of the list changes no look-up. -/
theorem lookup_front (hb : caches s b) (hlru : t.lru = b :: s.lru.erase b)
    (hlabel : ∀ c, (t.bufs c).dev = (s.bufs c).dev ∧ (t.bufs c).blockno = (s.bufs c).blockno)
    (dev bn : Nat) : lookup t dev bn = lookup s dev bn := by
  simp only [lookup, hlru, hlabel, List.find?_cons]
  split
  · rename_i hm
    simp only [Bool.and_eq_true, beq_iff_eq] at hm
    rw [← hm.1, ← hm.2]
    exact hb.symm
  · rename_i hm
    generalize s.lru = l
    induction l with
    | nil => rfl
    | cons c l ih =>
      by_cases hc : c = b
      · subst hc; rw [List.erase_cons_head, List.find?_cons_of_neg (by simpa using hm)]
      · rw [List.erase_cons_tail (by simpa using hc), List.find?_cons, List.find?_cons, ih]

variable {a : Act np}

/-- Only relabelling a buffer changes what `bget` finds. -/
theorem RefInv.lookup_next (h : RefInv g s) (hg : guard g s a) (ha : a.relabels = false)
    (dev bn : Nat) : lookup (next g s a) dev bn = lookup s dev bn := by
  cases a
  case bgetRecycle => simp [Act.relabels] at ha
  case putref p b k =>
    have hp : s.pc p = .putref b k := hg
    by_cases hz : (s.bufs b).refcnt - 1 = 0
    · exact lookup_front (h.caches_of_pos (holders_pos_of_refs (by rw [hp]; rfl)))
        (by simp [next, hz]) (label_next rfl) dev bn
    · exact lookup_congr (by simp [next, hz]) (label_next rfl) dev bn
  all_goals
    refine lookup_congr ?_ (label_next rfl) dev bn
    rfl

/-- A process outside `fill` holds valid buffers only. -/
theorem RefInv.valid_of_lock (h : RefInv g s) (hl : (s.bufs b).lock = some p)
    (hp : ∀ dev bn k, s.pc p ≠ .fill dev bn b k) : (s.bufs b).valid = true := by
  refine (h.filled b p hl).resolve_right ?_
  rintro ⟨dev, bn, k, hk⟩
  exact hp dev bn k hk

theorem RefInv.bgetHit (h : RefInv g s) (hnp : np + 3 < 2 ^ 32)
    (hg : guard g s (.bgetHit p dev bn k b)) : RefInv g (next g s (.bgetHit p dev bn k b)) := by
  have hnext := h.lookup_next hg rfl
  obtain ⟨hp, hlook⟩ := hg
  have hlab : (s.bufs b).dev = dev ∧ (s.bufs b).blockno = bn := by
    simpa using List.find?_some hlook
  have hf := h.frame_at hp
  have hkeep : Keeps s (next g s (.bgetHit p dev bn k b)) p (.bget dev bn k) :=
    keeps_update (t := next g s (.bgetHit p dev bn k b)) (b := b) rfl ⟨rfl, rfl⟩ id rfl _
  refine h.onBuf rfl rfl ⟨rfl, rfl⟩ ⟨rfl, rfl⟩
    (by simp [hp, PC.refs]) (by simp [PC.refs, eq_comm]) ?_ (fun _ _ => Iff.rfl)
    (by rw [caches, hlab.1, hlab.2]; exact hlook) h.lru hnext
    rfl rfl rfl rfl ⟨Cont.Frame.keep hkeep rfl hf, by simpa [Labelled, next] using hlab⟩ (by simp [hp])
    (fun hl => .inl (h.valid_of_lock hl (by simp [hp]))) (.inl (by rw [hp]; rfl))
  simp only [toNat_add_one (h.no_overflow hnp b), hp, PC.refs, reduceCtorEq, if_false, if_true]

theorem Cont.Frame.lock_other (hk : k.Frame g s p dev bn)
    (hb : k.other = some b) : (s.bufs b).lock = some p := by
  cases k with
  | logFrom tail dst | instHome boot tail lbuf => cases hb; exact hk.2.1.1
  | _ => simp [Cont.other] at hb

theorem RefInv.acquire (h : RefInv g s)
    (hg : guard g s (.acquire p dev bn b k)) : RefInv g (next g s (.acquire p dev bn b k)) := by
  have hnext := h.lookup_next hg rfl
  obtain ⟨hp, hl⟩ := hg
  have hf := h.frame_at hp
  obtain ⟨hk, hlab⟩ := hf
  have hkeep : Keeps s (next g s (.acquire p dev bn b k)) p (.acquire dev bn b k) :=
    keeps_update (t := next g s (.acquire p dev bn b k)) (b := b) rfl ⟨rfl, rfl⟩ (fun _ => rfl) rfl _
  have hne : k.other ≠ some b := by
    intro ho
    have := hk.lock_other ho
    simp [hl] at this
  exact h.onBuf rfl rfl ⟨rfl, rfl⟩ ⟨rfl, rfl⟩
    (by simp [hp, PC.refs, eq_comm]) (by simp [PC.refs]) (by simp [hl, hp, PC.refs])
    (fun q hq => by simp [hl, hq.symm])
    (h.caches_of_pos (holders_pos_of_refs (by rw [hp]; rfl))) h.lru hnext
    rfl rfl rfl rfl ⟨Cont.Frame.keep hkeep rfl hk, ⟨by simp [next], by simpa [Labelled, next] using hlab⟩, hne⟩
    (by simp [hp]) (fun _ => .inr ⟨dev, bn, k, rfl⟩) (.inl (by rw [hp]; rfl))

theorem RefInv.release (h : RefInv g s) {k : Ret} (hg : guard g s (.release p b k)) :
    RefInv g (next g s (.release p b k)) := by
  have hp : s.pc p = .release b k := hg
  have hf := h.frame_at hp
  obtain ⟨hl, ⟨hk, hboot⟩, hne⟩ := hf
  refine h.onBuf rfl rfl ⟨rfl, rfl⟩ ⟨rfl, rfl⟩
    (by simp [hp, PC.refs]) (by simp [PC.refs, eq_comm]) (by simp [hl, hp, PC.refs])
    (fun q hq => by simp [hl, hq.symm]) (h.caches_of_lock hl) h.lru (h.lookup_next hg rfl)
    rfl rfl rfl rfl ⟨fun c hc => ?_, hboot⟩ (by simp [hp]) nofun (.inl (by rw [hp]; rfl))
  have hcb : c ≠ b := fun hcb => hne (hcb ▸ hc)
  simpa [next, hcb] using hk c hc

variable {q : Fin np}

/-- Nobody else commits or boots while `p` does. -/
theorem GroupInv.others_quiet (hi : GroupInv (view s))
    (hp : (s.pc p).phase.commits = true ∨ (s.pc p).phase.boots = true) (hq : q ≠ p) :
    (s.pc q).phase.commits = false ∧ (s.pc q).phase.boots = false := by
  have hnot : ∀ {p q : Fin np}, (s.pc p).phase.commits = true → (s.pc q).phase.boots ≠ true := by
    intro p q hp hq
    have := (hi.booting hq).committing
    rw [hi.committing.mpr ⟨p, hp⟩] at this
    simp at this
  rw [← Bool.not_eq_true, ← Bool.not_eq_true]
  rcases hp with hpc | hpb
  · exact ⟨fun hqc => hq (hi.unique q p hqc hpc), hnot hpc⟩
  · exact ⟨fun hqc => hnot hqc hpb, fun hqb => hq (hi.bootOne q p hqb hpb)⟩

theorem unpins_of_quiet {x : PC np} (hx : x.phase.commits = false ∧ x.phase.boots = false) :
    x.unpins = none := by
  by_contra hn
  obtain ⟨n, hn⟩ := Option.ne_none_iff_exists'.mp hn
  rcases PC.phase_of_unpins hn with hc | hb
  · simp [hx.1] at hc
  · simp [hx.2] at hb

theorem RefInv.unpinned_zero (h : RefInv g s) (hi : GroupInv (view s))
    (hp : (s.pc p).phase.commits = true ∨ (s.pc p).phase.boots = true)
    (hn : (s.pc p).unpins = none) : s.unpinned = 0 := by
  refine h.unpinned fun q => ?_
  by_cases hq : q = p
  · exact hq ▸ hn
  · exact unpins_of_quiet (hi.others_quiet hp hq)

theorem RefInv.putref (h : RefInv g s) (hi : GroupInv (view s)) {k : Ret}
    (hg : guard g s (.putref p b k)) : RefInv g (next g s (.putref p b k)) := by
  have hp : s.pc p = .putref b k := hg
  have hf := h.frame_at hp
  have hpos := h.refcnt_pos (holders_pos_of_refs (by rw [hp]; rfl))
  have hkeep : Keeps s (next g s (.putref p b k)) p (k.goto g) :=
    keeps_update (t := next g s (.putref p b k)) (b := b) rfl ⟨rfl, rfl⟩ id rfl _
  have hcb : caches s b := h.caches_of_pos (holders_pos_of_refs (by rw [hp]; rfl))
  refine h.onBuf rfl rfl ⟨rfl, rfl⟩ ⟨rfl, rfl⟩
    (by simp [hp, PC.refs, eq_comm]) (by simp [Ret.goto_refs]) ?_ (fun _ _ => Iff.rfl) hcb (fun c => ?_)
    (h.lookup_next hg rfl) rfl rfl rfl rfl (PC.Frame.keep hkeep (Ret.Frame.goto hf)) (by simp [hp])
    (fun hl => .inl (h.valid_of_lock hl (by simp [hp]))) ?_
  · rw [Ret.goto_refs, hp, toNat_sub_one hpos, PC.refs, if_pos rfl, if_neg (show ¬ none = some b from nofun)]
    dsimp only
    omega
  · have hc := h.lru c
    simp only [next]
    split
    · by_cases hcb : c = b
      · exact hcb ▸ List.mem_cons_self
      · exact List.mem_cons_of_mem _ ((List.mem_erase_of_ne hcb).mpr hc)
    · exact hc
  · -- the install loop is entered from the header write and from `read_head`
    have hzero : ∀ k', k = k' → (k'.phase : Phase np).commits = true ∨ (k'.phase : Phase np).boots = true →
        k'.unpins = none → s.unpinned = 0 := by
      rintro _ rfl hph hn
      exact h.unpinned_zero hi (by rw [hp]; exact hph) (by rw [hp]; exact hn)
    rw [hp]
    cases k with
    | readHead => exact .inr (by rw [hzero _ rfl (.inr rfl) rfl]; rfl)
    | head hd =>
      cases hd with
      | record => exact .inr (by rw [hzero _ rfl (.inl rfl) rfl]; rfl)
      | erase | boot => exact .inl rfl
    | _ => exact .inl rfl

theorem find?_of_forall_ne {α : Type} {f f' : α → Bool} {b c : α} (hne : ∀ x, x ≠ b → f' x = f x)
    (hb : f' b = false) (hc : c ≠ b) : ∀ {l : List α}, l.find? f = some c → l.find? f' = some c
  | [], h => by simp at h
  | x :: l, h => by
    by_cases hx : x = b
    · subst hx
      rw [List.find?_cons_of_neg (by simp [hb])]
      refine find?_of_forall_ne hne hb hc ?_
      cases hf : f x
      · rwa [List.find?_cons_of_neg (by simp [hf])] at h
      · rw [List.find?_cons_of_pos hf, Option.some.injEq] at h
        exact absurd h.symm hc
    · rw [List.find?_cons, hne x hx]
      rw [List.find?_cons] at h
      split
      · rename_i hf; simpa [hf] using h
      · rename_i hf; exact find?_of_forall_ne hne hb hc (by simpa [hf] using h)

/-- After `bget` has relabelled a buffer, it caches the new block and the others what they did. -/
theorem caches_relabel (hlru : ∀ c, c ∈ s.lru)
    (ht : t.lru = s.lru) (hbufs : t.bufs = update s.bufs b buf)
    (hlab : buf.dev = dev ∧ buf.blockno = bn)
    (hnew : ∀ c, ¬ ((s.bufs c).dev = dev ∧ (s.bufs c).blockno = bn)) :
    caches t b ∧ ∀ c, c ≠ b → caches s c → caches t c := by
  have hself : t.bufs b = buf := by rw [hbufs, update_self]
  have hother : ∀ c, c ≠ b → t.bufs c = s.bufs c := fun c hc => by rw [hbufs, update_of_ne hc]
  refine ⟨?_, fun c hc hcs => ?_⟩
  · rw [caches, hself, hlab.1, hlab.2]
    cases hf : lookup t dev bn with
    | none =>
      have := List.find?_eq_none.mp hf b (ht ▸ hlru b)
      simp [hself, hlab.1, hlab.2] at this
    | some c =>
      have hm : (t.bufs c).dev = dev ∧ (t.bufs c).blockno = bn := by simpa using List.find?_some hf
      by_cases hc : c = b
      · rw [hc]
      · rw [hother c hc] at hm
        exact absurd hm (hnew c)
  · rw [caches, hother c hc, lookup, ht]
    refine find?_of_forall_ne (fun x hx => by rw [hother x hx]) ?_ hc hcs
    have hne := hnew c
    rw [hself, hlab.1, hlab.2]
    by_contra hm
    simp only [Bool.not_eq_false, Bool.and_eq_true, beq_iff_eq] at hm
    exact hne ⟨hm.1.symm, hm.2.symm⟩

/-- `bget` recycles a buffer that nobody uses; no other buffer has the label it gets. -/
theorem RefInv.bgetRecycle (h : RefInv g s)
    (hg : guard g s (.bgetRecycle p dev bn k b)) : RefInv g (next g s (.bgetRecycle p dev bn k b)) := by
  obtain ⟨hp, hmiss, hvic⟩ := hg
  have hz : (s.bufs b).refcnt = 0 := by simpa using List.find?_some hvic
  obtain ⟨hl, hrefs, hpin⟩ := h.unused hz
  have hnew : ∀ c, ¬ ((s.bufs c).dev = dev ∧ (s.bufs c).blockno = bn) := by
    intro c hc
    have := List.find?_eq_none.mp hmiss c (h.lru c)
    simp [hc.1, hc.2] at this
  obtain ⟨hcb, hcs⟩ := caches_relabel (t := next g s (.bgetRecycle p dev bn k b)) (b := b) h.lru rfl rfl
    ⟨rfl, rfl⟩ hnew
  have hf := h.frame_at hp
  -- nobody's frame mentions the buffer
  have hkeep : ∀ q x, (∀ c, x.refs = some c → c ≠ b) →
      Keeps s (next g s (.bgetRecycle p dev bn k b)) q x := by
    intro q x hx
    have hne : ∀ c, (s.bufs c).lock = some q ∨ x.refs = some c → c ≠ b := by
      rintro c (hc | hc) rfl
      · simp [hl] at hc
      · exact hx c hc rfl
    exact ⟨fun c hc => by simpa [next, hne c (.inl hc)] using hc,
      fun c hc => by simp [next, hne c hc], .inl rfl⟩
  -- recorded blocks stay where they are cached
  have hcached : ∀ m ∈ s.lh.drop s.unpinned, ∃ c, c ≠ b ∧ caches s c ∧ Labelled s c ROOTDEV m := by
    intro m hm
    obtain ⟨c, hc, hlab⟩ := h.cached m hm
    refine ⟨c, ?_, hc, hlab⟩
    rintro rfl
    exact hpin ⟨hc, hlab.1, by rw [hlab.2]; exact hm⟩
  refine ⟨fun c => ?_, h.lru, fun c => ?_, fun q => ?_, fun c q hlc => ?_, fun q n hn => ?_,
    fun hn => ?_, fun m hm => ?_, fun hb => ?_⟩
  · have hst := holders_step (t := next g s (.bgetRecycle p dev bn k b)) (p := p) (b := c)
      (y := .acquire dev bn b k) rfl
    have hex := h.exact c
    by_cases hc : c = b
    · subst hc
      have hnp : ¬ pinned (next g s (.bgetRecycle p dev bn k c)) c := by
        rintro ⟨-, hd, hm⟩
        obtain ⟨e, -, -, he⟩ := hcached bn (by simpa [next] using hm)
        exact hnew e ⟨he.1.trans (by simpa [next] using hd.symm), he.2⟩
      rw [if_neg hnp]
      rw [if_neg hpin, hz] at hex
      simp [hp, PC.refs, next, hl] at hst hex ⊢
      omega
    · have hpc : pinned (next g s (.bgetRecycle p dev bn k b)) c ↔ pinned s c := by
        simp only [pinned, next, update_of_ne hc]
        constructor
        · rintro ⟨hct, hd, hm⟩
          refine ⟨?_, hd, hm⟩
          obtain ⟨e, heb, hec, he⟩ := hcached _ hm
          have := caches_inj (hcs e heb hec) hct (by simp [next, heb, hc, he.1, hd])
            (by simp [next, heb, hc, he.2])
          exact this ▸ hec
        · rintro ⟨hcc, hd, hm⟩
          exact ⟨hcs c hc hcc, hd, hm⟩
      simp only [hpc]
      simp [hp, PC.refs, next, hc, Ne.symm hc] at hst ⊢
      omega
  · by_cases hc : c = b
    · exact .inl (hc ▸ hcb)
    · refine (h.canon c).imp (hcs c hc) fun hz => ?_
      simpa [next, hc] using hz
  · by_cases hq : q = p
    · subst hq
      simp only [next, update_self]
      exact ⟨Cont.Frame.keep (hkeep q (.bget dev bn k) (by rintro _ ⟨⟩)) rfl hf, by simp [Labelled]⟩
    · simp only [next, update_of_ne hq]
      exact (h.frame q).keep (hkeep q (s.pc q) fun c hc hcb => hrefs q (hcb ▸ hc))
  · have hc : c ≠ b := by rintro rfl; simp [next, hl] at hlc
    have hq := h.filled c q (by simpa [next, hc] using hlc)
    by_cases hqp : q = p
    · subst hqp; simpa [next, hc, hp] using hq
    · simpa [next, hc, hqp] using hq
  · by_cases hqp : q = p
    · subst hqp; exact h.unpins q n (by rw [hp]; simpa [next, PC.unpins] using hn)
    · exact h.unpins q n (by simpa [next, hqp] using hn)
  · refine h.unpinned fun q => ?_
    have hq := hn q
    by_cases hqp : q = p
    · subst hqp; rw [hp]; simpa [next, PC.unpins] using hq
    · simpa [next, hqp] using hq
  · obtain ⟨c, hcb, hc, hlab⟩ := hcached m hm
    exact ⟨c, hcs c hcb hc, by simpa [Labelled, next, hcb] using hlab⟩
  · refine h.boot_keep rfl rfl rfl (fun c hv => ?_) hb
    have hcb : c ≠ b := by rintro rfl; simp [next] at hv
    simpa [next, hcb] using hv

/-- `bread` reads the block if the buffer does not have it. -/
theorem RefInv.fill (h : RefInv g s)
    (hg : guard g s (.fill p dev bn b k)) : RefInv g (next g s (.fill p dev bn b k)) := by
  have hp : s.pc p = .fill dev bn b k := hg
  have hf := h.frame_at hp
  obtain ⟨hk, hh, hne⟩ := hf
  have hkeep : Keeps s (next g s (.fill p dev bn b k)) p (k.goto s.lh b) :=
    keeps_update (t := next g s (.fill p dev bn b k)) (b := b) rfl ⟨rfl, rfl⟩ id rfl _
  refine h.step rfl
    (h.exact_update rfl rfl (h.lookup_next hg rfl) rfl rfl ⟨rfl, rfl⟩ (by simp [hp, PC.refs])
      (by simp [Cont.goto_refs]) (by rw [Cont.goto_refs, hp]; rfl)) h.lru (h.lookup_next hg rfl)
    (label_next rfl) (fun c hc => ?_) (fun c q _ => by rw [lock_next rfl]) (.inl rfl)
    (PC.Frame.keep hkeep (hk.goto hh hne)) (fun c hv => ?_) (fun c hl => .inl ?_) (.inl rfl)
    (fun n hn => ?_) (fun hn hq => ?_) (fun _ => .inl) (fun hb => ?_)
  · by_cases hcb : c = b
    · subst hcb; simp [next]
    · simp [next, hcb]
  · by_cases hc : c = b
    · subst hc; simp [next]
    · simpa [next, hc] using hv
  · by_cases hc : c = b
    · subst hc; simp [next]
    · have hv := h.valid_of_lock (lock_next (a := .fill p dev bn b k) rfl c ▸ hl) (by simp [hp, Ne.symm hc])
      simpa [next, hc] using hv
  · exact h.unpins p n (by rw [hp, ← hn, Cont.goto_unpins]; rfl)
  · refine h.unpinned fun q => ?_
    by_cases hqp : q = p
    · subst hqp; rw [hp, ← hn, Cont.goto_unpins]; rfl
    · exact hq q hqp
  · obtain ⟨h1, h2, h3⟩ := h.boot hb
    refine ⟨h1, h2, fun c hv hl => ?_⟩
    by_cases hc : c = b
    · subst hc
      have hl' : Labelled s c ROOTDEV g.start := by simpa [Labelled, next] using hl
      cases hvs : (s.bufs c).valid
      · simpa [next, hvs, hl'.1, hl'.2] using h2
      · simpa [next, hvs] using h3 c hvs hl'
    · simpa [next, hc] using h3 c (by simpa [next, hc] using hv) (by simpa [Labelled, next, hc] using hl)

/-! ### Pins -/

/-- Nobody commits or boots while an operation is in `log_write`. -/
theorem GroupInv.quiet_of_logWrite (hi : GroupInv (view s)) (hp : s.pc p = .logWrite b) :
    s.booted = true ∧ ∀ q, (s.pc q).phase.commits = false ∧ (s.pc q).phase.boots = false := by
  have hph : (view s).phase p = .logWrite := congrArg PC.phase hp
  have hb : s.booted = true := hi.booted_of (p := p) (by rw [hph]; rfl) (by simp [hph])
  exact ⟨hb, fun q => ⟨hi.commits_false (hi.not_committing (hi.needsOp p (by rw [hph]; rfl))).1 q,
    hi.booted hb q⟩⟩

/-- After `log_write` its block is pinned, besides those that were. -/
theorem RefInv.pinned_logWrite (h : RefInv g s) (hi : GroupInv (view s))
    (hg : guard g s (.logWriteLocked p b)) (c : BufId) :
    pinned (next g s (.logWriteLocked p b)) c ↔ pinned s c ∨ c = b := by
  have hf := h.frame_at hg.1
  obtain ⟨hl, hdev⟩ := hf
  have hcb : caches s b := h.caches_of_lock hl
  have hun : s.unpinned = 0 := h.unpinned fun q => unpins_of_quiet ((hi.quiet_of_logWrite hg.1).2 q)
  have hlab := label_next (g := g) (s := s) (a := .logWriteLocked p b) rfl c
  have hmem : ∀ m, m ∈ (next g s (.logWriteLocked p b)).lh ↔ m ∈ s.lh ∨ m = (s.bufs b).blockno := by
    intro m
    by_cases hm : (s.bufs b).blockno ∈ s.lh
    · simp only [next, hm, if_true]
      exact ⟨.inl, fun hor => hor.elim id fun heq => heq ▸ hm⟩
    · simp [next, hm]
  rw [pinned, pinned, caches_congr hlab (h.lookup_next hg rfl), hlab.1, hlab.2]
  simp only [show (next g s (.logWriteLocked p b)).unpinned = 0 from hun, hun, List.drop_zero, hmem]
  constructor
  · rintro ⟨hcc, hdc, hm | hm⟩
    · exact .inl ⟨hcc, hdc, hm⟩
    · exact .inr (caches_inj hcc hcb (hdc.trans hdev.symm) hm)
  · rintro (⟨hcc, hdc, hm⟩ | rfl)
    · exact ⟨hcc, hdc, .inl hm⟩
    · exact ⟨hcb, hdev, .inr rfl⟩

/-- `log_write` pins a block it records; no other buffer holds that block. -/
theorem RefInv.logWriteLocked (h : RefInv g s) (hi : GroupInv (view s)) (hnp : np + 3 < 2 ^ 32)
    (hg : guard g s (.logWriteLocked p b)) :
    RefInv g (next g s (.logWriteLocked p b)) := by
  have hp : s.pc p = .logWrite b := hg.1
  have hf := h.frame_at hp
  obtain ⟨hl, hdev⟩ := hf
  have hcb : caches s b := h.caches_of_lock hl
  obtain ⟨hbooted, hquiet⟩ := hi.quiet_of_logWrite hp
  have hun : s.unpinned = 0 := h.unpinned fun q => unpins_of_quiet (hquiet q)
  by_cases hm : (s.bufs b).blockno ∈ s.lh
  · -- absorption
    exact h.walk rfl (by simp [next, hm]) rfl rfl (by simp [next, hm]) rfl id
      hp rfl rfl trivial (by simp)
  · have hbufs : (next g s (.logWriteLocked p b)).bufs =
        update s.bufs b { s.bufs b with refcnt := (s.bufs b).refcnt + 1 } := by simp [next, hm]
    have hlh : (next g s (.logWriteLocked p b)).lh = s.lh ++ [(s.bufs b).blockno] := by simp [next, hm]
    have hlock := lock_next (g := g) (s := s) (a := .logWriteLocked p b) rfl
    have hvalid := valid_next (g := g) (s := s) (a := .logWriteLocked p b) rfl
    refine h.step rfl (fun c => ?_) h.lru (h.lookup_next hg rfl) (label_next rfl)
      (fun c hc => by rw [hbufs, update_of_ne (by rintro rfl; exact hc hcb)])
      (fun c q _ => by rw [hlock]) (.inr fun q _ => hquiet q) trivial
      (fun c hv => by rw [hvalid]; exact hv)
      (fun c hl => .inl ?_) (.inl rfl) (by rintro _ ⟨⟩) (fun _ _ => hun) (fun m hmem => ?_)
      (fun hb => by simp [next, hbooted] at hb)
    · have hst : holders (next g s (.logWriteLocked p b)) c = holders s c :=
        holders_congr (p := p) (y := .idle) (hlock c) rfl (by rw [hp]; rfl)
      have hex := h.exact c
      simp only [hst, h.pinned_logWrite hi hg c]
      by_cases hc : c = b
      · subst hc
        have hps : ¬ pinned s c := fun hps => hm (by simpa [hun] using hps.2.2)
        rw [if_neg hps] at hex
        rw [if_pos (.inr rfl), hbufs, update_self, toNat_add_one (h.no_overflow hnp c), hex]
      · simp only [hc, or_false, hbufs, update_of_ne hc]
        exact hex
    · rw [hvalid]
      exact h.valid_of_lock (p := p) (hlock c ▸ hl) (by simp [hp])
    · rw [hlh] at hmem
      simp only [next, hun, List.drop_zero, List.mem_append, List.mem_singleton] at hmem
      rcases hmem with hmem | rfl
      · exact .inl (by simpa [hun] using hmem)
      · exact .inr ⟨b, hcb, hdev, rfl⟩

variable {tail : Nat} {lbuf dbuf : BufId}

/-- Inside the loop of `install_trans` the block at `tail` is the next one to be unpinned. -/
theorem RefInv.drop_bunpin (h : RefInv g s) (hi : GroupInv (view s))
    (hp : s.pc p = .bunpin false tail lbuf dbuf) :
    s.lh.drop s.unpinned = blockAt s.lh tail :: s.lh.drop (s.unpinned + 1) ∧
      blockAt s.lh tail ∉ s.lh.drop (s.unpinned + 1) := by
  have hph : (view s).phase p = .install (tail + 1) false := congrArg PC.phase hp
  have htail : tail < s.lh.length := (hi.installing p _ _ hph).1
  obtain ⟨hnd, -⟩ := hi.lh_of_commits (p := p) (by rw [hph]; rfl) (by rw [hph]; rfl)
  have hun : s.unpinned = tail := h.unpins p tail (by rw [hp]; rfl)
  have hdrop : s.lh.drop tail = blockAt s.lh tail :: s.lh.drop (tail + 1) := by
    rw [Log.blockAt_eq htail, ← List.drop_eq_getElem_cons htail]
  refine ⟨by rw [hun]; exact hdrop, ?_⟩
  have hsub := List.Nodup.sublist (List.drop_sublist tail s.lh) hnd
  rw [hdrop] at hsub
  rw [hun]
  exact (List.nodup_cons.mp hsub).1

/-- `bunpin` unpins one buffer. -/
theorem RefInv.pinned_bunpin (h : RefInv g s) (hi : GroupInv (view s))
    (hg : guard g s (.bunpin p false tail lbuf dbuf)) (c : BufId) :
    pinned (next g s (.bunpin p false tail lbuf dbuf)) c ↔ pinned s c ∧ c ≠ dbuf := by
  have hp : s.pc p = .bunpin false tail lbuf dbuf := hg
  have hf := h.frame_at hp
  obtain ⟨-, hd, -⟩ := hf
  have hcd : caches s dbuf := h.caches_of_lock hd.1
  obtain ⟨hdrop, hnot⟩ := h.drop_bunpin hi hp
  have hlab := label_next (g := g) (s := s) (a := .bunpin p false tail lbuf dbuf) rfl c
  rw [pinned, pinned, caches_congr hlab (h.lookup_next hg rfl), hlab.1, hlab.2]
  simp only [next, hdrop, List.mem_cons]
  constructor
  · rintro ⟨hcc, hdc, hm⟩
    refine ⟨⟨hcc, hdc, .inr hm⟩, ?_⟩
    rintro rfl
    exact hnot (hd.2.2 ▸ hm)
  · rintro ⟨⟨hcc, hdc, hm | hm⟩, hne⟩
    · exact absurd (caches_inj hcc hcd (hdc.trans hd.2.1.symm) (hm.trans hd.2.2.symm)) hne
    · exact ⟨hcc, hdc, hm⟩

variable {boot : Bool}

/-- `install_trans` unpins the buffer of the block it has installed. -/
theorem RefInv.bunpin (h : RefInv g s) (hi : GroupInv (view s))
    (hg : guard g s (.bunpin p boot tail lbuf dbuf)) :
    RefInv g (next g s (.bunpin p boot tail lbuf dbuf)) := by
  have hp : s.pc p = .bunpin boot tail lbuf dbuf := hg
  have hf := h.frame_at hp
  obtain ⟨hl, hd, hne, rfl⟩ := hf
  have hph : (view s).phase p = .install (tail + 1) false := congrArg PC.phase hp
  have hun : s.unpinned = tail := h.unpins p tail (by rw [hp]; rfl)
  have hcd : caches s dbuf := h.caches_of_lock hd.1
  obtain ⟨hdrop, hnot⟩ := h.drop_bunpin hi hp
  have hlock := lock_next (g := g) (s := s) (a := .bunpin p false tail lbuf dbuf) rfl
  have hvalid := valid_next (g := g) (s := s) (a := .bunpin p false tail lbuf dbuf) rfl
  refine h.step rfl (fun c => ?_) h.lru
    (h.lookup_next hg rfl) (label_next rfl)
    (fun c hc => by simp only [next, update_of_ne (show c ≠ dbuf by rintro rfl; exact hc hcd)])
    (fun c q _ => by rw [hlock]) (.inl rfl)
    ⟨by rw [hlock]; exact hl.1, ⟨fun b hb => ?_, by simp⟩, by simpa [Ret.other] using hne.symm⟩
    (fun c hv => by rw [hvalid]; exact hv)
    (fun c hlc => .inl (by rw [hvalid]; exact h.valid_of_lock (hlock c ▸ hlc) (by simp [hp])))
    (.inr fun q hq => unpins_of_quiet (hi.others_quiet (.inl (by rw [hp]; rfl)) hq))
    (fun n hn => ?_) nofun (fun m hm => .inl ?_) (fun hb => ?_)
  · have hst : holders (next g s (.bunpin p false tail lbuf dbuf)) c = holders s c :=
      holders_congr (hlock c) rfl
        (by rw [hp]; rfl)
    have hex := h.exact c
    simp only [hst, h.pinned_bunpin hi hg c]
    by_cases hc : c = dbuf
    · subst hc
      have hps : pinned s c := ⟨hcd, hd.2.1, by rw [hd.2.2, hdrop]; exact List.mem_cons_self⟩
      rw [if_pos hps] at hex
      have hpos : 0 < (s.bufs c).refcnt.toNat := by omega
      rw [if_neg (fun hcc => hcc.2 rfl)]
      simp only [next, update_self, toNat_sub_one hpos]
      omega
    · simp only [hc, ne_eq, not_false_eq_true, and_true]
      simp only [next, update_of_ne hc]
      exact hex
  · simp only [Ret.other, Option.some.injEq] at hb
    subst hb
    rw [hlock]
    exact hd.1
  · simpa [next, PC.unpins, Ret.unpins, hun] using hn
  · rw [hdrop]
    exact List.mem_cons_of_mem _ hm
  · have hb : s.booted = false := hb
    have := hi.booted_of_committing (hi.committing.mpr ⟨p, by rw [hph]; rfl⟩)
    simp [view, hb] at this

/-- `lh.n = 0`: all recorded blocks have been unpinned. -/
theorem RefInv.installDone (h : RefInv g s) (hi : GroupInv (view s))
    (hg : guard g s (.installDone p boot tail)) : RefInv g (next g s (.installDone p boot tail)) := by
  obtain ⟨hp, htail⟩ := hg
  have hun : s.unpinned = tail := h.unpins p tail (by rw [hp]; rfl)
  have hph : (s.pc p).phase.commits = true ∨ (s.pc p).phase.boots = true :=
    PC.phase_of_unpins (by rw [hp]; rfl)
  have hdrop : s.lh.drop s.unpinned = [] := List.drop_eq_nil_of_le (by omega)
  refine h.step (y := .bget ROOTDEV g.start (.head (if boot then .boot else .erase))) rfl
    (fun c => ?_) h.lru (fun _ _ => rfl) (fun _ => ⟨rfl, rfl⟩) (fun _ _ => rfl) (fun _ _ _ => Iff.rfl)
    (.inr fun q hq => hi.others_quiet hph hq) ⟨rfl, rfl⟩ (fun _ => id)
    (fun c hl => .inl (h.valid_of_lock hl (by simp [hp])))
    (.inr fun q hq => unpins_of_quiet (hi.others_quiet hph hq)) nofun (fun _ _ => rfl) nofun
    (fun hb => ⟨rfl, (h.boot hb).2⟩)
  have hst : holders (next g s (.installDone p boot tail)) c = holders s c :=
    holders_congr (y := .bget ROOTDEV g.start (.head (if boot then .boot else .erase))) rfl rfl
      (by rw [hp]; rfl)
  have hpt : ¬ pinned (next g s (.installDone p boot tail)) c := by simp [pinned, next]
  have hps : ¬ pinned s c := by simp [pinned, hdrop]
  have hex := h.exact c
  rw [if_neg hps] at hex
  rw [hst, if_neg hpt]
  exact hex

/-! ### Data -/

theorem sameRefs_store (s : State np) (b : BufId) (d : Block) : SameRefs s (store s b d) := by
  intro c
  by_cases hc : c = b
  · subst hc; simp [store]
  · simp [store, hc]

/-- A client that uses a buffer it holds stays where it is. -/
theorem RefInv.client (h : RefInv g s) (hp : s.pc p = .idle) (hb : s.booted = true) (hpc : t.pc = s.pc)
    (hbufs : SameRefs s t) (hlru : t.lru = s.lru) (hlh : t.lh = s.lh)
    (hun : t.unpinned = s.unpinned) (htb : t.booted = s.booted) : RefInv g t := by
  refine h.move ?_ hbufs hlru hlh hun hp rfl rfl trivial (by simp)
    (by simp [htb, hb])
  rw [hpc, ← hp, update_eq_self]

/-- The three `memmove`s of `commit`, each followed by `bwrite`. -/
theorem RefInv.logCopy (h : RefInv g s) (hi : GroupInv (view s)) {dst src : BufId}
    (hg : guard g s (.logCopy p tail dst src)) : RefInv g (next g s (.logCopy p tail dst src)) := by
  have hp : s.pc p = .logCopy tail dst src := hg
  have hf := h.frame_at hp
  obtain ⟨hd, hs, hne, -⟩ := hf
  have hph : (view s).phase p = .writing := congrArg PC.phase hp
  have hb : s.booted = true := hi.booted_of_committing (hi.committing.mpr ⟨p, by rw [hph]; rfl⟩)
  refine h.move rfl (sameRefs_store s dst _) rfl rfl rfl
    hp rfl rfl ⟨hs.1, ⟨fun b hb => ?_, by simp⟩, by simpa [Ret.other] using hne⟩
    (by simp) (by simp [next, store, hb])
  simp only [Ret.other, Option.some.injEq] at hb
  exact hb ▸ hd.1

theorem RefInv.installCopy (h : RefInv g s) (hi : GroupInv (view s))
    (hg : guard g s (.installCopy p boot tail lbuf dbuf)) :
    RefInv g (next g s (.installCopy p boot tail lbuf dbuf)) := by
  have hp : s.pc p = .installCopy boot tail lbuf dbuf := hg
  have hf := h.frame_at hp
  obtain ⟨hl, hd, hne, rfl⟩ := hf
  have hph : (view s).phase p = .install tail true := congrArg PC.phase hp
  have hb : s.booted = true := hi.booted_of_committing (hi.committing.mpr ⟨p, by rw [hph]; rfl⟩)
  exact h.move rfl (sameRefs_store s dbuf _) rfl rfl rfl
    hp rfl rfl ⟨hl, hd, hne, rfl⟩ (by simp) (by simp [next, store, hb])

theorem RefInv.headCopy (h : RefInv g s) {hd : Head} {hb : BufId}
    (hg : guard g s (.headCopy p hd hb)) : RefInv g (next g s (.headCopy p hd hb)) := by
  have hp : s.pc p = .headCopy hd hb := hg
  have hf := h.frame_at hp
  refine h.move rfl (sameRefs_store s hb _) rfl rfl rfl
    hp rfl rfl ⟨hf.1, ⟨nofun, by simp⟩, nofun⟩ (by simp) (fun hbt => ?_)
  -- a header write of the boot stores the empty header
  have hbs : s.booted = false := hbt
  obtain ⟨h1, h2, h3⟩ := h.boot hbs
  have hnil : getHead (putHead (s.bufs hb).data s.lh) = [] := by rw [h1, Log.getHead_putHead_nil]
  refine ⟨?_, hbs, fun c hv hl => ?_⟩
  · simp [next, store, hf.2.1, hf.2.2, hnil]
  · by_cases hc : c = hb
    · subst hc; simpa [next, store] using hnil
    · simp only [next, store, Labelled, update_of_ne hc] at hv hl ⊢
      exact h3 c hv hl

/-- `read_head` finds the empty header. -/
theorem RefInv.readHeadCopy (h : RefInv g s) (hi : GroupInv (view s))
    (hg : guard g s (.readHeadCopy p b)) : RefInv g (next g s (.readHeadCopy p b)) := by
  have hp : s.pc p = .readHeadCopy b := hg
  have hf := h.frame_at hp
  have hph : (view s).phase p = .boot := congrArg PC.phase hp
  have hb : s.booted = false := (hi.booting (by rw [hph]; rfl)).booted
  obtain ⟨h1, h2, h3⟩ := h.boot hb
  have hnil : getHead (s.bufs b).data = [] := h3 b (h.valid_of_lock hf.1 (by simp [hp])) hf.2
  exact h.move rfl (SameRefs.refl s) rfl (hnil.trans h1.symm) rfl
    hp rfl rfl ⟨hf.1, ⟨nofun, by simp⟩, nofun⟩ (by simp)
    (fun _ => ⟨h2, hb, h3⟩)

/-! ### Everything else -/

/-- Program counters that concern no buffer. -/
def PC.plain : PC np → Bool
  | .idle | .beginAcquire | .beginTest | .sleepLock | .sleepState | .sleeping | .wakened | .endAcquire
  | .endTest | .wakeup _ | .endRelease | .commit | .writeLog _ | .endAcquire2 | .endReset | .bootDone =>
    true
  | _ => false

theorem PC.plain_spec {x : PC np} (hx : x.plain = true) :
    x.refs = none ∧ x.unpins = none ∧ x.Frame g s p ∧ ∀ dev bn b k, x ≠ .fill dev bn b k := by
  cases x <;> simp_all [PC.plain, PC.refs, PC.unpins, PC.Frame]

/-- A step between such program counters. -/
theorem RefInv.plain (h : RefInv g s) (hpc : t.pc = update s.pc p y)
    (hbufs : t.bufs = s.bufs) (hdisk : t.disk = s.disk) (hlru : t.lru = s.lru) (hlh : t.lh = s.lh)
    (hun : t.unpinned = s.unpinned) (hb : t.booted = false → s.booted = false)
    (hx : (s.pc p).plain = true) (hy : y.plain = true) : RefInv g t := by
  obtain ⟨hxr, hxu, -, hxf⟩ := PC.plain_spec (g := g) (s := s) (p := p) hx
  obtain ⟨hyr, hyu, hyf, -⟩ := PC.plain_spec hy
  exact h.walk hpc hbufs hdisk hlru hlh hun hb rfl (hyr.trans hxr.symm) (hyu.trans hxu.symm) hyf hxf

/-- One iteration of the `wakeup` loop. -/
theorem RefInv.wakeup (h : RefInv g s) {qs : List (Fin np)}
    (hg : guard g s (.wakeup p q qs)) : RefInv g (next g s (.wakeup p q qs)) := by
  obtain ⟨hp, -⟩ := hg
  by_cases hq : s.pc q = .sleeping
  · have hne : p ≠ q := by rintro rfl; simp [hp] at hq
    have h₁ : RefInv g { s with pc := update s.pc q .wakened } :=
      h.plain rfl rfl rfl rfl rfl rfl id (by rw [hq]; rfl) rfl
    refine h₁.plain (p := p) (y := .wakeup qs) (by simp [next, hq]) rfl rfl rfl rfl rfl id ?_ rfl
    simp only [update_of_ne hne, hp]
    rfl
  · exact h.plain (p := p) (y := .wakeup qs) (by simp [next, hq]) rfl rfl rfl rfl rfl id
      (by rw [hp]; rfl) rfl

theorem refInv_step (h : RefInv g s) (hi : GroupInv (view s)) (hnp : np + 3 < 2 ^ 32)
    (hg : guard g s a) : RefInv g (next g s a) := by
  cases a
  case bread p dev bn =>
    have hp : s.pc p = .idle := hg.1
    exact h.walk rfl rfl rfl rfl rfl rfl id hp rfl rfl trivial (by simp)
  case brelse p b =>
    obtain ⟨hp, -, hl⟩ := hg
    exact h.walk rfl rfl rfl rfl rfl rfl id hp rfl rfl ⟨hl, ⟨(by rintro _ ⟨⟩), by simp⟩, (by rintro ⟨⟩)⟩ (by simp)
  case modify p b d =>
    refine h.client hg.1 hg.2.1 rfl (fun c => ?_) rfl rfl rfl rfl
    by_cases hc : c = b
    · subst hc; simp [next]
    · simp [next, hc]
  case bwrite p b => exact h.client hg.1 hg.2.1 rfl (sameRefs_store s b _) rfl rfl rfl rfl
  case logWrite p b =>
    obtain ⟨hp, -, hl, -, hbig, -⟩ := hg
    have hdev : (s.bufs b).dev = ROOTDEV := by
      by_contra hd
      exact hbig (.inl hd)
    exact h.walk rfl rfl rfl rfl rfl rfl id hp rfl rfl ⟨hl, hdev⟩ (by simp)
  case logWriteTooBig p b | logWriteOutside p b =>
    exact h.client hg.1 hg.2.1 rfl (SameRefs.refl s) rfl rfl rfl rfl
  case bgetHit => exact h.bgetHit hnp hg
  case bgetRecycle => exact h.bgetRecycle hg
  case acquire => exact h.acquire hg
  case fill => exact h.fill hg
  case release => exact h.release hg
  case putref => exact h.putref hi hg
  case logWriteLocked => exact h.logWriteLocked hi hnp hg
  case logCopy => exact h.logCopy hi hg
  case headCopy => exact h.headCopy hg
  case installCopy => exact h.installCopy hi hg
  case bunpin => exact h.bunpin hi hg
  case installDone => exact h.installDone hi hg
  case readHeadCopy => exact h.readHeadCopy hi hg
  case wakeup => exact h.wakeup hg
  case writeLogNext p tail =>
    obtain ⟨hp, htail⟩ := hg
    exact h.walk rfl rfl rfl rfl rfl rfl
      id hp rfl rfl ⟨⟨rfl, rfl⟩, htail⟩ (by simp)
  case writeLogDone p tail =>
    have hp := hg.1
    exact h.walk rfl rfl rfl rfl rfl rfl id
      hp rfl rfl ⟨rfl, rfl⟩ (by simp)
  case installNext p boot tail =>
    obtain ⟨hp, htail⟩ := hg
    have hboot : boot = false := by
      cases boot
      · rfl
      · have hph : (view s).phase p = .boot := congrArg PC.phase hp
        have hb : s.booted = false := (hi.booting (by rw [hph]; rfl)).booted
        simp [(h.boot hb).1] at htail
    exact h.walk rfl rfl rfl rfl
      rfl rfl id hp rfl rfl ⟨⟨rfl, rfl⟩, hboot⟩ (by simp)
  case bgetPanic | endPanic =>
    exact ⟨h.exact, h.lru, h.canon, h.frame, h.filled, h.unpins, h.unpinned, h.cached, h.boot⟩
  case bootDone p => exact h.plain rfl rfl rfl rfl rfl rfl (by rintro ⟨⟩) (by rw [hg]; rfl) rfl
  case beginOp p | endOp p | beginAcquire p | beginEnter p | beginWait p | endAcquire p | endLast p |
      endMore p | commitSome p | commitNone p | endAcquire2 p =>
    exact h.plain rfl rfl rfl rfl rfl rfl id (by rw [hg.1]; rfl) rfl
  case kill p | sleepLock p | sleepState p | resume p | wakeupDone p | endRelease p | endReset p =>
    exact h.plain rfl rfl rfl rfl rfl rfl id (by rw [hg]; rfl) rfl

variable {d : Nat → Disk}

theorem refInv_init [NeZero np] (hclean : getHead (d ROOTDEV g.start) = []) :
    RefInv g (init d : State np) := by
  have hpc : ∀ p, (init d : State np).pc p = .idle ∨ (init d : State np).pc p = .bget ROOTDEV 1 .readsb := by
    intro p
    by_cases hp : p = 0
    · subst hp; simp [init]
    · simp [init, hp]
  have hcount : ∀ b, count (init d : State np).pc (fun x => decide (x.refs = some b)) = 0 := by
    intro b
    rw [count, Finset.card_eq_zero, Finset.filter_eq_empty_iff]
    rintro p -
    rcases hpc p with hp | hp <;> simp [hp, PC.refs]
  refine ⟨fun b => ?_, fun b => by simp [init], fun b => .inr ⟨rfl, rfl, rfl⟩, fun p => ?_, by simp [init],
    fun p n hn => ?_, fun _ => rfl, by simp [init], fun _ => ⟨rfl, hclean, by simp [init]⟩⟩
  · rw [holders, hcount]
    simp [init, pinned]
  · rcases hpc p with hp | hp <;> rw [hp]
    · trivial
    · exact ⟨rfl, rfl⟩
  · rcases hpc p with hp | hp <;> simp [hp, PC.unpins, Cont.unpins] at hn

variable {as : List (Act np)} {t : State np}

theorem refInv_run [NeZero np] {ok : State np → Act np → Prop} (hnp : np + 3 < 2 ^ 32)
    (hclean : getHead (d ROOTDEV g.start) = [])
    (hrun : (machine g np).Run ok (init d) as t) : RefInv g t := by
  have hinv : RefInv g t ∧ GroupInv (view t) :=
    System.Run.invariant (M := machine g np) (I := fun s => RefInv g s ∧ GroupInv (view s))
      (fun _ _ h hg _ => ⟨refInv_step h.1 h.2 hnp hg.2, groupInv_step h.2 hg.2⟩) hrun
      ⟨refInv_init hclean, groupInv_init d⟩
  exact hinv.1

/-! ### Exact counts -/

/-- What it means for the counts to be exact in a state. -/
structure ExactCounts (t : State np) : Prop where
  exact : ∀ b, (t.bufs b).refcnt.toNat = holders t b + if pinned t b then 1 else 0
  /-- While no `install_trans` runs, the pinned blocks are those recorded in the header. -/
  recorded : (∀ p, (t.pc p).unpins = none) → ∀ b, pinned t b ↔ recorded t b
  /-- Only buffers that were never used do not cache the block of their label, which is then that of
      zeroed memory. -/
  unused : ∀ b, ¬ caches t b → (t.bufs b).dev = 0 ∧ (t.bufs b).blockno = 0 ∧ holders t b = 0
  /-- A locked buffer has a positive count, so that `bget` does not recycle it. -/
  held : ∀ b, (t.bufs b).lock ≠ none → 0 < (t.bufs b).refcnt.toNat ∧ victim t ≠ some b
  /-- No count is decremented at zero. -/
  noWrap : ∀ p b, (∃ k, t.pc p = .putref b k) ∨ (∃ boot tail lbuf, t.pc p = .bunpin boot tail lbuf b) →
    0 < (t.bufs b).refcnt.toNat

/-- If the boot finds the log empty, reference counts are exact in every state that any interleaving
    reaches. -/
theorem refcnt_exact [NeZero np] (g : Geometry) (d : Nat → Disk) (hnp : np + 3 < 2 ^ 32)
    (hclean : getHead (d ROOTDEV g.start) = [])
    (hrun : (machine g np).Run (fun _ _ => True) (init d) as t) : ExactCounts t := by
  have h := refInv_run hnp hclean hrun
  have hheld : ∀ b, (t.bufs b).lock ≠ none → 0 < (t.bufs b).refcnt.toNat := fun b hb =>
    h.refcnt_pos (holders_pos_of_lock hb)
  refine ⟨h.exact, fun hn b => ?_, fun b hb => ?_, fun b hb => ⟨hheld b hb, fun hv => ?_⟩, ?_⟩
  · rw [pinned, Bio.recorded, h.unpinned hn, List.drop_zero]
  · obtain ⟨hd, hn, -⟩ := (h.canon b).resolve_left hb
    refine ⟨hd, hn, Nat.eq_zero_of_not_pos fun hpos => hb (h.caches_of_pos hpos)⟩
  · have hz : (t.bufs b).refcnt = 0 := by simpa using List.find?_some hv
    exact hb (h.unused hz).1
  · rintro p b (⟨k, hp⟩ | ⟨boot, tail, lbuf, hp⟩)
    · exact h.refcnt_pos (holders_pos_of_refs (by rw [hp]; rfl))
    · have hf := h.frame p
      rw [hp] at hf
      exact hheld b (by rw [hf.2.1.1]; simp)

/-- A boot on an empty log and an operation that has logged a block: the buffer is pinned. -/
theorem refcnt_exact_pinned : ∃ t : State 2,
    (machine Log.mkfsLog 2).Run (fun _ _ => True) (init fun _ _ => Block.zero)
      (bootActs Log.mkfsLog 2 ++ beginActs 0 ++ logActs 0 102 2) t ∧
    (t.bufs 2).refcnt = 1 ∧ recorded t 2 ∧ ExactCounts t := by
  have hrun := System.run_exec (machine Log.mkfsLog 2) (fun _ _ => True) (init fun _ _ => Block.zero)
    (bootActs Log.mkfsLog 2 ++ beginActs 0 ++ logActs 0 102 2) rfl
  exact ⟨_, hrun, rfl, ⟨rfl, rfl, by decide⟩, refcnt_exact _ _ (by decide) rfl hrun⟩

/-- A disk that crashed after a transaction on block 100 committed. -/
def crashedDisk : Disk := update (fun _ => Block.zero) 2 (putHead Block.zero [100])

/-- `fsinit` on such a disk. -/
def recoveryActs [NeZero np] : List (Act np) :=
  List.flatten [missActs 0 1 .readsb 0, relActs 0 0 .readsb, missActs 0 2 .readHead 1,
    [.readHeadCopy 0 1], relActs 0 1 .readHead, [.installNext 0 true 0],
    missActs 0 3 (.instLog true 0) 2, missActs 0 100 (.instHome true 0 2) 3,
    [.installCopy 0 true 0 2 3, .bunpin 0 true 0 2 3], relActs 0 2 (.instLog true 0 3),
    relActs 0 3 (.instHome true 0), [.installDone 0 true 1], headActs Log.mkfsLog 0 .boot 1,
    [.bootDone 0]]

/-- Recovery unpins what nobody pinned: the count of block 100's buffer wraps around, and the next
    `bread` of the block returns a locked buffer with count 0, which `bget` may recycle. -/
theorem refcnt_wraps : ∃ t u : State 1,
    (machine Log.mkfsLog 1).Run (fun _ _ => True) (init fun _ => crashedDisk) recoveryActs t ∧
    (t.bufs 3).refcnt = 4294967295 ∧ holders t 3 = 0 ∧ t.lh = [] ∧
    (machine Log.mkfsLog 1).Run (fun _ _ => True) t (.bread 0 ROOTDEV 100 :: hitActs 0 100 .client 3) u ∧
    (u.bufs 3).refcnt = 0 ∧ (u.bufs 3).lock = some 0 ∧ holders u 3 = 1 := by
  have ht := System.run_exec (machine Log.mkfsLog 1) (fun _ _ => True) (init fun _ => crashedDisk)
    recoveryActs rfl
  exact ⟨_, _, ht, rfl, rfl, rfl, System.run_exec _ _ _ _ rfl, rfl, rfl, rfl⟩

end Xv6.Bio
