import Xv6.Kernel.Fs.Icache

/-! Safety of the inode cache under every interleaving.

    An entry is counted exactly, locked only by a process that a reference entitles to it, and agrees
    with the disk while it is valid. The one exception is the window that `iput` opens when it has
    written type 0 to the disk and not yet invalidated the entry; it holds the lock there. -/

namespace Xv6.Icache
open Fs Xv6.Count Update Function

variable {np : Nat} {s t : State np} {p : Fin np} {e : EntryId} {ninodes : Nat}

/-- The entry a program counter is about. -/
def PC.about : PC → Option EntryId
  | .ilockAcquire e | .ilockLoad e | .iputTest e | .iputTrunc e | .iputType e | .iputInvalid e
  | .iputDrop e => some e
  | _ => none

/-- The process is inside `iput` of `e` and has not yet decremented its count. -/
def PC.puts (e : EntryId) : PC → Bool
  | .iputTest e' | .iputTrunc e' | .iputType e' | .iputInvalid e' | .iputDrop e' => e' == e
  | _ => false

/-- It is in the part of `iput` that holds the lock. -/
def PC.frees (e : EntryId) : PC → Bool
  | .iputTrunc e' | .iputType e' | .iputInvalid e' => e' == e
  | _ => false

/-- It is inside `ilock` of `e`. -/
def PC.locks (e : EntryId) : PC → Bool
  | .ilockAcquire e' | .ilockLoad e' => e' == e
  | _ => false

variable {x : PC}

theorem PC.puts_of_about (h : x.about ≠ some e) :
    x.puts e = false ∧ x.frees e = false ∧ x.locks e = false ∧ x ≠ .ilockLoad e ∧ x ≠ .iputInvalid e := by
  cases x <;> simp_all [PC.about, PC.puts, PC.frees, PC.locks]

theorem PC.puts_of_frees (h : x.frees e = true) : x.puts e = true := by
  cases x <;> simp_all [PC.frees, PC.puts]

/-- The invariant of one entry. -/
structure EntryInv (s : State np) (e : EntryId) : Prop where
  exact : (s.entry e).ref = s.out e + count s.pc (PC.puts e)
  locking : ∀ p, (s.pc p).locks e = true → 1 ≤ s.out e
  loading : ∀ p, s.pc p = .ilockLoad e → (s.entry e).lock = some p
  freeing : ∀ p, (s.pc p).frees e = true → (s.entry e).lock = some p
  held : ∀ p, (s.entry e).lock = some p → (s.pc p).frees e = true ∨ 1 ≤ s.out e
  valid : ∀ p, (s.entry e).lock = some p → s.pc p ≠ .ilockLoad e → (s.entry e).valid = true
  coherent : 0 < (s.entry e).ref → (s.entry e).valid = true → (∀ p, s.pc p ≠ .iputInvalid e) →
    (s.onDisk e).type = (s.entry e).din.type ∧ (s.entry e).din.type ≠ 0 ∧
      (s.dirty e = true ∨ (s.entry e).din = s.onDisk e)

structure Inv (s : State np) : Prop where
  unique : ∀ e e', 0 < (s.entry e).ref → 0 < (s.entry e').ref → (s.entry e).dev = (s.entry e').dev →
    (s.entry e).inum = (s.entry e').inum → e = e'
  entry : ∀ e, EntryInv s e

/-- What one process does with one entry leaves the others alone. -/
theorem EntryInv.other (h : EntryInv s e) (hpc : t.pc = update s.pc p x)
    (hold : (s.pc p).about ≠ some e) (hx : x.about ≠ some e) (hentry : t.entry e = s.entry e)
    (hout : t.out e = s.out e) (hdirty : t.dirty e = s.dirty e)
    (hdisk : 0 < (s.entry e).ref → (s.entry e).valid = true → (∀ q, s.pc q ≠ .iputInvalid e) →
      t.onDisk e = s.onDisk e) : EntryInv t e := by
  obtain ⟨op, of, ol, oo, oi⟩ := PC.puts_of_about hold
  obtain ⟨xp, xf, xl, xo, xi⟩ := PC.puts_of_about hx
  have hcount : count t.pc (PC.puts e) = count s.pc (PC.puts e) := by
    have := count_update s.pc (PC.puts e) p x
    rw [op, xp] at this
    rw [hpc]
    omega
  have hq : ∀ q, q = p ∨ t.pc q = s.pc q := by
    intro q
    by_cases hq : q = p
    · exact .inl hq
    · exact .inr (by rw [hpc, update_of_ne hq])
  have hself : t.pc p = x := by rw [hpc, update_self]
  refine ⟨by rw [hentry, hout, hcount]; exact h.exact, fun q => ?_, fun q => ?_, fun q => ?_, fun q => ?_,
    fun q => ?_, fun hr hv hi => ?_⟩
  · rw [hout]
    rcases hq q with rfl | hq
    · simp [hself, xl]
    · rw [hq]; exact h.locking q
  · rw [hentry]
    rcases hq q with rfl | hq
    · simp [hself, xo]
    · rw [hq]; exact h.loading q
  · rw [hentry]
    rcases hq q with rfl | hq
    · simp [hself, xf]
    · rw [hq]; exact h.freeing q
  · rw [hentry, hout]
    intro hl
    rcases hq q with rfl | hq
    · exact .inr ((h.held q hl).resolve_left (by simp [of]))
    · rw [hq]; exact h.held q hl
  · rw [hentry]
    rcases hq q with rfl | hq
    · exact fun hl _ => h.valid q hl oo
    · rw [hq]; exact h.valid q
  · rw [hentry] at hr hv
    have hi : ∀ q, s.pc q ≠ .iputInvalid e := by
      intro q
      rcases hq q with rfl | hq
      · exact oi
      · rw [← hq]; exact hi q
    rw [hentry, hdirty, hdisk hr hv hi]
    exact h.coherent hr hv hi

/-- A step of `p` that concerns the entry `e` alone. -/
theorem Inv.step (h : Inv s) {i : Entry np} (hpc : t.pc = update s.pc p x)
    (hold : ∀ e', (s.pc p).about = some e' → e' = e) (hx : ∀ e', x.about = some e' → e' = e)
    (hentry : t.entry = update s.entry e i) (hout : ∀ e', e' ≠ e → t.out e' = s.out e')
    (hdirty : ∀ e', e' ≠ e → t.dirty e' = s.dirty e')
    (hdisk : ∀ e', e' ≠ e → 0 < (s.entry e').ref → t.onDisk e' = s.onDisk e')
    (hunique : 0 < i.ref → ∀ e', e' ≠ e → 0 < (s.entry e').ref →
      ¬ ((s.entry e').dev = i.dev ∧ (s.entry e').inum = i.inum))
    (he : EntryInv t e) : Inv t := by
  have hself : t.entry e = i := by rw [hentry, update_self]
  have hother : ∀ e', e' ≠ e → t.entry e' = s.entry e' := fun e' h' => by
    rw [hentry, update_of_ne h']
  refine ⟨fun e₁ e₂ h₁ h₂ hd hi => ?_, fun e' => ?_⟩
  · by_cases he₁ : e₁ = e
    · by_cases he₂ : e₂ = e
      · rw [he₁, he₂]
      · rw [he₁, hself, hother e₂ he₂] at hd hi
        rw [he₁, hself] at h₁
        rw [hother e₂ he₂] at h₂
        exact absurd ⟨hd.symm, hi.symm⟩ (hunique h₁ e₂ he₂ h₂)
    · by_cases he₂ : e₂ = e
      · rw [he₂, hself, hother e₁ he₁] at hd hi
        rw [he₂, hself] at h₂
        rw [hother e₁ he₁] at h₁
        exact absurd ⟨hd, hi⟩ (hunique h₂ e₁ he₁ h₁)
      · rw [hother e₁ he₁, hother e₂ he₂] at hd hi
        rw [hother e₁ he₁] at h₁
        rw [hother e₂ he₂] at h₂
        exact h.unique e₁ e₂ h₁ h₂ hd hi
  · by_cases hee : e' = e
    · rw [hee]; exact he
    · exact (h.entry e').other hpc (fun ha => hee (hold e' ha)) (fun ha => hee (hx e' ha)) (hother e' hee)
        (hout e' hee) (hdirty e' hee) (fun hr _ _ => hdisk e' hee hr)

/-- The entry itself, after such a step: `p` takes or gives back the lock, or leaves it. -/
theorem EntryInv.own (h : EntryInv s e) (hpc : t.pc = update s.pc p x)
    (hexact : (t.entry e).ref + ((s.pc p).puts e).toNat + s.out e =
      (s.entry e).ref + (x.puts e).toNat + t.out e)
    (hlock : (t.entry e).lock = (s.entry e).lock ∨
      (s.entry e).lock = none ∧ (t.entry e).lock = some p ∨
      (s.entry e).lock = some p ∧ (t.entry e).lock = none)
    (hout : inUse s e → 1 ≤ s.out e → 1 ≤ t.out e)
    (hlocks : x.locks e = true → 1 ≤ t.out e) (hload : x = .ilockLoad e → (t.entry e).lock = some p)
    (hfrees : x.frees e = true → (t.entry e).lock = some p)
    (hheld : (t.entry e).lock = some p → x.frees e = true ∨ 1 ≤ t.out e)
    (hvalid : (t.entry e).lock = some p → x ≠ .ilockLoad e → (t.entry e).valid = true)
    (hvalid' : ∀ q, q ≠ p → (s.entry e).lock = some q → (t.entry e).valid = (s.entry e).valid)
    (hcoherent : 0 < (t.entry e).ref → (t.entry e).valid = true → (∀ q, t.pc q ≠ .iputInvalid e) →
      (t.onDisk e).type = (t.entry e).din.type ∧ (t.entry e).din.type ≠ 0 ∧
        (t.dirty e = true ∨ (t.entry e).din = t.onDisk e)) : EntryInv t e := by
  have hself : t.pc p = x := by rw [hpc, update_self]
  have hq : ∀ q, q ≠ p → t.pc q = s.pc q := fun q hq => by rw [hpc, update_of_ne hq]
  -- the locks of other processes
  have hsame : ∀ q, q ≠ p → ((t.entry e).lock = some q ↔ (s.entry e).lock = some q) := by
    intro q hqp
    rcases hlock with hl | ⟨hs, ht⟩ | ⟨hs, ht⟩
    · rw [hl]
    · simp [hs, ht, Ne.symm hqp]
    · simp [hs, ht, Ne.symm hqp]
  refine ⟨?_, fun q hl => ?_, fun q hl => ?_, fun q hl => ?_, fun q hl => ?_, fun q hl hx => ?_, hcoherent⟩
  · have := count_update s.pc (PC.puts e) p x
    have := h.exact
    rw [hpc]
    omega
  · by_cases hqp : q = p
    · subst hqp; exact hlocks (by rwa [hself] at hl)
    · rw [hq q hqp] at hl
      refine hout ?_ (h.locking q hl)
      cases hx : s.pc q <;> simp only [hx, PC.locks, beq_iff_eq, Bool.false_eq_true] at hl
      · subst hl; exact .inr ⟨q, hx⟩
      · subst hl; exact .inl (by rw [h.loading q hx]; simp)
  · by_cases hqp : q = p
    · subst hqp; exact hload (by rwa [hself] at hl)
    · rw [hq q hqp] at hl
      exact (hsame q hqp).mpr (h.loading q hl)
  · by_cases hqp : q = p
    · subst hqp; exact hfrees (by rwa [hself] at hl)
    · rw [hq q hqp] at hl
      exact (hsame q hqp).mpr (h.freeing q hl)
  · by_cases hqp : q = p
    · subst hqp; rw [hself]; exact hheld hl
    · rw [hq q hqp]
      have hls := (hsame q hqp).mp hl
      exact (h.held q hls).imp_right (hout (.inl (by simp [hls])))
  · by_cases hqp : q = p
    · subst hqp; exact hvalid hl (by rwa [hself] at hx)
    · rw [hq q hqp] at hx
      have hls := (hsame q hqp).mp hl
      rw [hvalid' q hqp hls]
      exact h.valid q hls hx

/-- An entry without references is not locked. -/
theorem EntryInv.unlocked (h : EntryInv s e) (hr : (s.entry e).ref = 0) :
    (s.entry e).lock = none ∧ s.out e = 0 ∧ ∀ q, (s.pc q).puts e = false := by
  have hex := h.exact
  have hc : count s.pc (PC.puts e) = 0 := by omega
  refine ⟨?_, by omega, count_eq_zero hc⟩
  cases hl : (s.entry e).lock with
  | none => rfl
  | some q =>
    rcases h.held q hl with hf | hf
    · have := count_eq_zero hc q
      rw [PC.puts_of_frees hf] at this
      simp at this
    · omega

theorem EntryInv.ref_pos (h : EntryInv s e) (ho : 1 ≤ s.out e) : 0 < (s.entry e).ref := by
  have := h.exact
  omega

theorem EntryInv.ref_pos_of_lock (h : EntryInv s e) (hl : (s.entry e).lock = some p) :
    0 < (s.entry e).ref := by
  rcases Nat.eq_zero_or_pos (s.entry e).ref with hz | hz
  · rw [(h.unlocked hz).1] at hl
    simp at hl
  · exact hz

/-- If the reference of one `iput` is the only one, nobody else has one. -/
theorem EntryInv.alone (h : EntryInv s e) (hp : (s.pc p).puts e = true) (hr : (s.entry e).ref = 1) :
    s.out e = 0 ∧ ∀ q, q ≠ p → (s.pc q).puts e = false := by
  have hex := h.exact
  have hpos := count_pos hp
  refine ⟨by omega, fun q hq => ?_⟩
  -- take `p` out of the count: nothing is left
  have h₀ := count_update s.pc (PC.puts e) p .idle
  rw [hp] at h₀
  have hz : count (update s.pc p .idle) (PC.puts e) = 0 := by
    simp only [PC.puts, Bool.toNat_true, Bool.toNat_false] at h₀
    omega
  have := count_eq_zero hz q
  rwa [update_of_ne hq] at this

/-- `iput` then finds the inode unlocked. -/
theorem EntryInv.unlocked_of_alone (h : EntryInv s e) (hp : s.pc p = .iputTest e)
    (hr : (s.entry e).ref = 1) : (s.entry e).lock = none := by
  obtain ⟨hout, hone⟩ := h.alone (p := p) (by simp [hp, PC.puts]) hr
  cases hl : (s.entry e).lock with
  | none => rfl
  | some q =>
    rcases h.held q hl with hf | hf
    · have hqp : q ≠ p := by rintro rfl; simp [hp, PC.frees] at hf
      have := hone q hqp
      rw [PC.puts_of_frees hf] at this
      simp at this
    · omega

/-! ### One lemma a kind of step -/

theorem ne_iputInvalid (hpc : t.pc = update s.pc p x) (hold : s.pc p ≠ .iputInvalid e)
    (ht : ∀ q, t.pc q ≠ .iputInvalid e) (q : Fin np) : s.pc q ≠ .iputInvalid e := by
  by_cases hq : q = p
  · rw [hq]; exact hold
  · have := ht q
    rwa [hpc, update_of_ne hq] at this

/-- Steps that concern no entry. -/
theorem Inv.walk (h : Inv s) (hpc : t.pc = update s.pc p x)
    (hold : (s.pc p).about = none) (hx : x.about = none) (hentry : t.entry = s.entry)
    (hout : t.out = s.out) (hdirty : t.dirty = s.dirty)
    (hdisk : ∀ e, 0 < (s.entry e).ref → (s.entry e).valid = true → (∀ q, s.pc q ≠ .iputInvalid e) →
      t.onDisk e = s.onDisk e) : Inv t where
  unique := by rw [hentry]; exact h.unique
  entry e := (h.entry e).other hpc (by simp [hold]) (by simp [hx]) (by rw [hentry]) (by rw [hout])
    (by rw [hdirty]) (hdisk e)

/-- Steps of `iget`, `idup` and `iput` that change the count of an entry. -/
theorem Inv.recount (h : Inv s) {n : Nat} (hpc : t.pc = update s.pc p x)
    (hold : ∀ e', (s.pc p).about = some e' → e' = e) (hx : x.about = none)
    (hnew : (s.pc p).frees e = false ∧ (s.pc p).locks e = false)
    (hentry : t.entry = update s.entry e { s.entry e with ref := n })
    (hout : ∀ e', e' ≠ e → t.out e' = s.out e') (hdirty : t.dirty = s.dirty) (hdisk : t.disk = s.disk)
    (hexact : n + ((s.pc p).puts e).toNat + s.out e = (s.entry e).ref + t.out e)
    (hle : s.out e ≤ t.out e) (hpos : 0 < (s.entry e).ref) : Inv t := by
  have hself : t.entry e = { s.entry e with ref := n } := by rw [hentry, update_self]
  have hother : ∀ e', e' ≠ e → t.onDisk e' = s.onDisk e' := fun e' he => by
    rw [State.onDisk, hentry, update_of_ne he, hdisk]; rfl
  have hdiske : t.onDisk e = s.onDisk e := by rw [State.onDisk, hself, hdisk]; rfl
  obtain ⟨xp, xf, xl, xo, xi⟩ := PC.puts_of_about (x := x) (by simp [hx])
  have he := h.entry e
  refine h.step hpc hold (by simp [hx]) hentry hout (by simp [hdirty]) (fun e' he _ => hother e' he)
    (fun _ e' hne hr hlab => hne (h.unique e' e hr hpos hlab.1 hlab.2)) ?_
  refine he.own hpc (by rw [hself, xp]; simpa using hexact) (.inl (by rw [hself]))
    (fun _ h1 => h1.trans hle) (by simp [xl]) (fun hx => absurd hx xo) (by simp [xf]) (fun hl => ?_)
    (fun hl _ => ?_) (fun _ _ _ => by rw [hself]) (fun hr hv hi => ?_)
  · rw [hself] at hl
    exact .inr (((he.held p hl).resolve_left (by simp [hnew.1])).trans hle)
  · rw [hself] at hl ⊢
    refine he.valid p hl fun hpl => ?_
    rw [hpl] at hnew
    simp [PC.locks] at hnew
  · rw [hself] at hv
    rw [hdiske, hself, hdirty]
    refine he.coherent hpos hv (ne_iputInvalid hpc (fun hpi => ?_) hi)
    rw [hpi] at hnew
    simp [PC.frees] at hnew

/-- Steps that take, give back or keep the lock, and leave the data alone. -/
theorem Inv.relock (h : Inv s) {l : Option (Fin np)} (hpc : t.pc = update s.pc p x)
    (hold : ∀ e', (s.pc p).about = some e' → e' = e) (hx : ∀ e', x.about = some e' → e' = e)
    (hinv : s.pc p ≠ .iputInvalid e) (hentry : t.entry = update s.entry e { s.entry e with lock := l })
    (hout : ∀ e', e' ≠ e → t.out e' = s.out e') (hdirty : t.dirty = s.dirty) (hdisk : t.disk = s.disk)
    (hexact : ((s.pc p).puts e).toNat + s.out e = (x.puts e).toNat + t.out e)
    (hlock : l = (s.entry e).lock ∨ (s.entry e).lock = none ∧ l = some p ∨
      (s.entry e).lock = some p ∧ l = none)
    (huse : inUse s e → 1 ≤ s.out e → 1 ≤ t.out e) (hlocks : x.locks e = true → 1 ≤ t.out e)
    (hload : x = .ilockLoad e → l = some p) (hfrees : x.frees e = true → l = some p)
    (hheld : l = some p → x.frees e = true ∨ 1 ≤ t.out e)
    (hvalid : l = some p → x ≠ .ilockLoad e → (s.entry e).valid = true) : Inv t := by
  have hself : t.entry e = { s.entry e with lock := l } := by rw [hentry, update_self]
  have hother : ∀ e', t.onDisk e' = s.onDisk e' := fun e' => by
    rw [State.onDisk, hentry, hdisk]
    by_cases he : e' = e
    · subst he; simp [State.onDisk]
    · rw [update_of_ne he]; rfl
  have he := h.entry e
  refine h.step hpc hold hx hentry hout (by simp [hdirty]) (fun e' _ _ => hother e')
    (fun hr e' hne hr' hlab => hne (h.unique e' e hr' hr hlab.1 hlab.2)) ?_
  refine he.own hpc (by rw [hself]; simp only; omega) (by rw [hself]; exact hlock) huse hlocks
    (by rw [hself]; exact hload) (by rw [hself]; exact hfrees) (by rw [hself]; exact hheld)
    (by rw [hself]; exact hvalid) (fun _ _ _ => by rw [hself]) (fun hr hv hi => ?_)
  rw [hself] at hr hv
  rw [hother, hself, hdirty]
  exact he.coherent hr hv (ne_iputInvalid hpc hinv hi)

variable {d : Dinode}

/-- Steps that the holder of the lock takes with the data. -/
theorem Inv.redata (h : Inv s) {v : Bool} (hpc : t.pc = update s.pc p x)
    (hold : ∀ e', (s.pc p).about = some e' → e' = e) (hx : ∀ e', x.about = some e' → e' = e)
    (hl : (s.entry e).lock = some p)
    (hentry : t.entry = update s.entry e { s.entry e with valid := v, din := d })
    (hout : t.out = s.out) (hdirty : ∀ e', e' ≠ e → t.dirty e' = s.dirty e')
    (hdisk : ∀ dev inum, ¬ ((s.entry e).dev = dev ∧ (s.entry e).inum = inum) →
      t.disk dev inum = s.disk dev inum)
    (hputs : (s.pc p).puts e = x.puts e) (hfrees : (s.pc p).frees e = x.frees e)
    (hlocks : x.locks e = false) (hv : v = true)
    (hcoherent : x ≠ .iputInvalid e → (t.onDisk e).type = d.type ∧ d.type ≠ 0 ∧
      (t.dirty e = true ∨ d = t.onDisk e)) : Inv t := by
  have hself : t.entry e = { s.entry e with valid := v, din := d } := by rw [hentry, update_self]
  have hother : ∀ e', e' ≠ e → t.entry e' = s.entry e' := fun e' h' => by
    rw [hentry, update_of_ne h']
  have he := h.entry e
  have hpos := he.ref_pos_of_lock hl
  refine h.step hpc hold hx hentry (by simp [hout]) hdirty (fun e' hne hr => ?_)
    (fun hr e' hne hr' hlab => hne (h.unique e' e hr' hr hlab.1 hlab.2)) ?_
  · rw [State.onDisk, hother e' hne]
    exact hdisk _ _ fun hlab => hne (h.unique e' e hr hpos hlab.1.symm hlab.2.symm)
  · refine he.own hpc (by rw [hself, hputs, hout]) (.inl (by rw [hself])) (by rw [hout]; exact fun _ => id)
      (by simp [hlocks]) (fun hx => by simp [hx, PC.locks] at hlocks) (by rw [hself]; exact fun _ => hl)
      (by rw [hself, hout, ← hfrees]; exact he.held p) (fun _ _ => by rw [hself]; exact hv)
      (fun q hq hl' => ?_) (fun _ _ hi => ?_)
    · rw [hl, Option.some.injEq] at hl'
      exact absurd hl'.symm hq
    · rw [hself]
      refine hcoherent fun hxi => hi p ?_
      rw [hpc, update_self, hxi]

/-- While `p` holds the lock outside `iput`, no `iput` is freeing the inode. -/
theorem EntryInv.no_iputInvalid (h : EntryInv s e) (hl : (s.entry e).lock = some p)
    (hp : s.pc p ≠ .iputInvalid e) (q : Fin np) : s.pc q ≠ .iputInvalid e := by
  intro hq
  have := h.freeing q (by simp [hq, PC.frees])
  rw [hl, Option.some.injEq] at this
  exact hp (this ▸ hq)

/-- The holder of the lock sees what is on the disk. -/
theorem EntryInv.coherent_of_lock (h : EntryInv s e) (hl : (s.entry e).lock = some p)
    (hp : s.pc p ≠ .iputInvalid e) (hp' : s.pc p ≠ .ilockLoad e) :
    (s.onDisk e).type = (s.entry e).din.type ∧ (s.entry e).din.type ≠ 0 ∧
      (s.dirty e = true ∨ (s.entry e).din = s.onDisk e) :=
  h.coherent (h.ref_pos_of_lock hl) (h.valid p hl hp') (h.no_iputInvalid hl hp)

theorem write_apply (disk : Nat → Nat → Dinode) (dev inum : Nat) (d : Dinode) (dev' inum' : Nat) :
    write disk dev inum d dev' inum' = if dev' = dev ∧ inum' = inum then d else disk dev' inum' :=
  update_update disk dev inum d dev' inum'

/-- A store by the holder of the lock. -/
theorem Inv.store (h : Inv s) (hold : ∀ e', (s.pc p).about = some e' → e' = e)
    (hx : ∀ e', x.about = some e' → e' = e) (hl : (s.entry e).lock = some p)
    (hv : (s.entry e).valid = true) (hputs : (s.pc p).puts e = x.puts e)
    (hfrees : (s.pc p).frees e = x.frees e) (hlocks : x.locks e = false)
    (hd : x ≠ .iputInvalid e → d.type ≠ 0) : Inv (s.store p x e d) := by
  have hdisk : (s.store p x e d).onDisk e = d := by
    simp [State.onDisk, State.store, State.set, write_apply]
  refine h.redata rfl hold hx hl rfl rfl (fun e' hne => ?_)
    (fun dev inum hne => ?_) hputs hfrees hlocks hv (fun hxi => ?_)
  · simp [State.store, hne]
  · exact (write_apply _ _ _ _ _ _).trans (if_neg fun hd => hne ⟨hd.1.symm, hd.2.symm⟩)
  · rw [hdisk]
    exact ⟨rfl, hd hxi, .inr rfl⟩

variable {dev inum : Nat}

theorem Inv.igetHit (h : Inv s) (hg : guard ninodes s (.igetHit p dev inum e)) :
    Inv (next s (.igetHit p dev inum e)) := by
  obtain ⟨hp, hlook⟩ := hg
  have hpos : 0 < (s.entry e).ref := by
    have := List.find?_some hlook
    simp only [Bool.and_eq_true, decide_eq_true_eq] at this
    exact this.1.1
  have hx : (s.pc p).about = none ∧ (s.pc p).frees e = false ∧ (s.pc p).locks e = false ∧
      (s.pc p).puts e = false := by
    rcases hp with hp | hp <;> simp [hp, PC.about, PC.frees, PC.locks, PC.puts]
  refine h.recount rfl (by simp [hx.1]) rfl
    ⟨hx.2.1, hx.2.2.1⟩ rfl (fun e' hne => by simp [next, hne]) rfl rfl ?_ (by simp [next]) hpos
  simp only [next, update_self, hx.2.2.2, Bool.toNat_false]
  omega

/-- The end of `iput`: the reference that it was called with goes. -/
theorem Inv.put (h : Inv s) (hp : s.pc p = .iputTest e ∨ s.pc p = .iputDrop e) :
    Inv (s.set p .idle e { s.entry e with ref := (s.entry e).ref - 1 }) := by
  have hputs : (s.pc p).puts e = true := by rcases hp with hp | hp <;> simp [hp, PC.puts]
  have hpos : 0 < (s.entry e).ref := by
    have := (h.entry e).exact
    have := count_pos hputs
    omega
  refine h.recount rfl (by rcases hp with hp | hp <;> simp [hp, PC.about])
    rfl (by rcases hp with hp | hp <;> simp [hp, PC.frees, PC.locks]) rfl (fun _ _ => rfl) rfl rfl ?_ le_rfl hpos
  simp only [hputs, Bool.toNat_true, State.set]
  omega

theorem Inv.igetRecycle (h : Inv s) (hg : guard ninodes s (.igetRecycle p dev inum e)) :
    Inv (next s (.igetRecycle p dev inum e)) := by
  obtain ⟨hp, hlook, hempty⟩ := hg
  have hz : (s.entry e).ref = 0 := by simpa using List.find?_some hempty
  obtain ⟨hl, hout, hputs⟩ := (h.entry e).unlocked hz
  have hx : (s.pc p).about = none ∧ s.pc p ≠ .iputInvalid e := by
    rcases hp with hp | hp <;> simp [hp, PC.about]
  have hnew : ∀ e', 0 < (s.entry e').ref → ¬ ((s.entry e').dev = dev ∧ (s.entry e').inum = inum) := by
    intro e' hr hlab
    have := List.find?_eq_none.mp hlook e' (List.mem_finRange e')
    simp [hr, hlab.1, hlab.2] at this
  refine h.step rfl (by simp [hx.1]) nofun rfl
    (fun e' hne => by simp [next, hne]) (fun _ _ => rfl) (fun e' hne _ => ?_)
    (fun _ e' _ hr => hnew e' hr) ?_
  · simp [State.onDisk, next, State.set, hne]
  · refine (h.entry e).own rfl ?_ (.inl ?_) ?_ nofun nofun nofun ?_ ?_ ?_ ?_
    · rw [hputs p, hz, hout]
      simp [next, State.set, hout, PC.puts]
    · simp [next, State.set]
    · intro _ h1
      omega
    · simp [next, State.set, hl]
    · simp [next, State.set, hl]
    · simp [hl]
    · simp [next, State.set]

theorem Inv.iputInvalid (h : Inv s) (hp : s.pc p = .iputInvalid e) :
    Inv (next s (.iputInvalid p e)) := by
  have he := h.entry e
  have hl := he.freeing p (by simp [hp, PC.frees])
  refine h.step rfl (by simp [hp, PC.about])
    (by simp [PC.about]) rfl (fun _ _ => rfl) (fun _ _ => rfl) (fun e' hne _ => ?_)
    (fun hr e' hne hr' hlab => hne (h.unique e' e hr' hr hlab.1 hlab.2)) ?_
  · simp [State.onDisk, next, State.set, hne]
  · refine he.own rfl ?_ (.inr (.inr ⟨hl, ?_⟩)) (fun _ => id) nofun nofun
      nofun ?_ ?_ (fun q hq hl' => ?_) ?_
    · simp [next, State.set, hp, PC.puts]
    · simp [next, State.set]
    · simp [next, State.set]
    · simp [next, State.set]
    · rw [hl, Option.some.injEq] at hl'
      exact absurd hl'.symm hq
    · simp [next, State.set]

theorem Inv.iallocTake (h : Inv s) {type : Int16}
    (hg : guard ninodes s (.iallocTake p dev type inum)) : Inv (next s (.iallocTake p dev type inum)) := by
  obtain ⟨hp, -, hfree⟩ := hg
  refine h.walk rfl (by simp [hp, PC.about]) rfl rfl rfl rfl ?_
  intro e hr hv hi
  obtain ⟨htype, hne, -⟩ := (h.entry e).coherent hr hv hi
  -- the inode taken is free, that of a valid entry is not
  refine (write_apply _ _ _ _ _ _).trans (if_neg fun hlab => hne ?_)
  have hlab : (s.entry e).dev = dev ∧ (s.entry e).inum = inum := hlab
  rw [← htype, State.onDisk, hlab.1, hlab.2]
  exact hfree

theorem Inv.ilockLoad (h : Inv s) (hg : guard ninodes s (.ilockLoad p e)) :
    Inv (next s (.ilockLoad p e)) := by
  obtain ⟨hp, htype⟩ := hg
  have he := h.entry e
  have hl := he.loading p hp
  have hout : 1 ≤ s.out e := he.locking p (by simp [hp, PC.locks])
  cases hv : (s.entry e).valid
  · refine h.redata (x := .idle) (v := true) (d := s.onDisk e) (by simp [next, hv, State.set])
      (by simp [hp, PC.about]) nofun hl (by simp [next, hv, State.set]) (by simp [next, hv, State.set])
      (fun e' hne => by simp [next, hv, hne, State.set]) (fun _ _ _ => by simp [next, hv, State.set])
      (by rw [hp]; rfl) (by rw [hp]; rfl) rfl rfl (fun _ => ?_)
    have hdisk : (next s (.ilockLoad p e)).onDisk e = s.onDisk e := by
      simp [State.onDisk, next, hv, State.set]
    rw [hdisk]
    exact ⟨rfl, htype hv, .inr rfl⟩
  · have hnext : next s (.ilockLoad p e) = { s with pc := update s.pc p .idle } := by
      simp [next, hv]
    rw [hnext]
    exact h.relock rfl (by simp [hp, PC.about])
      nofun (by simp [hp]) (update_eq_self e s.entry).symm (fun _ _ => rfl) rfl rfl
      (by rw [hp]; rfl) (.inl rfl) (fun _ => id) nofun nofun nofun (fun _ => .inr hout) (fun _ _ => hv)

theorem inv_step {a : Act np} (h : Inv s) (hg : guard ninodes s a) : Inv (next s a) := by
  cases a
  case idup p e =>
    obtain ⟨hp, hout⟩ := hg
    refine h.recount rfl (by simp [hp, PC.about])
      rfl (by simp [hp, PC.frees, PC.locks]) rfl (fun e' hne => by simp [next, hne]) rfl rfl ?_
      (by simp [next]) ((h.entry e).ref_pos hout)
    simp only [next, update_self, hp, PC.puts, Bool.toNat_false]
    omega
  case ilock p e =>
    obtain ⟨hp, hout, -⟩ := hg
    exact h.relock rfl
      (by simp [hp, PC.about]) (by simp [PC.about]) (by simp [hp])
      (update_eq_self e s.entry).symm (fun _ _ => rfl) rfl rfl (by rw [hp]; rfl) (.inl rfl)
      (fun _ => id) (fun _ => hout) nofun nofun (fun _ => .inr hout)
      (fun hl _ => (h.entry e).valid p hl (by simp [hp]))
  case iunlock p e =>
    obtain ⟨hp, hl, -⟩ := hg
    exact h.relock rfl (by simp [hp, PC.about]) nofun
      (by simp [hp]) rfl (fun _ _ => rfl) rfl rfl (by rw [hp]; rfl) (.inr (.inr ⟨hl, rfl⟩)) (fun _ => id)
      nofun nofun nofun nofun nofun
  case modify p e d =>
    obtain ⟨hp, hl, htype⟩ := hg
    have he := h.entry e
    obtain ⟨hd, hne, -⟩ := he.coherent_of_lock hl (by simp [hp]) (by simp [hp])
    have hdisk : (next s (.modify p e d)).onDisk e = s.onDisk e := by simp [State.onDisk, next, State.set]
    refine h.redata rfl
      (by simp [hp, PC.about]) nofun hl rfl rfl (fun e' hne => by simp [next, hne]) (fun _ _ _ => rfl)
      (by rw [hp]) (by rw [hp]) rfl (he.valid p hl (by simp [hp])) (fun _ => ?_)
    rw [hdisk, htype]
    exact ⟨hd, hne, .inl (by simp [next])⟩
  case iupdate p e =>
    obtain ⟨hp, hl⟩ := hg
    have he := h.entry e
    exact h.store (by simp [hp, PC.about]) nofun hl (he.valid p hl (by simp [hp]))
      (by rw [hp]) (by rw [hp]) rfl
      (fun _ => (he.coherent_of_lock hl (by simp [hp]) (by simp [hp])).2.1)
  case iput p e =>
    obtain ⟨hp, hout, huse⟩ := hg
    have he := h.entry e
    have hkeep : inUse s e → 1 ≤ (next s (.iput p e)).out e := fun hu => by
      have := huse hu
      simp only [next, update_self]
      omega
    refine h.relock rfl
      (by simp [hp, PC.about]) (by simp [PC.about]) (by simp [hp])
      (update_eq_self e s.entry).symm (fun e' hne => by simp [next, hne]) rfl rfl ?_ (.inl rfl)
      (fun hu _ => hkeep hu) nofun nofun nofun (fun hl => .inr (hkeep (.inl (by simp [hl]))))
      (fun hl _ => he.valid p hl (by simp [hp]))
    simp only [next, update_self, hp, PC.puts, beq_self_eq_true, Bool.toNat_false,
      Bool.toNat_true]
    omega
  case ialloc | iallocSkip =>
    exact h.walk rfl (by rw [hg.1]; rfl) rfl rfl rfl rfl (fun _ _ _ _ => rfl)
  case igetHit => exact h.igetHit hg
  case igetRecycle => exact h.igetRecycle hg
  case ilockAcquire p e =>
    obtain ⟨hp, hl⟩ := hg
    have hout : 1 ≤ s.out e := (h.entry e).locking p (by simp [hp, PC.locks])
    exact h.relock rfl (by simp [hp, PC.about])
      (by simp [PC.about]) (by simp [hp]) rfl (fun _ _ => rfl) rfl rfl (by rw [hp]; rfl)
      (.inr (.inl ⟨hl, rfl⟩)) (fun _ => id) (fun _ => hout) (fun _ => rfl) nofun (fun _ => .inr hout)
      (fun _ hx => absurd rfl hx)
  case ilockLoad => exact h.ilockLoad hg
  case iputFree p e =>
    obtain ⟨hp, hlast, hl⟩ := hg
    exact h.relock rfl (by simp [hp, PC.about])
      (by simp [PC.about]) (by simp [hp]) rfl (fun _ _ => rfl) rfl rfl (by rw [hp]; rfl)
      (.inr (.inl ⟨hl, rfl⟩)) (fun _ => id) nofun nofun (fun _ => rfl)
      (fun _ => .inl (by simp [PC.frees])) (fun _ _ => hlast.2.1)
  case iputKeep => exact h.put (.inl hg.1)
  case iputDrop => exact h.put (.inr hg)
  case iputTrunc p e =>
    have hp : s.pc p = .iputTrunc e := hg
    have he := h.entry e
    have hl := he.freeing p (by simp [hp, PC.frees])
    exact h.store (by simp [hp, PC.about]) (by simp [PC.about]) hl
      (he.valid p hl (by simp [hp])) (by rw [hp]; rfl) (by rw [hp]; rfl) rfl
      (fun _ => (he.coherent_of_lock hl (by simp [hp]) (by simp [hp])).2.1)
  case iputType p e =>
    have hp : s.pc p = .iputType e := hg
    have he := h.entry e
    have hl := he.freeing p (by simp [hp, PC.frees])
    exact h.store (by simp [hp, PC.about]) (by simp [PC.about]) hl
      (he.valid p hl (by simp [hp])) (by rw [hp]; rfl) (by rw [hp]; rfl) rfl (fun hx => absurd rfl hx)
  case iputInvalid => exact h.iputInvalid hg
  case iallocTake => exact h.iallocTake hg
  case ilockPanic | iunlockPanic | igetPanic | ilockNoType | iputSleep | iallocPanic =>
    exact ⟨h.unique, fun e => ⟨(h.entry e).exact, (h.entry e).locking, (h.entry e).loading,
      (h.entry e).freeing, (h.entry e).held, (h.entry e).valid, (h.entry e).coherent⟩⟩

theorem inv_init (d : Nat → Nat → Dinode) : Inv (init d : State np) where
  unique e e' he := by simp [init] at he
  entry e := by
    have hz : count (init d : State np).pc (PC.puts e) = 0 := by
      rw [count, Finset.card_eq_zero, Finset.filter_eq_empty_iff]
      simp [init, PC.puts]
    exact ⟨by rw [hz]; rfl, by simp [init, PC.locks], by simp [init], by simp [init, PC.frees],
      by simp [init], by simp [init], by simp [init]⟩

end Xv6.Icache
