import Mathlib.Data.Fintype.Prod
import Xv6.Kernel.File.Table

/-! What the reference counts of the file table count, in the middle of a call.

    A call may have taken a reference that no slot shows yet, or have set a slot before it raises the
    count: `δ f` is how much the count of `f` is ahead of the slots. `mine` are the inode references that
    the call has in its hands, and `fresh` the entries that it has not set up yet. -/

namespace Xv6.Ftable

open Fs (NFILE NOFILE NDEV FileId Pid EntryId Stop)
open Xv6.Count Hoare Function

variable {s t : State} {δ : FileId → Int} {fresh : List FileId} {mine : List EntryId}

/-- The number of descriptors, over all processes, that are this entry. -/
def slots (s : State) (f : FileId) : Nat :=
  count (fun x : Pid × Fin NOFILE => (s.proc x.1).ofile x.2) fun v => decide (v = some f)

/-- The number of entries that hold this. -/
def holders (s : State) (h : Held) : Nat := count s.ftable fun ff => decide (ff.held = some h)

/-- The number of processes in this directory. -/
def cwds (s : State) (ip : EntryId) : Nat := count (fun p => (s.proc p).cwd) fun v => decide (v = some ip)

/-- The page is that of a pipe while one of its ends has an entry. -/
def Ends (s : State) (pi : Page) : Prop :=
  match s.page pi with
  | none => ∀ w, holders s (.pipe pi w) = 0
  | some P => holders s (.pipe pi false) = P.readopen.toNat ∧ holders s (.pipe pi true) = P.writeopen.toNat ∧
      (P.readopen || P.writeopen) = true

/-- The counts of the entries, and what is set up. -/
structure Counts (s : State) (δ : FileId → Int) (fresh : List FileId) : Prop where
  refs : ∀ f, ((s.ftable f).ref : Int) = slots s f + δ f
  blank : ∀ f, (s.ftable f).ref = 0 → (s.ftable f).type = .none
  typed : ∀ f, (s.ftable f).ref ≠ 0 → f ∉ fresh → (s.ftable f).type ≠ .none

/-- What an entry has acquired it has released again, apart from what it holds. -/
def Hist (s : State) : Prop := ∀ f, s.acquired f = s.released f ++ (s.ftable f).held.toList

/-- What the entries hold, and the history of it. -/
structure Holds (s : State) (mine : List EntryId) : Prop where
  hist : Hist s
  inodes : ∀ ip, s.iref ip = holders s (.inode ip) + cwds s ip + mine.count ip
  ends : ∀ pi, Ends s pi

structure Refs (s : State) (δ : FileId → Int) (fresh : List FileId) (mine : List EntryId) : Prop where
  counts : Counts s δ fresh
  holds : Holds s mine

/-- One reference more or less. -/
def shift (δ : FileId → Int) (f : FileId) (k : Int) : FileId → Int := update δ f (δ f + k)

@[simp] theorem shift_self (f : FileId) (k : Int) : shift δ f k f = δ f + k := update_self ..

variable {f g : FileId}

theorem shift_of_ne (k : Int) (h : g ≠ f) : shift δ f k g = δ g := update_of_ne h ..

@[simp] theorem shift_shift (f : FileId) (k l : Int) (h : k + l = 0) : shift (shift δ f k) f l = δ := by
  funext g
  by_cases hg : g = f
  · subst hg
    simp only [shift_self]
    omega
  · rw [shift_of_ne l hg, shift_of_ne k hg]

@[simp] theorem shift_zero (f : FileId) : shift δ f 0 = δ := by
  unfold shift
  rw [Int.add_zero, update_eq_self]

variable {ff : File}

theorem held_eq_none : ff.held = none ↔ ff.type = .none := by
  unfold File.held
  cases ff.type <;> simp

/-! ### Slots -/

theorem slots_setFd (s : State) (p : Pid) (fd : Fin NOFILE) (v : Option FileId) (f : FileId) :
    slots (s.setFd p fd v) f + (decide ((s.proc p).ofile fd = some f)).toNat =
      slots s f + (decide (v = some f)).toNat := by
  have hfun : (fun x : Pid × Fin NOFILE => ((s.setFd p fd v).proc x.1).ofile x.2) =
      update (fun x : Pid × Fin NOFILE => (s.proc x.1).ofile x.2) (p, fd) v := by
    funext x
    obtain ⟨q, fd'⟩ := x
    by_cases hq : q = p
    · subst hq
      by_cases hfd : fd' = fd
      · subst hfd
        simp [State.setFd]
      · have hne : (q, fd') ≠ (q, fd) := fun h => hfd (congrArg Prod.snd h)
        simp [State.setFd, hfd]
    · have hne : (q, fd') ≠ (p, fd) := fun h => hq (congrArg Prod.fst h)
      simp [State.setFd, hq]
  unfold slots
  rw [hfun]
  exact count_update (fun x : Pid × Fin NOFILE => (s.proc x.1).ofile x.2) (fun v => decide (v = some f)) (p, fd) v

theorem slots_pos {p : Pid} {fd : Fin NOFILE} (h : (s.proc p).ofile fd = some f) : 0 < slots s f :=
  count_pos (i := (p, fd)) (by simp [h])

theorem cwds_setFd (s : State) (p : Pid) (fd : Fin NOFILE) (v : Option FileId) (ip : EntryId) :
    cwds (s.setFd p fd v) ip = cwds s ip := by
  have hfun : (fun q => ((s.setFd p fd v).proc q).cwd) = fun q => (s.proc q).cwd := by
    funext q
    by_cases hq : q = p
    · subst hq
      simp [State.setFd]
    · simp [State.setFd, hq]
  rw [cwds, hfun, cwds]

@[simp] theorem setFile_self (s : State) (f : FileId) (ff : File) : (s.setFile f ff).ftable f = ff :=
  update_self ..

theorem setFile_of_ne (s : State) (ff : File) (h : g ≠ f) :
    (s.setFile f ff).ftable g = s.ftable g := update_of_ne h ..

namespace Counts

variable {p : Pid} {fd : Fin NOFILE}

/-- One slot changes from `v` to `w`. -/
theorem setFd (h : Counts s δ fresh) {v : Option FileId} {δ' : FileId → Int}
    (hδ : ∀ g, δ' g + (decide (v = some g)).toNat = δ g + (decide ((s.proc p).ofile fd = some g)).toNat) :
    Counts (s.setFd p fd v) δ' fresh where
  refs g := by
    have hslots := slots_setFd s p fd v g
    have hg := h.refs g
    have hδg := hδ g
    show ((s.ftable g).ref : Int) = _
    omega
  blank := h.blank
  typed := h.typed

/-- A free slot gets the entry. -/
theorem attach (h : Counts s δ fresh) (hfd : (s.proc p).ofile fd = none)
    (f : FileId) : Counts (s.setFd p fd (some f)) (shift δ f (-1)) fresh := by
  refine h.setFd fun g => ?_
  by_cases hgf : g = f
  · subst hgf
    simp [hfd]
  · simp [hfd, Ne.symm hgf, shift_of_ne _ hgf]

variable {f : FileId}

/-- A slot is cleared. -/
theorem detach (h : Counts s δ fresh)
    (hfd : (s.proc p).ofile fd = some f) : Counts (s.setFd p fd none) (shift δ f 1) fresh := by
  refine h.setFd fun g => ?_
  by_cases hgf : g = f
  · subst hgf
    simp [hfd]
  · simp [hfd, Ne.symm hgf, shift_of_ne _ hgf]

/-- One entry changes. -/
theorem setFile (h : Counts s δ fresh) {ff : File} {k : Int} {fresh' : List FileId}
    (hn : (ff.ref : Int) = (s.ftable f).ref + k) (hblank : ff.ref = 0 → ff.type = .none)
    (htyped : ff.ref ≠ 0 → f ∉ fresh' → ff.type ≠ .none) (hfresh : ∀ g, g ≠ f → g ∉ fresh' → g ∉ fresh) :
    Counts (s.setFile f ff) (shift δ f k) fresh' := by
  constructor
  case refs =>
    intro g
    have hg := h.refs g
    show _ = (slots s g : Int) + _
    by_cases hgf : g = f
    · subst hgf
      rw [setFile_self, shift_self]
      omega
    · rw [setFile_of_ne s ff hgf, shift_of_ne _ hgf]
      exact hg
  case blank =>
    intro g
    by_cases hgf : g = f
    · subst hgf
      rw [setFile_self]
      exact hblank
    · rw [setFile_of_ne s ff hgf]
      exact h.blank g
  case typed =>
    intro g
    by_cases hgf : g = f
    · subst hgf
      rw [setFile_self]
      exact htyped
    · rw [setFile_of_ne s ff hgf]
      exact fun h0 hnf => h.typed g h0 (hfresh g hgf hnf)

/-- An entry that is free or set up is not fresh any more. -/
theorem settled (h : Counts s δ (f :: fresh)) (hf : (s.ftable f).ref = 0 ∨ (s.ftable f).type ≠ .none) :
    Counts s δ fresh where
  refs := h.refs
  blank := h.blank
  typed g h0 hnf := by
    by_cases hgf : g = f
    · subst hgf
      exact hf.resolve_left h0
    · exact h.typed g h0 (by simp [hgf, hnf])

end Counts

/-! ### Holdings -/

theorem holders_setFile (s : State) (f : FileId) (ff : File) (x : Held) :
    holders (s.setFile f ff) x + (decide ((s.ftable f).held = some x)).toNat =
      holders s x + (decide (ff.held = some x)).toNat :=
  count_update s.ftable (fun ff => decide (ff.held = some x)) f ff

@[simp] theorem holders_noteAcquired (s : State) (f : FileId) (x : Held) :
    holders (s.noteAcquired f) x = holders s x := rfl

@[simp] theorem holders_noteReleased (s : State) (f : FileId) (o : Option Held) (x : Held) :
    holders (s.noteReleased f o) x = holders s x := rfl

@[simp] theorem holders_setPage (s : State) (pi : Page) (P : Option Pipe) (x : Held) :
    holders (s.setPage pi P) x = holders s x := rfl

@[simp] theorem holders_setIref (s : State) (ip : EntryId) (n : Nat) (x : Held) :
    holders (s.setIref ip n) x = holders s x := rfl

theorem holders_congr (h : ∀ f, (t.ftable f).held = (s.ftable f).held) (x : Held) : holders t x = holders s x := by
  unfold holders count
  congr 1
  ext f
  simp [h f]

theorem Ends.congr {pi : Page} (h : Ends s pi) (hpage : t.page pi = s.page pi)
    (hheld : ∀ w, holders t (.pipe pi w) = holders s (.pipe pi w)) : Ends t pi := by
  unfold Ends at h ⊢
  rw [hpage]
  simp only [hheld]
  exact h

/-- An entry that held nothing gets something. -/
theorem Hist.acquire (h : Hist s) (ff : File) (hblank : (s.ftable f).held = none) :
    Hist ((s.setFile f ff).noteAcquired f) := by
  intro g
  show update s.acquired f (s.acquired f ++ ((s.setFile f ff).ftable f).held.toList) g =
    s.released g ++ ((s.setFile f ff).ftable g).held.toList
  by_cases hgf : g = f
  · subst hgf
    have hg := h g
    rw [hblank, Option.toList_none, List.append_nil] at hg
    rw [update_self, hg]
  · rw [update_of_ne hgf, setFile_of_ne s ff hgf]
    exact h g

/-- An entry lets go of what it held. -/
theorem Hist.release (h : Hist s) (hff : ff.held = none) :
    Hist ((s.setFile f ff).noteReleased f (s.ftable f).held) := by
  intro g
  show s.acquired g = update s.released f (s.released f ++ (s.ftable f).held.toList) g ++
    ((s.setFile f ff).ftable g).held.toList
  by_cases hgf : g = f
  · subst hgf
    rw [update_self, setFile_self, hff, Option.toList_none, List.append_nil]
    exact h g
  · rw [update_of_ne hgf, setFile_of_ne s ff hgf]
    exact h g

namespace Holds

/-- Nothing of it changes. -/
theorem congr (h : Holds s mine) (hheld : ∀ f, (t.ftable f).held = (s.ftable f).held)
    (hhist : t.acquired = s.acquired ∧ t.released = s.released) (hiref : t.iref = s.iref)
    (hcwds : ∀ ip, cwds t ip = cwds s ip) (hpage : t.page = s.page) : Holds t mine where
  hist f := by
    rw [hhist.1, hhist.2, hheld]
    exact h.hist f
  inodes ip := by
    rw [hiref, holders_congr hheld, hcwds]
    exact h.inodes ip
  ends pi := (h.ends pi).congr (by rw [hpage]) fun _ => holders_congr hheld _

theorem setFd (h : Holds s mine) (p : Pid) (fd : Fin NOFILE) (v : Option FileId) : Holds (s.setFd p fd v) mine :=
  h.congr (fun _ => rfl) ⟨rfl, rfl⟩ rfl (cwds_setFd s p fd v) rfl

variable {f : FileId} {ff : File}

/-- An entry changes and holds what it held. -/
theorem setFile (h : Holds s mine) (hff : ff.held = (s.ftable f).held) :
    Holds (s.setFile f ff) mine := by
  refine h.congr (fun g => ?_) ⟨rfl, rfl⟩ rfl (fun _ => rfl) rfl
  by_cases hgf : g = f
  · subst hgf
    rw [setFile_self, hff]
  · rw [setFile_of_ne s ff hgf]

/-- A reference to an inode in hand. -/
theorem idup (h : Holds s mine) (ip : EntryId) : Holds (s.setIref ip (s.iref ip + 1)) (ip :: mine) where
  hist := h.hist
  inodes jp := by
    have hj := h.inodes jp
    show update s.iref ip (s.iref ip + 1) jp = holders s (.inode jp) + cwds s jp + _
    by_cases hji : jp = ip
    · subst hji
      rw [update_self, List.count_cons_self]
      omega
    · rw [update_of_ne hji, List.count_cons_of_ne (Ne.symm hji)]
      exact hj
  ends := h.ends

variable {ip : EntryId}

theorem iput (h : Holds s (ip :: mine)) : Holds (s.setIref ip (s.iref ip - 1)) mine where
  hist := h.hist
  inodes jp := by
    have hj := h.inodes jp
    show update s.iref ip (s.iref ip - 1) jp = holders s (.inode jp) + cwds s jp + _
    by_cases hji : jp = ip
    · subst hji
      rw [List.count_cons_self] at hj
      rw [update_self]
      omega
    · rw [List.count_cons_of_ne (Ne.symm hji)] at hj
      rw [update_of_ne hji]
      exact hj
  ends := h.ends

/-- An entry takes over the reference in hand. -/
theorem acquire (h : Holds s (ip :: mine))
    (hblank : (s.ftable f).held = none) (hff : ff.held = some (.inode ip)) :
    Holds ((s.setFile f ff).noteAcquired f) mine where
  hist := h.hist.acquire ff hblank
  inodes jp := by
    have hj := h.inodes jp
    have hcount := holders_setFile s f ff (.inode jp)
    show s.iref jp = holders (s.setFile f ff) (.inode jp) + cwds s jp + mine.count jp
    rw [hblank, hff] at hcount
    by_cases hji : jp = ip
    · subst hji
      rw [List.count_cons_self] at hj
      simp at hcount
      omega
    · rw [List.count_cons_of_ne (Ne.symm hji)] at hj
      simp [Ne.symm hji] at hcount
      omega
  ends pi := by
    refine (h.ends pi).congr rfl fun w => ?_
    have hcount := holders_setFile s f ff (.pipe pi w)
    rw [hblank, hff] at hcount
    simpa using hcount

variable {pi : Page}

/-- The two entries of a new pipe. -/
theorem pipe (h : Holds s mine) (hpage : s.page pi = none) {g : FileId} {rf wf : File} (hfg : f ≠ g)
    (hf : (s.ftable f).held = none) (hg : (s.ftable g).held = none) (hrf : rf.held = some (.pipe pi false))
    (hwf : wf.held = some (.pipe pi true)) :
    Holds (((((s.setPage pi (some ⟨true, true⟩)).setFile f rf).noteAcquired f).setFile g wf).noteAcquired g) mine := by
  have hgf : ((s.setFile f rf).ftable g).held = none := by rw [setFile_of_ne s rf hfg.symm, hg]
  have hcount : ∀ x, holders ((s.setFile f rf).setFile g wf) x =
      holders s x + (decide (rf.held = some x)).toNat + (decide (wf.held = some x)).toNat := fun x => by
    have h0 := holders_setFile s f rf x
    have h1 := holders_setFile (s.setFile f rf) g wf x
    rw [hf] at h0
    rw [hgf] at h1
    simp only [reduceCtorEq, decide_false, Bool.toNat_false, Nat.add_zero] at h0 h1
    omega
  constructor
  case hist =>
    have hpaged : Hist (s.setPage pi (some ⟨true, true⟩)) := h.hist
    exact (hpaged.acquire rf hf).acquire wf hgf
  case inodes =>
    intro ip
    show s.iref ip = holders ((s.setFile f rf).setFile g wf) (.inode ip) + cwds s ip + mine.count ip
    rw [hcount, hrf, hwf]
    simpa using h.inodes ip
  case ends =>
    intro pj
    by_cases hji : pj = pi
    · subst hji
      have hs := h.ends pj
      unfold Ends at hs ⊢
      rw [hpage] at hs
      have hnew : (((((s.setPage pj (some ⟨true, true⟩)).setFile f rf).noteAcquired f).setFile g wf).noteAcquired
        g).page pj = some ⟨true, true⟩ := update_self ..
      rw [hnew]
      show holders ((s.setFile f rf).setFile g wf) _ = _ ∧ holders ((s.setFile f rf).setFile g wf) _ = _ ∧ _
      rw [hcount, hcount, hs, hs, hrf, hwf]
      simp
    · refine (h.ends pj).congr (update_of_ne hji ..) fun w => ?_
      show holders ((s.setFile f rf).setFile g wf) _ = _
      rw [hcount, hrf, hwf]
      simp [Ne.symm hji]

/-- The last close of a file on an inode. -/
theorem releaseInode (h : Holds s mine)
    (hold : (s.ftable f).held = some (.inode ip)) (hff : ff.held = none) :
    Holds (((s.setFile f ff).noteReleased f (s.ftable f).held).setIref ip (s.iref ip - 1)) mine where
  hist := h.hist.release hff
  inodes jp := by
    have hj := h.inodes jp
    have hcount := holders_setFile s f ff (.inode jp)
    show update s.iref ip (s.iref ip - 1) jp = holders (s.setFile f ff) (.inode jp) + cwds s jp + mine.count jp
    rw [hold, hff] at hcount
    by_cases hji : jp = ip
    · subst hji
      simp at hcount
      rw [update_self]
      omega
    · simp [Ne.symm hji] at hcount
      rw [update_of_ne hji, hcount]
      exact hj
  ends pi := by
    refine (h.ends pi).congr rfl fun w => ?_
    have hcount := holders_setFile s f ff (.pipe pi w)
    rw [hold, hff] at hcount
    simpa using hcount

/-- The last close of an end of a pipe. -/
theorem releasePipe (h : Holds s mine) {w : Bool}
    (hold : (s.ftable f).held = some (.pipe pi w)) (hff : ff.held = none) :
    ∃ P, s.page pi = some P ∧ Holds (((s.setFile f ff).noteReleased f (s.ftable f).held).setPage pi
      (if (P.shut w).readopen = false ∧ (P.shut w).writeopen = false then none else some (P.shut w))) mine := by
  have hpos : 0 < holders s (.pipe pi w) := count_pos (i := f) (by simp [hold])
  have hcount : ∀ x, holders (s.setFile f ff) x + (decide (Held.pipe pi w = x)).toNat = holders s x := fun x => by
    have hx := holders_setFile s f ff x
    rw [hold, hff] at hx
    simpa using hx
  have hs := h.ends pi
  unfold Ends at hs
  cases hP : s.page pi with
  | none =>
    rw [hP] at hs
    have := hs w
    omega
  | some P =>
    rw [hP] at hs
    obtain ⟨hr, hw, _⟩ := hs
    refine ⟨P, rfl, h.hist.release hff, fun ip => ?_, fun pj => ?_⟩
    · have hip := hcount (.inode ip)
      simp only [reduceCtorEq, decide_false, Bool.toNat_false, Nat.add_zero] at hip
      show s.iref ip = holders (s.setFile f ff) (.inode ip) + cwds s ip + mine.count ip
      rw [hip]
      exact h.inodes ip
    · by_cases hji : pj = pi
      · subst hji
        have hr' := hcount (.pipe pj false)
        have hw' := hcount (.pipe pj true)
        unfold Ends
        rw [show (((s.setFile f ff).noteReleased f (s.ftable f).held).setPage pj _).page pj = _ from
          update_self ..]
        obtain ⟨r, o⟩ := P
        cases w <;> cases r <;> cases o <;> simp_all [Pipe.shut]
      · refine (h.ends pj).congr (update_of_ne hji ..) fun v => ?_
        have hx := hcount (.pipe pj v)
        simp only [Held.pipe.injEq, Ne.symm hji, false_and, decide_false, Bool.toNat_false, Nat.add_zero] at hx
        simpa using hx

end Holds

end Xv6.Ftable
