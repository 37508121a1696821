import Xv6.Kernel.File.Refs

/-! The calls keep the reference counts exact, whichever way they return. No call panics. -/

namespace Xv6.Ftable

open Fs (NFILE NOFILE NDEV FileId Pid EntryId Stop T_DIR T_DEVICE)
open Xv6.Count Hoare Function

variable {s t : State} {δ : FileId → Int} {fresh : List FileId} {mine : List EntryId} {p : Pid}

/-- A call that does not return. -/
def NoStop : Stop → Prop := fun _ => False

/-! ### Rules -/

/-- The state when `filealloc` returns `f`. -/
def State.claim (s : State) (f : FileId) : State := s.setFile f { s.ftable f with ref := 1 }

@[simp] theorem claim_ref (s : State) (f : FileId) : ((s.claim f).ftable f).ref = 1 := by simp [State.claim]

@[simp] theorem claim_held (s : State) (f : FileId) : ((s.claim f).ftable f).held = (s.ftable f).held := by
  simp [State.claim, File.held]

variable {f : FileId}

theorem claim_of_ne (s : State) {g : FileId} (h : g ≠ f) : (s.claim f).ftable g = s.ftable g :=
  setFile_of_ne s _ h

variable {E : Stop → Prop} {Q : Option FileId → State → Prop}

theorem filealloc_wp (hnone : Q none s)
    (hsome : ∀ f, (s.ftable f).ref = 0 → Q (some f) (s.claim f)) :
    wp E filealloc Q s := by
  unfold filealloc
  rw [wp_bind, wp_get]
  split
  · rename_i f hf
    rw [wp_bind, setFile, wp_modify, wp_pure]
    exact hsome f (by simpa using List.find?_some hf)
  · exact hnone

theorem fdalloc_wp {Q : Option (Fin NOFILE) → State → Prop} (hnone : Q none s)
    (hsome : ∀ fd, (s.proc p).ofile fd = none → Q (some fd) (s.setFd p fd (some f))) :
    wp E (fdalloc p f) Q s := by
  unfold fdalloc
  rw [wp_bind, wp_get]
  split
  · rename_i fd hfd
    rw [wp_bind, setFd, wp_modify, wp_pure]
    exact hsome fd (by simpa using List.find?_some hfd)
  · exact hnone

theorem argfd_wp {fd : Nat} (hnone : Q none s)
    (hsome : ∀ (h : fd < NOFILE) f, (s.proc p).ofile ⟨fd, h⟩ = some f → Q (some f) s) : wp E (argfd p fd) Q s := by
  unfold argfd
  rw [wp_bind, wp_get, wp_pure]
  split
  · rename_i h
    cases hf : (s.proc p).ofile ⟨fd, h⟩ with
    | none => exact hnone
    | some f => exact hsome h f hf
  · exact hnone

variable {ff : File}

theorem type_of_held {x : Held} (h : ff.held = some x) : ff.type ≠ .none := fun e => by
  rw [held_eq_none.mpr e] at h
  cases h

/-- A fresh entry is set up. -/
theorem Counts.setType {fresh' : List FileId} (h : Counts s δ fresh)
    (hfresh : ∀ g, g ≠ f → g ∉ fresh' → g ∉ fresh) (htype : ff.type ≠ .none) (href : ff.ref = (s.ftable f).ref)
    (hpos : (s.ftable f).ref ≠ 0) : Counts (s.setFile f ff) δ fresh' := by
  have hcounts : Counts (s.setFile f ff) (shift δ f 0) fresh' :=
    h.setFile (by simp [href]) (fun h0 => absurd (href ▸ h0) hpos) (fun _ _ => htype) hfresh
  rwa [shift_zero] at hcounts

/-- A blank entry holds nothing. -/
theorem Counts.held_none (h : Counts s δ fresh) (hf : (s.ftable f).ref = 0) : (s.ftable f).held = none :=
  held_eq_none.mpr (h.blank f hf)

namespace Refs

variable {f : FileId}

theorem alloc (h : Refs s δ fresh mine) (hf : (s.ftable f).ref = 0) :
    Refs (s.claim f) (shift δ f 1) (f :: fresh) mine :=
  ⟨h.counts.setFile (by simp [hf]) nofun (fun _ hnf => absurd List.mem_cons_self hnf)
    fun _ _ hnf => fun hin => hnf (List.mem_cons_of_mem _ hin), h.holds.setFile rfl⟩

theorem dup (h : Refs s δ fresh mine) (hf : 1 ≤ (s.ftable f).ref) (hnf : f ∉ fresh) :
    Refs (s.setFile f { s.ftable f with ref := (s.ftable f).ref + 1 }) (shift δ f 1) fresh mine :=
  ⟨h.counts.setFile rfl nofun (fun _ _ => h.counts.typed f (by omega) hnf) fun _ _ => id, h.holds.setFile rfl⟩

/-- An entry that is ahead of its slots is in use. -/
theorem ref_pos (h : Refs s δ fresh mine) (hf : 1 ≤ δ f) : 1 ≤ (s.ftable f).ref := by
  have href := h.counts.refs f
  omega

variable {fd : Fin NOFILE}

theorem attach (h : Refs s δ fresh mine) (hfd : (s.proc p).ofile fd = none) (f : FileId) :
    Refs (s.setFd p fd (some f)) (shift δ f (-1)) fresh mine :=
  ⟨h.counts.attach hfd f, h.holds.setFd p fd _⟩

theorem detach (h : Refs s δ fresh mine) (hfd : (s.proc p).ofile fd = some f) :
    Refs (s.setFd p fd none) (shift δ f 1) fresh mine :=
  ⟨h.counts.detach hfd, h.holds.setFd p fd _⟩

/-- A new entry takes over the inode reference in hand. -/
theorem setup {ff : File} {ip : EntryId} (h : Refs s δ (f :: fresh) (ip :: mine))
    (hblank : (s.ftable f).held = none) (hff : ff.held = some (.inode ip)) (href : ff.ref = (s.ftable f).ref)
    (hpos : (s.ftable f).ref ≠ 0) : Refs ((s.setFile f ff).noteAcquired f) δ fresh mine := by
  have hcounts := h.counts.setType (fun _ hg hnf hin => (List.mem_cons.mp hin).elim hg hnf) (type_of_held hff) href hpos
  exact ⟨⟨hcounts.refs, hcounts.blank, hcounts.typed⟩, h.holds.acquire hblank hff⟩

/-- Two new entries become the ends of a pipe. -/
theorem pipe {g : FileId} {rf wf : File} {pi : Page} (h : Refs s δ [g, f] mine) (hpage : s.page pi = none)
    (hfg : f ≠ g) (hf : (s.ftable f).held = none) (hg : (s.ftable g).held = none)
    (hrf : rf.held = some (.pipe pi false)) (hwf : wf.held = some (.pipe pi true))
    (href : rf.ref = (s.ftable f).ref) (hwref : wf.ref = (s.ftable g).ref) (hfpos : (s.ftable f).ref ≠ 0)
    (hgpos : (s.ftable g).ref ≠ 0) :
    Refs (((((s.setPage pi (some ⟨true, true⟩)).setFile f rf).noteAcquired f).setFile g wf).noteAcquired g) δ []
      mine := by
  have hgf : (s.setFile f rf).ftable g = s.ftable g := setFile_of_ne s rf hfg.symm
  have hfirst : Counts (s.setFile f rf) δ [g] :=
    h.counts.setType (fun x hx hnf hin => by simp_all) (type_of_held hrf) href hfpos
  have hboth : Counts ((s.setFile f rf).setFile g wf) δ [] :=
    hfirst.setType (fun x hx _ hin => hx (List.mem_singleton.mp hin)) (type_of_held hwf) (by rw [hgf]; exact hwref)
      (by rw [hgf]; exact hgpos)
  exact ⟨⟨hboth.refs, hboth.blank, hboth.typed⟩, h.holds.pipe hpage hfg hf hg hrf hwf⟩

theorem settled (h : Refs s δ (f :: fresh) mine)
    (hf : (s.ftable f).ref = 0 ∨ (s.ftable f).type ≠ .none) : Refs s δ fresh mine :=
  ⟨h.counts.settled hf, h.holds⟩

end Refs

theorem filedup_wp {Q : Unit → State → Prop} (hf : 1 ≤ (s.ftable f).ref)
    (hQ : Q () (s.setFile f { s.ftable f with ref := (s.ftable f).ref + 1 })) : wp NoStop (filedup f) Q s := by
  unfold filedup
  simp only [file, wp_bind, wp_get, wp_pure]
  rw [if_neg (by omega)]
  exact hQ

/-- What `fileclose` leaves. -/
structure Closed (s t : State) (f : FileId) (δ : FileId → Int) (fresh : List FileId) (mine : List EntryId) : Prop where
  refs : Refs t (shift δ f (-1)) fresh mine
  proc : t.proc = s.proc
  self : (t.ftable f).ref = (s.ftable f).ref - 1
  other : ∀ g, g ≠ f → t.ftable g = s.ftable g

theorem fileclose_wp (h : Refs s δ fresh mine) (hf : 1 ≤ (s.ftable f).ref) :
    wp NoStop (fileclose f) (fun _ t => Closed s t f δ fresh mine) s := by
  unfold fileclose
  simp only [file, wp_bind, wp_get, wp_pure]
  rw [if_neg (by omega)]
  refine wp_ite (fun hlt => ?_) fun hlast => ?_
  · rw [setFile, wp_modify]
    refine ⟨⟨h.counts.setFile ?_ ?_ ?_ fun _ _ => id, h.holds.setFile rfl⟩, rfl, by simp,
      fun g hg => setFile_of_ne s _ hg⟩
    · show (((s.ftable f).ref - 1 : Nat) : Int) = _
      omega
    · intro h0
      have : (s.ftable f).ref - 1 = 0 := h0
      omega
    · exact fun _ hnf => h.counts.typed f (by omega) hnf
  · have hone : (s.ftable f).ref = 1 := by omega
    have hcounts : Counts (s.setFile f { s.ftable f with ref := 0, type := .none }) (shift δ f (-1)) fresh :=
      h.counts.setFile (by simp [hone]) (fun _ => rfl) (fun h0 => absurd rfl h0) fun _ _ => id
    have hblank : File.held { s.ftable f with ref := 0, type := .none } = none := rfl
    simp only [setFile, wp_bind, wp_modify]
    cases htype : (s.ftable f).type with
    | none =>
      have hheld : (s.ftable f).held = none := held_eq_none.mpr htype
      rw [hheld, wp_pure]
      refine ⟨⟨⟨hcounts.refs, hcounts.blank, hcounts.typed⟩, ?_⟩, rfl, by simp [State.noteReleased, hone],
        fun g hg => setFile_of_ne s _ hg⟩
      have hholds := h.holds.setFile (hblank.trans hheld.symm)
      refine hholds.congr (fun _ => rfl) ⟨rfl, ?_⟩ rfl (fun _ => rfl) rfl
      simp [State.noteReleased, State.setFile]
    | pipe =>
      have hheld : (s.ftable f).held = some (.pipe (s.ftable f).pipe (s.ftable f).writable) := by
        simp [File.held, htype]
      obtain ⟨P, hP, hholds⟩ := h.holds.releasePipe hheld hblank
      simp only [pipeclose, wp_bind, wp_get]
      rw [show ((s.setFile f _).noteReleased f _).page = s.page from rfl, hP]
      simp only [wp_modify]
      exact ⟨⟨⟨hcounts.refs, hcounts.blank, hcounts.typed⟩, hholds⟩, rfl,
        by simp [State.noteReleased, State.setPage, hone], fun g hg => setFile_of_ne s _ hg⟩
    | inode | device =>
      have hheld : (s.ftable f).held = some (.inode (s.ftable f).ip) := by simp [File.held, htype]
      have hholds := h.holds.releaseInode hheld hblank
      simp only [iput, wp_modify]
      exact ⟨⟨⟨hcounts.refs, hcounts.blank, hcounts.typed⟩, hholds⟩, rfl,
        by simp [State.noteReleased, State.setIref, hone], fun g hg => setFile_of_ne s _ hg⟩

/-! ### Between calls -/

/-- No reference is on its way, and a process that does not exist has no files. -/
structure Quiet (s : State) : Prop where
  refs : Refs s (fun _ => 0) [] []
  gone : ∀ p, (s.proc p).cwd = none → ∀ fd, (s.proc p).ofile fd = none

namespace Quiet

/-- A descriptor is an entry that counts it. -/
theorem ref_pos (h : Quiet s) {fd : Fin NOFILE} {f : FileId} (hfd : (s.proc p).ofile fd = some f) :
    1 ≤ (s.ftable f).ref := by
  have hpos := slots_pos hfd
  have href := h.refs.counts.refs f
  omega

/-- A call of a process that exists changes its descriptors only. -/
theorem of_refs (h : Quiet s) (hr : Refs t (fun _ => 0) [] []) (hp : (s.proc p).cwd ≠ none)
    (hcwd : (t.proc p).cwd = (s.proc p).cwd) (hother : ∀ q, q ≠ p → t.proc q = s.proc q) : Quiet t where
  refs := hr
  gone q hq fd := by
    by_cases hqp : q = p
    · subst hqp
      exact absurd (hcwd ▸ hq) hp
    · rw [hother q hqp] at hq ⊢
      exact h.gone q hq fd

theorem same_proc (h : Quiet s) (hr : Refs t (fun _ => 0) [] []) (hproc : t.proc = s.proc) : Quiet t where
  refs := hr
  gone := by
    rw [hproc]
    exact h.gone

end Quiet

@[simp] theorem setFd_cwd (s : State) (p q : Pid) (fd : Fin NOFILE) (v : Option FileId) :
    ((s.setFd p fd v).proc q).cwd = (s.proc q).cwd := by
  by_cases hq : q = p
  · subst hq
    simp [State.setFd]
  · simp [State.setFd, hq]

theorem setFd_proc_of_ne (s : State) {p q : Pid} (fd : Fin NOFILE) (v : Option FileId) (h : q ≠ p) :
    (s.setFd p fd v).proc q = s.proc q := by
  simp [State.setFd, h]

@[simp] theorem setFd_ofile_self (s : State) (p : Pid) (fd : Fin NOFILE) (v : Option FileId) :
    ((s.setFd p fd v).proc p).ofile fd = v := by
  simp [State.setFd]

theorem setFd_ofile_of_ne (s : State) (p : Pid) {fd fd' : Fin NOFILE} (v : Option FileId) (h : fd' ≠ fd) :
    ((s.setFd p fd v).proc p).ofile fd' = (s.proc p).ofile fd' := by
  simp [State.setFd, h]

/-! ### Descriptors -/

theorem sysDup_wp (h : Quiet s) (hp : (s.proc p).cwd ≠ none) (fd : Nat) :
    wp NoStop (sysDup p fd) (fun _ t => Quiet t) s := by
  unfold sysDup
  rw [wp_bind]
  refine argfd_wp h fun hlt f hf => ?_
  simp only [wp_bind]
  refine fdalloc_wp h fun fd' hfd' => ?_
  simp only [wp_bind]
  refine filedup_wp (h.ref_pos hf) ?_
  rw [wp_pure]
  -- the slot is set before the count is raised
  have hdup := (h.refs.attach hfd' f).dup (h.ref_pos hf) (List.not_mem_nil)
  rw [shift_shift f (-1) 1 (by decide)] at hdup
  exact h.of_refs hdup hp (setFd_cwd ..) fun q hq => setFd_proc_of_ne s fd' _ hq

theorem sysClose_wp (h : Quiet s) (hp : (s.proc p).cwd ≠ none) (fd : Nat) :
    wp NoStop (sysClose p fd) (fun _ t => Quiet t) s := by
  unfold sysClose
  rw [wp_bind]
  refine argfd_wp h fun hlt f hf => ?_
  simp only [dif_pos hlt, wp_bind, setFd, wp_modify]
  refine (fileclose_wp (h.refs.detach hf) (h.ref_pos hf)).mono fun _ t hc => ?_
  have hrefs := hc.refs
  rw [shift_shift f 1 (-1) (by decide)] at hrefs
  rw [wp_pure]
  exact h.of_refs hrefs hp (by rw [hc.proc]; exact setFd_cwd ..) fun q hq => by
    rw [hc.proc]
    exact setFd_proc_of_ne s _ _ hq

/-! ### Open -/

variable {α : Type}

/-- `iput` of the reference in hand, on the way out of a call that fails. -/
theorem openBad_wp {ip : EntryId} (h : Quiet s) (hr : Refs t (fun _ => 0) [] [ip]) (hproc : t.proc = s.proc)
    (a : α) : wp NoStop (do iput ip; pure a : M α) (fun _ t => Quiet t) t := by
  simp only [iput, wp_bind, wp_modify, wp_pure]
  refine ⟨⟨⟨hr.counts.refs, hr.counts.blank, hr.counts.typed⟩, hr.holds.iput⟩, fun q hq fd => ?_⟩
  have hq' : (s.proc q).cwd = none := by rw [← hproc]; exact hq
  show (t.proc q).ofile fd = none
  rw [hproc]
  exact h.gone q hq' fd

theorem openInode_wp (h : Quiet s) (hp : (s.proc p).cwd ≠ none) (i : Found) (omode : UInt32)
    (hr : Refs t (fun _ => 0) [] [i.ip]) (hproc : t.proc = s.proc) :
    wp NoStop (openInode p i omode) (fun _ t => Quiet t) t := by
  unfold openInode
  refine wp_ite (fun _ => openBad_wp h hr hproc none) fun _ => ?_
  rw [wp_bind]
  refine filealloc_wp (openBad_wp h hr hproc none) fun f hf => ?_
  have halloc := hr.alloc hf
  simp only [wp_bind]
  refine fdalloc_wp ?_ fun fd hfd => ?_
  · -- no descriptor: the entry is closed again
    rw [wp_bind]
    refine (fileclose_wp halloc (by simp)).mono fun _ u hc => ?_
    have hrefs := hc.refs
    rw [shift_shift f 1 (-1) (by decide)] at hrefs
    have hfree : (u.ftable f).ref = 0 := by rw [hc.self]; simp
    exact openBad_wp h (hrefs.settled (.inl hfree)) (hc.proc.trans hproc) none
  · simp only [file, setFile, wp_bind, wp_get, wp_pure, wp_modify]
    have hatt := halloc.attach (show ((t.claim f).proc p).ofile fd = none from hfd) f
    rw [shift_shift f 1 (-1) (by decide)] at hatt
    have hblank : (((t.claim f).setFd p fd (some f)).ftable f).held = none :=
      (claim_held t f).trans (hr.counts.held_none hf)
    refine h.of_refs (hatt.setup hblank ?_ rfl ?_) hp ?_ fun q hq => ?_
    · by_cases hd : i.type = T_DEVICE
      · simp [File.held, hd]
      · simp [File.held, hd]
    · show ((t.claim f).ftable f).ref ≠ 0
      simp
    · show (((t.claim f).setFd p fd (some f)).proc p).cwd = (s.proc p).cwd
      rw [setFd_cwd, ← hproc]
      rfl
    · show ((t.claim f).setFd p fd (some f)).proc q = s.proc q
      rw [setFd_proc_of_ne _ fd _ hq, ← hproc]
      rfl

theorem sysOpen_wp (h : Quiet s) (hp : (s.proc p).cwd ≠ none) (found : Option Found) (omode : UInt32) :
    wp NoStop (sysOpen p found omode) (fun _ t => Quiet t) s := by
  cases found with
  | none => exact h
  | some i =>
    have hr : Refs (s.setIref i.ip (s.iref i.ip + 1)) (fun _ => 0) [] [i.ip] :=
      ⟨⟨h.refs.counts.refs, h.refs.counts.blank, h.refs.counts.typed⟩, h.refs.holds.idup i.ip⟩
    simp only [sysOpen, idup, wp_bind, wp_modify]
    refine wp_ite (fun _ => openBad_wp h hr rfl none) fun _ => openInode_wp h hp i omode hr rfl

/-! ### Pipes -/

/-- The entries that `pipealloc` returns: counted, and with no slot yet. -/
structure Piped (s t : State) (rf wf : FileId) : Prop where
  refs : Refs t (shift (shift (fun _ => 0) rf 1) wf 1) [] []
  proc : t.proc = s.proc
  ne : rf ≠ wf

theorem shift_comm (f g : FileId) (k l : Int) (h : f ≠ g) : shift (shift δ f k) g l = shift (shift δ g l) f k := by
  funext x
  by_cases hf : x = f
  · subst hf
    rw [shift_of_ne l h, shift_self, shift_self, shift_of_ne l h]
  · by_cases hg : x = g
    · subst hg
      rw [shift_of_ne k hf, shift_self, shift_self, shift_of_ne k hf]
    · rw [shift_of_ne l hg, shift_of_ne k hf, shift_of_ne k hf, shift_of_ne l hg]

variable {pi : Option Page}

theorem pipealloc_wp (h : Quiet s) (hpi : ∀ x, pi = some x → s.page x = none) :
    wp NoStop (pipealloc pi) (fun r t => match r with
      | none => Quiet t ∧ t.proc = s.proc
      | some (rf, wf) => Piped s t rf wf) s := by
  unfold pipealloc
  rw [wp_bind]
  refine filealloc_wp ⟨h, rfl⟩ fun f hf => ?_
  have h1 := h.refs.alloc hf
  simp only [wp_bind]
  refine filealloc_wp ?_ fun g hg => ?_
  · -- no second entry
    simp only [pipeallocBad, wp_bind]
    refine (fileclose_wp h1 (by simp)).mono fun _ t hc => ?_
    have hrefs := hc.refs
    rw [shift_shift f 1 (-1) (by decide)] at hrefs
    exact ⟨h.same_proc (hrefs.settled (.inl (by rw [hc.self]; simp))) hc.proc, hc.proc⟩
  · have hfg : f ≠ g := fun e => by
      subst e
      simp at hg
    have h2 := h1.alloc hg
    have hf2 : (((s.claim f).claim g).ftable f) = (s.claim f).ftable f := claim_of_ne _ hfg
    cases pi with
    | none =>
      -- no page
      simp only [pipeallocBad, wp_bind]
      refine (fileclose_wp h2 (by rw [hf2, claim_ref])).mono fun _ t hc => ?_
      have hgt : t.ftable g = ((s.claim f).claim g).ftable g := hc.other g hfg.symm
      rw [wp_bind]
      refine (fileclose_wp hc.refs (by rw [hgt, claim_ref])).mono fun _ u hc' => ?_
      have hrefs := hc'.refs
      rw [shift_comm g f 1 (-1) hfg.symm, shift_shift f 1 (-1) (by decide), shift_shift g 1 (-1) (by decide)] at hrefs
      have hfu : (u.ftable f).ref = 0 := by rw [hc'.other f hfg, hc.self, hf2, claim_ref]
      have hgu : (u.ftable g).ref = 0 := by rw [hc'.self, hgt, claim_ref]
      rw [wp_pure]
      exact ⟨h.same_proc ((hrefs.settled (.inl hgu)).settled (.inl hfu)) (hc'.proc.trans hc.proc),
        hc'.proc.trans hc.proc⟩
    | some pi =>
      simp only [file, setFile, wp_bind, wp_get, wp_pure, wp_modify]
      have hgref : ∀ ff, ((((((s.claim f).claim g).setPage pi (some ⟨true, true⟩)).setFile f ff).noteAcquired
          f).ftable g).ref = (((s.claim f).claim g).ftable g).ref :=
        fun ff => congrArg File.ref (setFile_of_ne _ ff hfg.symm)
      have hgheld : (((s.claim f).claim g).ftable g).held = none := by
        rw [claim_held]
        exact h1.counts.held_none hg
      have hfheld : (((s.claim f).claim g).ftable f).held = none := by
        rw [hf2, claim_held]
        exact h.refs.counts.held_none hf
      have hfpos : (((s.claim f).claim g).ftable f).ref ≠ 0 := by rw [hf2, claim_ref]; decide
      have hgpos : (((s.claim f).claim g).ftable g).ref ≠ 0 := by rw [claim_ref]; decide
      exact ⟨h2.pipe (hpi pi rfl) hfg hfheld hgheld rfl rfl rfl (hgref _) hfpos hgpos, rfl, hfg⟩

/-- Both entries are closed again. -/
theorem closeBoth_wp (h : Quiet s) {rf wf : FileId} (hne : rf ≠ wf)
    (hr : Refs t (shift (shift (fun _ => 0) rf 1) wf 1) [] []) (hp : (s.proc p).cwd ≠ none)
    (hcwd : (t.proc p).cwd = (s.proc p).cwd) (hother : ∀ q, q ≠ p → t.proc q = s.proc q) (a : α) :
    wp NoStop (do fileclose rf; fileclose wf; pure a : M α) (fun _ t => Quiet t) t := by
  rw [wp_bind]
  have hone : shift (shift (fun _ => 0) rf 1) wf 1 rf = 1 := by
    rw [shift_of_ne 1 hne, shift_self]
    rfl
  refine (fileclose_wp hr (hr.ref_pos (by rw [hone]))).mono fun _ u hc => ?_
  have hrefs := hc.refs
  rw [shift_comm wf rf 1 (-1) hne.symm, shift_shift rf 1 (-1) (by decide)] at hrefs
  rw [wp_bind]
  refine (fileclose_wp hrefs (hrefs.ref_pos (by simp))).mono fun _ v hc' => ?_
  have hrefs' := hc'.refs
  rw [shift_shift wf 1 (-1) (by decide)] at hrefs'
  have hproc : v.proc = t.proc := hc'.proc.trans hc.proc
  rw [wp_pure]
  exact h.of_refs hrefs' hp (by rw [hproc, hcwd]) fun q hq => by rw [hproc, hother q hq]

theorem sysPipe_wp (h : Quiet s) (hp : (s.proc p).cwd ≠ none)
    (hpi : ∀ x, pi = some x → s.page x = none) (copied : Bool) :
    wp NoStop (sysPipe p pi copied) (fun _ t => Quiet t) s := by
  unfold sysPipe
  rw [wp_bind]
  refine (pipealloc_wp h hpi).mono fun r t hr => ?_
  match r, hr with
  | none, hr => exact hr.1
  | some (rf, wf), hr =>
    have hcwd : (t.proc p).cwd = (s.proc p).cwd := by rw [hr.proc]
    have hother : ∀ q, q ≠ p → t.proc q = s.proc q := fun q _ => by rw [hr.proc]
    simp only [wp_bind]
    refine fdalloc_wp (by simpa only [wp_bind] using closeBoth_wp h hr.ne hr.refs hp hcwd hother none)
      fun fd0 hfd0 => ?_
    have h0 := hr.refs.attach hfd0 rf
    simp only [wp_bind]
    refine fdalloc_wp ?_ fun fd1 hfd1 => ?_
    · -- the second descriptor fails: the first is cleared
      simp only [setFd, wp_bind, wp_modify]
      have hback := h0.detach (setFd_ofile_self t p fd0 (some rf))
      rw [shift_shift rf (-1) 1 (by decide)] at hback
      have hclose := closeBoth_wp h hr.ne hback hp (by simp [hcwd])
        (fun q hq => by rw [setFd_proc_of_ne _ _ _ hq, setFd_proc_of_ne _ _ _ hq, hother q hq]) (none : Option (Fin NOFILE × Fin NOFILE))
      simpa only [wp_bind] using hclose
    · have h1 := h0.attach hfd1 wf
      have hne : fd0 ≠ fd1 := fun e => by
        rw [← e, setFd_ofile_self] at hfd1
        cases hfd1
      refine wp_ite (fun _ => ?_) fun _ => ?_
      · rw [wp_pure]
        rw [shift_comm wf rf 1 (-1) hr.ne.symm, shift_shift rf 1 (-1) (by decide), shift_shift wf 1 (-1) (by decide)] at h1
        exact h.of_refs h1 hp (by simp [hcwd]) fun q hq => by
          rw [setFd_proc_of_ne _ _ _ hq, setFd_proc_of_ne _ _ _ hq, hother q hq]
      · -- the descriptors cannot be copied out
        simp only [setFd, wp_bind, wp_modify]
        have hback := h1.detach (show _ = some rf by rw [setFd_ofile_of_ne _ _ _ hne, setFd_ofile_self])
        have hback' := hback.detach (show _ = some wf by rw [setFd_ofile_of_ne _ _ _ hne.symm, setFd_ofile_self])
        rw [shift_comm wf rf (-1) 1 hr.ne.symm, shift_shift rf (-1) 1 (by decide), shift_shift wf (-1) 1 (by decide)]
          at hback'
        have hclose := closeBoth_wp h hr.ne hback' hp (by simp [hcwd]) (fun q hq => by
          rw [setFd_proc_of_ne _ _ _ hq, setFd_proc_of_ne _ _ _ hq, setFd_proc_of_ne _ _ _ hq,
            setFd_proc_of_ne _ _ _ hq, hother q hq]) (none : Option (Fin NOFILE × Fin NOFILE))
        simpa only [wp_bind] using hclose

/-! ### Processes -/

/-- The state in the loop of `fork`: the descriptors of `fds` have not been copied. -/
structure Forking (s t : State) (p np : Pid) (fds : List (Fin NOFILE)) : Prop where
  refs : Refs t (fun _ => 0) [] []
  parent : t.proc p = s.proc p
  child : (t.proc np).cwd = (s.proc np).cwd
  todo : fds.Nodup ∧ ∀ fd ∈ fds, (t.proc np).ofile fd = none
  other : ∀ q, q ≠ np → t.proc q = s.proc q

theorem dupFiles_wp (h : Quiet s) {np : Pid} (hne : p ≠ np) (hnp : (s.proc np).cwd = none) :
    wp NoStop (dupFiles p np) (fun _ t => Forking s t p np []) s := by
  unfold dupFiles
  refine wp_forM (I := fun fds t => Forking s t p np fds) _ (fun fd fds t ht => ?_)
    ⟨h.refs, rfl, rfl, ⟨List.nodup_finRange _, fun fd _ => h.gone np hnp fd⟩, fun _ _ => rfl⟩
  obtain ⟨hnd, hfree⟩ := ht.todo
  rw [List.nodup_cons] at hnd
  simp only [wp_bind, wp_get]
  cases hfd : (t.proc p).ofile fd with
  | none => exact ⟨ht.refs, ht.parent, ht.child, ⟨hnd.2, fun x hx => hfree x (List.mem_cons_of_mem _ hx)⟩, ht.other⟩
  | some f =>
    have hpos : 1 ≤ (t.ftable f).ref := by
      have hslot := slots_pos hfd
      have href := ht.refs.counts.refs f
      omega
    simp only [wp_bind]
    refine filedup_wp hpos ?_
    rw [setFd, wp_modify]
    have hdup := (ht.refs.dup hpos List.not_mem_nil).attach
      (show _ = none from hfree fd List.mem_cons_self) f
    rw [shift_shift f 1 (-1) (by decide)] at hdup
    refine ⟨hdup, ?_, ?_, ⟨hnd.2, fun x hx => ?_⟩, fun q hq => ?_⟩
    · rw [setFd_proc_of_ne _ _ _ hne]
      exact ht.parent
    · rw [setFd_cwd]
      exact ht.child
    · have hx' : x ≠ fd := fun e => hnd.1 (e ▸ hx)
      rw [setFd_ofile_of_ne _ _ _ hx']
      exact hfree x (List.mem_cons_of_mem _ hx)
    · rw [setFd_proc_of_ne _ _ _ hq]
      exact ht.other q hq

theorem cwds_setCwd (s : State) (p : Pid) (v : Option EntryId) (ip : EntryId) :
    cwds (s.setCwd p v) ip + (decide ((s.proc p).cwd = some ip)).toNat = cwds s ip + (decide (v = some ip)).toNat := by
  have hfun : (fun q => ((s.setCwd p v).proc q).cwd) = update (fun q => (s.proc q).cwd) p v := by
    funext q
    by_cases hq : q = p
    · subst hq
      simp [State.setCwd]
    · simp [State.setCwd, hq]
  unfold cwds
  rw [hfun]
  exact count_update (fun q => (s.proc q).cwd) (fun v => decide (v = some ip)) p v

theorem slots_setCwd (s : State) (p : Pid) (v : Option EntryId) (f : FileId) :
    slots (s.setCwd p v) f = slots s f := by
  have hfun : (fun x : Pid × Fin NOFILE => ((s.setCwd p v).proc x.1).ofile x.2) =
      fun x => (s.proc x.1).ofile x.2 := by
    funext x
    by_cases hx : x.1 = p
    · simp [State.setCwd, hx]
    · simp [State.setCwd, hx]
  rw [slots, hfun, slots]

/-- A process changes directories, with the references that are in hand. -/
theorem Refs.setCwd (h : Refs s δ fresh mine) (p : Pid) (v : Option EntryId) {mine' : List EntryId}
    (hmine : ∀ ip, mine.count ip + (decide ((s.proc p).cwd = some ip)).toNat =
      mine'.count ip + (decide (v = some ip)).toNat) : Refs (s.setCwd p v) δ fresh mine' := by
  refine ⟨⟨fun f => ?_, h.counts.blank, h.counts.typed⟩, h.holds.hist, fun ip => ?_, h.holds.ends⟩
  · rw [slots_setCwd]
    exact h.counts.refs f
  · have hcwds := cwds_setCwd s p v ip
    have hip := h.holds.inodes ip
    have hm := hmine ip
    show s.iref ip = holders s (.inode ip) + cwds (s.setCwd p v) ip + mine'.count ip
    omega

theorem fork_wp (h : Quiet s) (hp : (s.proc p).cwd ≠ none) {np : Option Pid}
    (hnp : ∀ q, np = some q → (s.proc q).cwd = none) : wp NoStop (fork p np) (fun _ t => Quiet t) s := by
  cases np with
  | none => exact h
  | some np =>
    have hfree := hnp np rfl
    have hne : p ≠ np := fun e => hp (e ▸ hfree)
    simp only [fork, wp_bind]
    refine (dupFiles_wp h hne hfree).mono fun _ t ht => ?_
    rw [wp_bind, wp_get, ht.parent]
    cases hcwd : (s.proc p).cwd with
    | none => exact absurd hcwd hp
    | some cwd =>
      simp only [idup, wp_bind, wp_modify, wp_pure]
      have hdup : Refs (t.setIref cwd (t.iref cwd + 1)) (fun _ => 0) [] [cwd] :=
        ⟨⟨ht.refs.counts.refs, ht.refs.counts.blank, ht.refs.counts.typed⟩, ht.refs.holds.idup cwd⟩
      have hnone : ((t.setIref cwd (t.iref cwd + 1)).proc np).cwd = none := ht.child.trans hfree
      refine ⟨hdup.setCwd np (some cwd) fun ip => ?_, fun q hq fd => ?_⟩
      · rw [hnone]
        by_cases hip : ip = cwd
        · subst hip
          simp
        · simp [Ne.symm hip]
      · have hqn : q ≠ np := fun e => by
          subst e
          simp [State.setCwd] at hq
        have hproc : ((t.setIref cwd (t.iref cwd + 1)).setCwd np (some cwd)).proc q = s.proc q :=
          (update_of_ne hqn ..).trans (ht.other q hqn)
        rw [hproc] at hq ⊢
        exact h.gone q hq fd

/-- The state in the loop of `exit`: the descriptors of `fds` have not been closed. -/
structure Exiting (s t : State) (p : Pid) (fds : List (Fin NOFILE)) : Prop where
  refs : Refs t (fun _ => 0) [] []
  cwd : (t.proc p).cwd = (s.proc p).cwd
  closed : ∀ fd, fd ∈ fds ∨ (t.proc p).ofile fd = none
  other : ∀ q, q ≠ p → t.proc q = s.proc q

theorem closeFiles_wp (h : Quiet s) : wp NoStop (closeFiles p) (fun _ t => Exiting s t p []) s := by
  unfold closeFiles
  refine wp_forM (I := fun fds t => Exiting s t p fds) _ (fun fd fds t ht => ?_)
    ⟨h.refs, rfl, fun fd => .inl (List.mem_finRange fd), fun _ _ => rfl⟩
  simp only [wp_bind, wp_get]
  cases hfd : (t.proc p).ofile fd with
  | none =>
    refine ⟨ht.refs, ht.cwd, fun x => ?_, ht.other⟩
    by_cases hx : x = fd
    · exact .inr (hx ▸ hfd)
    · exact (ht.closed x).imp_left fun hin => (List.mem_cons.mp hin).resolve_left hx
  | some f =>
    have hpos : 1 ≤ (t.ftable f).ref := by
      have hslot := slots_pos hfd
      have href := ht.refs.counts.refs f
      omega
    simp only [wp_bind]
    refine (fileclose_wp ht.refs hpos).mono fun _ u hc => ?_
    rw [setFd, wp_modify]
    -- the slot is cleared after the count has been lowered
    have hback := hc.refs.detach (show _ = some f by rw [hc.proc]; exact hfd)
    rw [shift_shift f (-1) 1 (by decide)] at hback
    refine ⟨hback, ?_, fun x => ?_, fun q hq => ?_⟩
    · rw [setFd_cwd, hc.proc]
      exact ht.cwd
    · by_cases hx : x = fd
      · subst hx
        exact .inr (setFd_ofile_self ..)
      · rw [setFd_ofile_of_ne _ _ _ hx, hc.proc]
        exact (ht.closed x).imp_left fun hin => (List.mem_cons.mp hin).resolve_left hx
    · rw [setFd_proc_of_ne _ _ _ hq, hc.proc]
      exact ht.other q hq

theorem exit_wp (h : Quiet s) (hp : (s.proc p).cwd ≠ none) (h0 : p ≠ 0) :
    wp NoStop (exit p) (fun _ t => Quiet t) s := by
  unfold exit
  rw [if_neg h0, wp_bind]
  refine (closeFiles_wp h).mono fun _ t ht => ?_
  rw [wp_bind, wp_get, ht.cwd]
  cases hcwd : (s.proc p).cwd with
  | none => exact absurd hcwd hp
  | some cwd =>
    simp only [iput, wp_bind, wp_modify]
    -- the reference of `p->cwd` is in hand when it is dropped
    have hcwd' : (t.proc p).cwd = some cwd := ht.cwd.trans hcwd
    have hloose : Refs (t.setCwd p none) (fun _ => 0) [] [cwd] := ht.refs.setCwd p none fun ip => by
      rw [hcwd']
      by_cases hip : ip = cwd
      · subst hip
        simp
      · simp [Ne.symm hip]
    have hput := hloose.holds.iput
    refine ⟨⟨⟨hloose.counts.refs, hloose.counts.blank, hloose.counts.typed⟩, hput⟩, fun q hq fd => ?_⟩
    by_cases hqp : q = p
    · subst hqp
      have hclosed := (ht.closed fd).resolve_left List.not_mem_nil
      simpa [State.setCwd, State.setIref] using hclosed
    · have hproc : ((t.setIref cwd (t.iref cwd - 1)).setCwd p none).proc q = s.proc q :=
        (update_of_ne hqp ..).trans (ht.other q hqp)
      rw [hproc] at hq ⊢
      exact h.gone q hq fd

/-! ### Runs -/

/-- The result is not used. -/
theorem drop_wp {m : M α} {Q : State → Prop} (h : wp E m (fun _ t => Q t) s) :
    wp E (do let _ ← m; pure ()) (fun _ t => Q t) s := by
  rw [wp_bind]
  exact h

theorem Call.run_wp (h : Quiet s) {c : Call} (hok : c.ok s p = true) : wp NoStop (c.run p) (fun _ t => Quiet t) s := by
  obtain ⟨hsome, hc⟩ := Bool.and_eq_true_iff.mp hok
  have hp : (s.proc p).cwd ≠ none := Option.isSome_iff_ne_none.mp hsome
  cases c with
  | «open» found omode => exact drop_wp (sysOpen_wp h hp found omode)
  | pipe pi copied =>
    refine drop_wp (sysPipe_wp h hp (fun x hx => ?_) copied)
    subst hx
    exact Option.isNone_iff_eq_none.mp hc
  | dup fd => exact drop_wp (sysDup_wp h hp fd)
  | close fd => exact drop_wp (sysClose_wp h hp fd)
  | fork np =>
    refine drop_wp (fork_wp h hp fun q hq => ?_)
    subst hq
    exact Option.isNone_iff_eq_none.mp hc
  | exit => exact exit_wp h hp (by simpa using hc)

variable {a : Pid × Call}

theorem Quiet.step (h : Quiet s) (hst : step s a = some t) : Quiet t := by
  unfold Ftable.step at hst
  split at hst
  · rename_i hok
    have hwp := Call.run_wp h hok
    unfold wp at hwp
    cases hrun : a.2.run a.1 s with
    | ok r =>
      rw [hrun] at hst hwp
      exact Option.some.inj hst ▸ hwp
    | error e =>
      rw [hrun] at hst
      cases hst
  · cases hst

/-- Every call returns. -/
theorem Quiet.returns (h : Quiet s) (hok : a.2.ok s a.1 = true) :
    (Ftable.step s a).isSome = true := by
  have hwp := Call.run_wp h hok
  unfold wp at hwp
  unfold Ftable.step
  rw [if_pos hok]
  cases hrun : a.2.run a.1 s with
  | ok r => rfl
  | error e =>
    rw [hrun] at hwp
    exact hwp.elim

theorem quiet_boot : Quiet boot where
  refs := by
    have hheld : ∀ x, holders boot x = 0 := fun x => by simp [holders, count, boot, File.held]
    refine ⟨⟨fun f => ?_, fun _ _ => rfl, fun _ h => absurd rfl h⟩, fun _ => rfl, fun ip => ?_, fun pi w => hheld _⟩
    · simp [slots, count, boot]
    · rw [hheld]
      revert ip
      decide
  gone p _ fd := rfl

variable {as : List (Pid × Call)}

theorem Run.quiet (hrun : Run as s) : Quiet s :=
  System.Run.step_invariant (fun _ _ _ h _ hst => h.step hst) hrun quiet_boot

/-- Calls do not panic in a state that calls lead to. -/
theorem calls_return (hrun : Run as s) (a : Pid × Call) (hok : a.2.ok s a.1 = true) : (step s a).isSome = true :=
  hrun.quiet.returns hok

/-- A process opens a file and a pipe, forks, and exits in the child; then the parent closes the ends of
    the pipe. -/
def twoProcesses : List (Pid × Call) :=
  [(0, .open (some ⟨3, 2, 0, 0⟩) 2), (0, .pipe (some 7) true), (0, .dup 0), (0, .fork (some 1)), (1, .close 1),
   (1, .exit), (0, .close 1), (0, .pipe (some 8) false)]

/-- When the child has closed an end of the pipe, it may exit, and its parent may close that end too. -/
theorem calls_return_two : ∃ s, Run (twoProcesses.take 5) s ∧ slots s 0 = 4 ∧
    (step s (1, .exit)).isSome = true ∧ (step s (0, .close 1)).isSome = true := by
  have hexec : ((System.ofStep step).exec (fun _ _ => True) boot (twoProcesses.take 5)).any (fun s =>
      decide (slots s 0 = 4) && (Call.ok s 1 .exit && Call.ok s 0 (.close 1))) = true := by
    decide +kernel
  obtain ⟨s, hs, hok⟩ := (Option.any_eq_true _ _).mp hexec
  rw [Bool.and_eq_true, Bool.and_eq_true] at hok
  have hrun : Run (twoProcesses.take 5) s := System.run_of_exec hs
  exact ⟨s, hrun, of_decide_eq_true hok.1, calls_return hrun (1, .exit) hok.2.1, calls_return hrun (0, .close 1) hok.2.2⟩

/-- Between calls: an entry's count is the number of its slots; a free entry has no type and no slot; what
    an entry has acquired it has released once, apart from what it holds while it has slots; inodes are
    counted by the entries and the current directories; and a page is that of a pipe while an entry with
    slots is an end of it, each end having one entry at most. -/
theorem file_refs_exact (hrun : Run as s) :
    (∀ f, (s.ftable f).ref = slots s f) ∧
    (∀ f, (s.ftable f).ref = 0 → (s.ftable f).type = .none ∧ ∀ p fd, (s.proc p).ofile fd ≠ some f) ∧
    (∀ f, if slots s f = 0 then s.acquired f = s.released f
      else ∃ x, (s.ftable f).held = some x ∧ s.acquired f = s.released f ++ [x]) ∧
    (∀ ip, s.iref ip = holders s (.inode ip) + cwds s ip) ∧
    (∀ pi, (s.page pi ≠ none ↔ ∃ f w, 0 < slots s f ∧ (s.ftable f).held = some (.pipe pi w)) ∧
      ∀ w, holders s (.pipe pi w) ≤ 1) := by
  have h := hrun.quiet
  have hrefs : ∀ f, (s.ftable f).ref = slots s f := fun f => by
    have hf := h.refs.counts.refs f
    omega
  refine ⟨hrefs, fun f hf => ⟨h.refs.counts.blank f hf, fun p fd hfd => ?_⟩, fun f => ?_, fun ip => ?_, fun pi => ?_⟩
  · have hpos := slots_pos hfd
    have hf' := hrefs f
    omega
  · have hhist := h.refs.holds.hist f
    by_cases hf : slots s f = 0
    · rw [if_pos hf]
      have hnone := h.refs.counts.held_none (by rw [hrefs f, hf])
      rwa [hnone, Option.toList_none, List.append_nil] at hhist
    · rw [if_neg hf]
      cases hheld : (s.ftable f).held with
      | none => exact absurd (held_eq_none.mp hheld) (h.refs.counts.typed f (by rw [hrefs f]; exact hf) List.not_mem_nil)
      | some x => exact ⟨x, rfl, by rw [hhist, hheld]; rfl⟩
  · have hip := h.refs.holds.inodes ip
    simpa using hip
  · have hends := h.refs.holds.ends pi
    have hslots : ∀ f w, (s.ftable f).held = some (.pipe pi w) → 0 < slots s f := fun f w hf => by
      rw [← hrefs f]
      refine Nat.pos_of_ne_zero fun h0 => ?_
      rw [h.refs.counts.held_none h0] at hf
      cases hf
    unfold Ends at hends
    cases hP : s.page pi with
    | none =>
      rw [hP] at hends
      refine ⟨⟨fun hne => absurd rfl hne, ?_⟩, fun w => by rw [hends w]; exact Nat.zero_le 1⟩
      rintro ⟨f, w, _, hf⟩
      have htest := count_eq_zero (hends w) f
      simp [hf] at htest
    | some P =>
      rw [hP] at hends
      obtain ⟨hr, hw, hopen⟩ := hends
      have hone : ∀ w, holders s (.pipe pi w) ≤ 1 := fun w => by
        cases w with
        | false => rw [hr]; exact Bool.toNat_le _
        | true => rw [hw]; exact Bool.toNat_le _
      have hentry : ∃ w, 0 < holders s (.pipe pi w) := by
        cases hro : P.readopen with
        | true => exact ⟨false, by rw [hr, hro]; decide⟩
        | false =>
          have hwo : P.writeopen = true := by simpa [hro] using hopen
          exact ⟨true, by rw [hw, hwo]; decide⟩
      refine ⟨⟨fun _ => ?_, fun _ => nofun⟩, hone⟩
      obtain ⟨w, hpos⟩ := hentry
      obtain ⟨f, hf⟩ := exists_of_count_pos hpos
      have hheld : (s.ftable f).held = some (.pipe pi w) := of_decide_eq_true hf
      exact ⟨f, w, hslots f w hheld, hheld⟩

theorem file_refs_exact_two : ∃ s, Run twoProcesses s ∧ (s.ftable 0).ref = 2 ∧ slots s 0 = 2 ∧ s.page 7 ≠ none ∧
    ∃ f w, 0 < slots s f ∧ (s.ftable f).held = some (.pipe 7 w) := by
  have hexec : ((System.ofStep step).exec (fun _ _ => True) boot twoProcesses).any (fun s =>
      decide ((s.ftable 0).ref = 2 ∧ s.page 7 ≠ none)) = true := by
    decide +kernel
  obtain ⟨s, hs, hres⟩ := (Option.any_eq_true _ _).mp hexec
  obtain ⟨href, hpage⟩ := of_decide_eq_true hres
  have hrun : Run twoProcesses s := System.run_of_exec hs
  obtain ⟨hrefs, _, _, _, hpipes⟩ := file_refs_exact hrun
  exact ⟨s, hrun, href, by rw [← hrefs, href], hpage, (hpipes 7).1.mp hpage⟩

end Xv6.Ftable
