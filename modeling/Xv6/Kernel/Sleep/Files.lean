import Xv6.Kernel.Sleep.Held

/-! Descriptors of pipes.

    A call on a pipe is made through a descriptor, which stays open while the call is in progress. The
    end of a pipe is closed by the process that gives up the last descriptor for it. -/

namespace Xv6.Sleep

open Procs (Slot)
open State Function

variable {nc : Nat} {s t : State nc} {c : Fin nc} {q r : Slot} {u : Procs.State nc}

/-- The end of the pipe that the thread works on. -/
def Pos.file : Pos → Option (PipeId × End)
  | .enter k | .test k | .nap k | .unlock k | .asleep k | .wakeup _ _ (.nap k) => k.file
  | .put pi .. => some (pi, .write)
  | .copy pi .. => some (pi, .read)
  | _ => none

structure Files (s : State nc) : Prop where
  used : ∀ q x, (s.pos q).file = some x → x ∈ s.ofile q
  opened : ∀ q x, x ∈ s.ofile q → (s.pipe x.1).isOpen x.2 = true
  closing : ∀ q x, s.pos q = .close x → (s.pipe x.1).isOpen x.2 = true ∧ ∀ r, x ∉ s.ofile r
  sole : ∀ q r x, s.pos q = .close x → s.pos r = .close x → q = r

@[simp] theorem isOpen_put (p : Pipe) (q : Slot) (ch : UInt8) (e : End) : (p.put q ch).isOpen e = p.isOpen e := by
  cases e <;> rfl

@[simp] theorem isOpen_take (p : Pipe) (e : End) : p.take.isOpen e = p.isOpen e := by cases e <;> rfl

@[simp] theorem isOpen_give (p : Pipe) (q : Slot) (src : List UInt8) (e : End) :
    (p.give q src).isOpen e = p.isOpen e := by cases e <;> rfl

@[simp] theorem isOpen_alloc (p : Pipe) (e : End) : p.alloc.isOpen e = true := by cases e <;> rfl

theorem isOpen_shut {p : Pipe} {e e' : End} (h : e' ≠ e) : (p.shut e).isOpen e' = p.isOpen e' := by
  cases e <;> cases e' <;> first | rfl | exact absurd rfl h

/-- Descriptors of one process change: those it had, some more of pipes that are open. -/
theorem mem_update {x : PipeId × End} {f : Slot → List (PipeId × End)} {l : List (PipeId × End)}
    (h : x ∈ update f q l r) : r = q ∧ x ∈ l ∨ x ∈ f r := by
  by_cases hr : r = q
  · subst hr
    rw [update_self] at h
    exact .inl ⟨rfl, h⟩
  · rw [update_of_ne hr] at h
    exact .inr h

namespace Files

theorem congr (h : Files s) (hpos : t.pos = s.pos) (hpipe : t.pipe = s.pipe) (hofile : t.ofile = s.ofile) :
    Files t where
  used := by rw [hpos, hofile]; exact h.used
  opened := by rw [hofile, hpipe]; exact h.opened
  closing := by rw [hpos, hofile, hpipe]; exact h.closing
  sole := by rw [hpos]; exact h.sole

/-- The thread of `q` goes on to `k`, and no end of a pipe is closed. -/
theorem goto (h : Files s) {k : Pos} (hpos : t.pos = update s.pos q k) (hofile : t.ofile = s.ofile)
    (hopen : ∀ i e, (t.pipe i).isOpen e = (s.pipe i).isOpen e) (hk : ∀ x, k ≠ .close x)
    (hfile : ∀ x, k.file = some x → x ∈ s.ofile q) : Files t where
  used r x hx := by
    rw [hofile]
    rw [hpos] at hx
    by_cases hr : r = q
    · subst hr
      rw [update_self] at hx
      exact hfile x hx
    · rw [update_of_ne hr] at hx
      exact h.used r x hx
  opened r x hx := by
    rw [hopen]
    exact h.opened r x (hofile ▸ hx)
  closing r x hx := by
    rw [hopen, hofile]
    rw [hpos] at hx
    by_cases hr : r = q
    · subst hr
      rw [update_self] at hx
      exact absurd hx (hk x)
    · rw [update_of_ne hr] at hx
      exact h.closing r x hx
  sole r r' x hx hx' := by
    rw [hpos] at hx hx'
    by_cases hr : r = q
    · subst hr
      rw [update_self] at hx
      exact absurd hx (hk x)
    · by_cases hr' : r' = q
      · subst hr'
        rw [update_self] at hx'
        exact absurd hx' (hk x)
      · rw [update_of_ne hr] at hx
        rw [update_of_ne hr'] at hx'
        exact h.sole r r' x hx hx'

/-- The process of `q`, which is in no call, gets the descriptors `l`. -/
theorem setFiles (h : Files s) (hq : s.pos q = .out) {l : List (PipeId × End)}
    (hl : ∀ x ∈ l, ∃ r, x ∈ s.ofile r) : Files (s.setFiles q l) where
  used r x hx := by
    have hr : r ≠ q := by
      rintro rfl
      rw [setFiles_pos, hq] at hx
      cases hx
    rw [setFiles_ofile, update_of_ne hr]
    exact h.used r x hx
  opened r x hx := by
    rcases mem_update hx with ⟨-, hx⟩ | hx
    · obtain ⟨r', hr'⟩ := hl x hx
      exact h.opened r' x hr'
    · exact h.opened r x hx
  closing r x hx := by
    refine ⟨(h.closing r x hx).1, fun r' hr' => ?_⟩
    rcases mem_update hr' with ⟨-, hx'⟩ | hx'
    · obtain ⟨r'', hr''⟩ := hl x hx'
      exact (h.closing r x hx).2 r'' hr''
    · exact (h.closing r x hx).2 r' hx'
  sole := h.sole

theorem close (h : Files s) {x : PipeId × End} (hq : s.pos q = .out) (hx : x ∈ s.ofile q)
    (hlast : ∀ r, x ∉ (s.setFiles q ((s.ofile q).erase x)).ofile r) :
    Files ((s.setFiles q ((s.ofile q).erase x)).goto q (.close x)) := by
  have h' := h.setFiles hq (l := (s.ofile q).erase x) fun y hy => ⟨q, List.mem_of_mem_erase hy⟩
  have hnone : ∀ r, s.pos r ≠ .close x := fun r hr => (h.closing r x hr).2 q hx
  refine ⟨fun r y hy => ?_, h'.opened, fun r y hy => ?_, fun r r' y hy hy' => ?_⟩
  · by_cases hr : r = q
    · subst hr
      rw [goto_pos, update_self] at hy
      cases hy
    · rw [goto_pos, update_of_ne hr] at hy
      exact h'.used r y hy
  · by_cases hr : r = q
    · subst hr
      rw [goto_pos, update_self] at hy
      obtain rfl := Pos.close.inj hy
      exact ⟨h.opened r x hx, hlast⟩
    · rw [goto_pos, update_of_ne hr] at hy
      exact h'.closing r y hy
  · have hq' : ∀ r, r ≠ q → ((s.setFiles q ((s.ofile q).erase x)).goto q (.close x)).pos r ≠ .close x :=
      fun r hr hx => hnone r (by simpa [hr] using hx)
    by_cases hyx : y = x
    · subst hyx
      by_contra hne
      by_cases hr : r = q
      · exact hq' r' (fun h => hne (hr.trans h.symm)) hy'
      · exact hq' r hr hy
    · have hr : ∀ r, ((s.setFiles q ((s.ofile q).erase x)).goto q (.close x)).pos r = .close y →
          s.pos r = .close y := by
        intro r hr
        by_cases hrq : r = q
        · subst hrq
          rw [goto_pos, update_self] at hr
          exact absurd (Pos.close.inj hr).symm hyx
        · simpa [hrq] using hr
      exact h.sole r r' y (hr r hy) (hr r' hy')

theorem pipealloc (h : Files s) {pi : PipeId} (hq : s.pos q = .out) (hclosed : ∀ e, (s.pipe pi).isOpen e = false) :
    Files ((s.setPipe pi (s.pipe pi).alloc).setFiles q ((pi, .read) :: (pi, .write) :: s.ofile q)) := by
  have hopen : ∀ x : PipeId × End, (s.pipe x.1).isOpen x.2 = true →
      ((s.setPipe pi (s.pipe pi).alloc).pipe x.1).isOpen x.2 = true := by
    intro x hx
    have hne : x.1 ≠ pi := by
      rintro rfl
      rw [hclosed] at hx
      cases hx
    simpa [hne] using hx
  have hnew : ∀ {e : End} {r y}, s.pos r = .close y → y ≠ (pi, e) := by
    rintro e r y hr rfl
    have := (h.closing r _ hr).1
    rw [hclosed] at this
    cases this
  refine ⟨fun r x hx => ?_, fun r x hx => ?_, fun r x hx => ?_, h.sole⟩
  · have hr : r ≠ q := by
      rintro rfl
      rw [setFiles_pos, setPipe_pos, hq] at hx
      cases hx
    rw [setFiles_ofile, update_of_ne hr]
    exact h.used r x hx
  · rcases mem_update hx with ⟨-, hx⟩ | hx
    · simp only [List.mem_cons] at hx
      rcases hx with rfl | rfl | hx
      · simp
      · simp
      · exact hopen x (h.opened q x hx)
    · exact hopen x (h.opened r x hx)
  · refine ⟨hopen x (h.closing r x hx).1, fun r' hr' => ?_⟩
    rcases mem_update hr' with ⟨-, hx'⟩ | hx'
    · simp only [List.mem_cons] at hx'
      rcases hx' with hx' | hx' | hx'
      · exact hnew hx hx'
      · exact hnew hx hx'
      · exact (h.closing r x hx).2 q hx'
    · exact (h.closing r x hx).2 r' hx'

/-- `pipeclose` closes its end. -/
theorem shut (h : Files s) {x : PipeId × End} {k : Pos} (hq : s.pos q = .close x)
    (hpos : t.pos = update s.pos q k) (hofile : t.ofile = s.ofile)
    (hpipe : t.pipe = update s.pipe x.1 ((s.pipe x.1).shut x.2)) (hk : ∀ y, k ≠ .close y)
    (hfile : k.file = none) : Files t := by
  have hother : ∀ y : PipeId × End, y ≠ x → (t.pipe y.1).isOpen y.2 = (s.pipe y.1).isOpen y.2 := by
    intro y hy
    rw [hpipe]
    by_cases hi : y.1 = x.1
    · rw [hi, update_self]
      exact isOpen_shut fun he => hy (Prod.ext hi he)
    · rw [update_of_ne hi]
  have hr : ∀ {r y}, t.pos r = .close y → r ≠ q ∧ s.pos r = .close y := by
    intro r y hy
    have hne : r ≠ q := by
      rintro rfl
      rw [hpos, update_self] at hy
      exact hk y hy
    exact ⟨hne, by rwa [hpos, update_of_ne hne] at hy⟩
  refine ⟨fun r y hy => ?_, fun r y hy => ?_, fun r y hy => ?_, fun r r' y hy hy' => h.sole r r' y (hr hy).2 (hr hy').2⟩
  · have hne : r ≠ q := by
      rintro rfl
      rw [hpos, update_self, hfile] at hy
      cases hy
    rw [hpos, update_of_ne hne] at hy
    rw [hofile]
    exact h.used r y hy
  · rw [hofile] at hy
    rw [hother y (by rintro rfl; exact (h.closing q y hq).2 r hy)]
    exact h.opened r y hy
  · obtain ⟨hne, hy⟩ := hr hy
    rw [hofile, hother y (by rintro rfl; exact hne (h.sole r q y hy hq))]
    exact h.closing r y hy

theorem go (h : Files s) {k : Pos} (hk : s.pos q = k) (ht : Go s c q k t) : Files t := by
  have hsame : ∀ x, k.file = some x → x ∈ s.ofile q := fun x hx => h.used q x (hk ▸ hx)
  have hset : ∀ {pi : PipeId} {p : Pipe}, (∀ e, p.isOpen e = (s.pipe pi).isOpen e) → ∀ i e,
      (update s.pipe pi p i).isOpen e = (s.pipe i).isOpen e := by
    intro pi p hp i e
    by_cases hi : i = pi
    · subst hi
      rw [update_self, hp]
    · rw [update_of_ne hi]
  cases ht with
  | @enter j | @wakeup _ _ j =>
    refine h.goto rfl rfl (fun _ _ => rfl) nofun fun x hx => hsame x ?_
    cases j <;> exact hx
  | relock | nap | pause | unlock | writeFull | writeRoom | readSome =>
    exact h.goto rfl rfl (fun _ _ => rfl) nofun fun x hx => hsame x hx
  | close => exact h.shut hk rfl rfl rfl nofun rfl
  | fail | writeDone | consoleRet | consoleMore | sleepDone | putFail | copyDone | ret =>
    exact h.goto rfl rfl (fun _ _ => rfl) nofun nofun
  | put => exact h.goto rfl rfl (hset (isOpen_put _ _ _)) nofun fun x hx => hsame x hx
  | take => exact h.goto rfl rfl (hset (isOpen_take _)) nofun fun x hx => hsame x hx
  | takeLast => exact h.goto rfl rfl (hset (isOpen_take _)) nofun nofun
  | @woken ch i j =>
    cases j with
    | nap j => exact h.goto rfl rfl (fun _ _ => rfl) nofun fun x hx => hsame x hx
    | ret l v => exact h.goto rfl rfl (fun _ _ => rfl) nofun nofun

theorem step (h : Files s) (hs : Sound s) {a : Act nc} (ht : Step s a t) : Files t := by
  cases ht with
  | under | interrupt => exact h.congr rfl rfl rfl
  | @fork c q i ok u hl hpc hu =>
    have hdead := hs.coherent.dead_of_unused (hs.coherent.unused_of_making (by rw [hpc]; rfl))
    have hout : s.pos i = .out := out_of_dead (hdead ▸ hs.fits i) rfl
    have hu' : Files (s.under u) := h.congr rfl rfl rfl
    exact hu'.setFiles hout fun x hx => ⟨q, hx⟩
  | pipealloc hq hpos hread hwrite =>
    exact h.pipealloc hpos fun e => by cases e; exacts [hread, hwrite]
  | @dup c q x hpos hx =>
    refine h.setFiles hpos fun y hy => ⟨q, ?_⟩
    rcases List.mem_cons.mp hy with rfl | hy
    · exact hx
    · exact hy
  | @drop c q x hpos hx => exact h.setFiles hpos fun y hy => ⟨q, List.mem_of_mem_erase hy⟩
  | close hpos hpc hx hlast => exact h.close hpos hx hlast
  | @pipewrite c q pi src n hpos hpc hx =>
    refine h.goto rfl rfl (fun i e => ?_) nofun fun x hx' => Option.some.inj hx' ▸ hx
    by_cases hi : i = pi
    · subst hi
      simp
    · simp [hi]
  | enter hpos hpc hx => exact h.goto rfl rfl (fun _ _ => rfl) nofun hx
  | go hq hpc hgo => exact h.go rfl hgo
  | handle hk hh => cases hh <;> exact h.congr rfl rfl rfl

end Files

theorem files_boot : Files (boot nc) where
  used _ _ := nofun
  opened _ _ := nofun
  closing _ _ := nofun
  sole _ _ _ := nofun

end Xv6.Sleep
