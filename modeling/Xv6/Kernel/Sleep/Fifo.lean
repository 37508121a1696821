import Xv6.Schemes.Ring
import Xv6.Kernel.Sleep.Wakeups

/-! A pipe is a bounded queue.

    The counters of the pipe stand for the numbers of bytes put in and taken out since it was made, also
    after they have wrapped: `PIPESIZE` divides 2^32, and no more than `PIPESIZE` bytes are in the ring.
    What has been taken out comes first in what has been put in, and what a process has put in consists
    of initial pieces of the buffers it has passed to `pipewrite`, in the order of the calls. -/

namespace Xv6.Sleep

open Procs (Slot)
open State Function

variable {nc : Nat} {s t : State nc} {c : Fin nc} {q r : Slot} {u : Procs.State nc} {p : Pipe}

/-- The bytes that the process has put in. -/
def Pipe.bytes (p : Pipe) (q : Slot) : List UInt8 := (p.ins.filter (·.1 = q)).map Prod.snd

structure Fifo (p : Pipe) : Prop where
  nwrite : p.nwrite = UInt32.ofNat p.ins.length
  nread : p.nread = UInt32.ofNat p.outs.length
  ring : Ring.Holds PIPESIZE p.data (p.ins.map Prod.snd) p.outs.length
  outs : p.outs <+: p.ins.map Prod.snd

namespace Fifo

theorem le (h : Fifo p) : p.outs.length ≤ p.ins.length := by
  have := h.ring.le
  rwa [List.length_map] at this

theorem fits (h : Fifo p) : p.ins.length ≤ p.outs.length + 512 := by
  have := h.ring.fits
  rwa [List.length_map] at this

theorem full_iff (h : Fifo p) : p.full = true ↔ p.ins.length = p.outs.length + 512 := by
  unfold Pipe.full
  rw [decide_eq_true_eq, h.nwrite, h.nread]
  exact Ring.ofNat_eq_add_iff h.le (by have := h.fits; omega) (by decide)

theorem empty_iff (h : Fifo p) : p.empty = true ↔ p.outs.length = p.ins.length := by
  unfold Pipe.empty
  rw [decide_eq_true_eq, h.nwrite, h.nread]
  exact Ring.ofNat_eq_iff h.le (by have := h.fits; omega)

theorem distance (h : Fifo p) : (p.nwrite - p.nread).toNat ≤ PIPESIZE := by
  rw [h.nwrite, h.nread, Ring.toNat_sub h.le (by have := h.fits; omega)]
  have := h.fits
  unfold PIPESIZE
  omega

theorem put (h : Fifo p) (hroom : p.full = false) (q : Slot) (ch : UInt8) : Fifo (p.put q ch) := by
  have hlt : p.ins.length < p.outs.length + 512 := by
    have hne : ¬ p.ins.length = p.outs.length + 512 := fun heq => by
      rw [h.full_iff.mpr heq] at hroom
      cases hroom
    have := h.fits
    omega
  refine ⟨?_, h.nread, ?_, ?_⟩
  · show p.nwrite + 1 = UInt32.ofNat (p.ins ++ [(q, ch)]).length
    rw [h.nwrite, List.length_append]
    exact (UInt32.ofNat_add _ 1).symm
  · show Ring.Holds PIPESIZE (update p.data (p.nwrite.toNat % PIPESIZE) ch)
      ((p.ins ++ [(q, ch)]).map Prod.snd) p.outs.length
    rw [h.nwrite, Ring.toNat_mod (by decide), List.map_append, ← List.length_map]
    exact h.ring.push (by rwa [List.length_map]) ch
  · show p.outs <+: (p.ins ++ [(q, ch)]).map Prod.snd
    rw [List.map_append]
    exact h.outs.trans (List.prefix_append _ _)

theorem take (h : Fifo p) (hne : p.empty = false) : Fifo p.take := by
  have hlt : p.outs.length < (p.ins.map Prod.snd).length := by
    have hneq : ¬ p.outs.length = p.ins.length := fun heq => by
      rw [h.empty_iff.mpr heq] at hne
      cases hne
    have := h.le
    rw [List.length_map]
    omega
  obtain ⟨hget, hring⟩ := h.ring.pop hlt
  have hcell : p.data (p.nread.toNat % PIPESIZE) = p.data (p.outs.length % PIPESIZE) := by
    rw [h.nread, Ring.toNat_mod (by decide)]
  have hlen : p.take.outs.length = p.outs.length + 1 := List.length_append
  refine ⟨h.nwrite, ?_, ?_, ?_⟩
  · rw [hlen]
    show p.nread + 1 = _
    rw [h.nread]
    exact (UInt32.ofNat_add _ 1).symm
  · rw [hlen]
    exact hring
  · show p.outs ++ [p.data (p.nread.toNat % PIPESIZE)] <+: p.ins.map Prod.snd
    rw [hcell]
    have htake := List.prefix_iff_eq_take.mp h.outs
    rw [List.prefix_iff_eq_take, List.length_append, List.length_singleton, List.take_add_one, ← htake, hget]
    rfl

theorem alloc : Fifo p.alloc := ⟨rfl, rfl, .nil, List.nil_prefix⟩

theorem shut (h : Fifo p) (e : End) : Fifo (p.shut e) := by
  cases e <;> exact ⟨h.nwrite, h.nread, h.ring, h.outs⟩

end Fifo

/-! ### Writers -/

def Call.progress (pi : PipeId) : Call → Option (List UInt8 × Nat)
  | .write pj src _ i _ => if pj = pi then some (src, i) else none
  | _ => none

/-- The buffer that the thread is writing to the pipe, and how far it has got. -/
def Pos.writing (pi : PipeId) : Pos → Option (List UInt8 × Nat)
  | .enter k | .test k | .nap k | .unlock k | .asleep k | .wakeup _ _ (.nap k) => k.progress pi
  | .put pj src _ i _ => if pj = pi then some (src, i) else none
  | _ => none

variable {pi : PipeId}

theorem file_of_progress {k : Call} (h : k.progress pi ≠ none) : k.file = some (pi, .write) := by
  cases k with
  | write pj src n i told =>
    simp only [Call.progress] at h
    split at h
    · rename_i hj
      rw [← hj]
      rfl
    · exact absurd rfl h
  | _ => exact absurd rfl h

/-- A thread that writes to a pipe has its write end open. -/
theorem file_of_writing {k : Pos} (h : k.writing pi ≠ none) : k.file = some (pi, .write) := by
  cases k with
  | enter k | test k | nap k | unlock k | asleep k => exact file_of_progress h
  | wakeup ch i k =>
    cases k with
    | nap k => exact file_of_progress h
    | ret => exact absurd rfl h
  | put pj src n i told => exact file_of_progress (k := .write pj src n i told) h
  | _ => exact absurd rfl h

/-- What the process has put in consists of initial pieces of its buffers; the last one is the one
    that it is writing. -/
def Pieces (p : Pipe) (q : Slot) (w : Option (List UInt8 × Nat)) : Prop :=
  ∃ ls, List.Forall₂ (· <+: ·) ls (p.given q) ∧ p.bytes q = ls.flatten ∧
    ∀ src i, w = some (src, i) → ∃ ls' gs, ls = ls' ++ [src.take i] ∧ p.given q = gs ++ [src] ∧
      List.Forall₂ (· <+: ·) ls' gs

namespace Pieces

variable {w w' : Option (List UInt8 × Nat)}

theorem weaken (h : Pieces p q w) (hw : w' = none ∨ w' = w) : Pieces p q w' := by
  obtain ⟨ls, hls, hbytes, hlast⟩ := h
  refine ⟨ls, hls, hbytes, fun src i hsrc => ?_⟩
  rcases hw with rfl | rfl
  · cases hsrc
  · exact hlast src i hsrc

theorem congr {p' : Pipe} (h : Pieces p q w) (hins : p'.ins = p.ins) (hgiven : p'.given = p.given) :
    Pieces p' q w := by
  unfold Pieces Pipe.bytes
  rw [hins, hgiven]
  exact h

theorem give (h : Pieces p q w) (src : List UInt8) : Pieces (p.give q src) q (some (src, 0)) := by
  obtain ⟨ls, hls, hbytes, -⟩ := h
  refine ⟨ls ++ [[]], ?_, ?_, fun src' i hsrc => ⟨ls, p.given q, ?_, ?_, hls⟩⟩
  · simp only [Pipe.give, update_self]
    exact List.rel_append hls (.cons List.nil_prefix .nil)
  · rw [List.flatten_append]
    simpa [Pipe.bytes, Pipe.give] using hbytes
  · obtain ⟨rfl, rfl⟩ := Prod.mk.inj (Option.some.inj hsrc)
    rfl
  · obtain ⟨rfl, rfl⟩ := Prod.mk.inj (Option.some.inj hsrc)
    simp [Pipe.give]

theorem give_other (h : Pieces p r w) (hr : r ≠ q) (src : List UInt8) : Pieces (p.give q src) r w := by
  unfold Pieces at h ⊢
  simpa [Pipe.give, Pipe.bytes, hr] using h

theorem put {src : List UInt8} {i : Nat} {ch : UInt8} (h : Pieces p q (some (src, i))) (hch : src[i]? = some ch) :
    Pieces (p.put q ch) q (some (src, i + 1)) := by
  obtain ⟨ls, -, hbytes, hlast⟩ := h
  obtain ⟨ls', gs, rfl, hgiven, hls'⟩ := hlast src i rfl
  have hpiece : src.take (i + 1) = src.take i ++ [ch] := by
    rw [List.take_add_one, hch]
    rfl
  refine ⟨ls' ++ [src.take (i + 1)], ?_, ?_, fun src' i' hsrc => ⟨ls', gs, ?_, ?_, hls'⟩⟩
  · show List.Forall₂ _ _ (p.given q)
    rw [hgiven]
    exact List.rel_append hls' (.cons (List.take_prefix _ _) .nil)
  · have hnew : (p.put q ch).bytes q = p.bytes q ++ [ch] := by
      simp [Pipe.bytes, Pipe.put]
    rw [hnew, hbytes, hpiece]
    simp
  · obtain ⟨rfl, rfl⟩ := Prod.mk.inj (Option.some.inj hsrc)
    rfl
  · obtain ⟨rfl, rfl⟩ := Prod.mk.inj (Option.some.inj hsrc)
    exact hgiven

theorem put_other (h : Pieces p r w) (hr : r ≠ q) (ch : UInt8) : Pieces (p.put q ch) r w := by
  unfold Pieces at h ⊢
  simpa [Pipe.put, Pipe.bytes, hr.symm] using h

theorem alloc : Pieces p.alloc q none := ⟨[], .nil, rfl, nofun⟩

end Pieces

/-- Every pipe is a queue, and what a process puts in is in its own order. -/
structure Queues (s : State nc) : Prop where
  fifo : ∀ pi, Fifo (s.pipe pi)
  pieces : ∀ pi q, Pieces (s.pipe pi) q ((s.pos q).writing pi)

namespace Queues

variable {k : Pos}

/-- The bytes of the pipes are as before, and the thread of `q` goes on with its buffer or is done. -/
theorem goto (h : Queues s) (hpos : t.pos = update s.pos q k) (hfifo : ∀ pi, Fifo (t.pipe pi))
    (hins : ∀ pi, (t.pipe pi).ins = (s.pipe pi).ins) (hgiven : ∀ pi, (t.pipe pi).given = (s.pipe pi).given)
    (hk : ∀ pi, k.writing pi = none ∨ k.writing pi = (s.pos q).writing pi) : Queues t := by
  refine ⟨hfifo, fun pi r => ?_⟩
  refine ((h.pieces pi r).congr (hins pi) (hgiven pi)).weaken ?_
  rw [hpos]
  by_cases hr : r = q
  · subst hr
    rw [update_self]
    exact hk pi
  · rw [update_of_ne hr]
    exact .inr rfl

theorem pass (h : Queues s) (hpos : t.pos = update s.pos q k) (hpipe : t.pipe = s.pipe)
    (hk : ∀ pi, k.writing pi = none ∨ k.writing pi = (s.pos q).writing pi) : Queues t :=
  h.goto hpos (fun pi => by rw [hpipe]; exact h.fifo pi) (fun pi => by rw [hpipe]) (fun pi => by rw [hpipe]) hk

theorem congr (h : Queues s) (hpos : t.pos = s.pos) (hpipe : t.pipe = s.pipe) : Queues t :=
  ⟨by rw [hpipe]; exact h.fifo, by rw [hpos, hpipe]; exact h.pieces⟩

variable {pi : PipeId}

theorem fifo_update (h : Queues s) (hp : Fifo p) (pj : PipeId) :
    Fifo (update s.pipe pi p pj) := by
  by_cases hj : pj = pi
  · subst hj
    rwa [update_self]
  · rw [update_of_ne hj]
    exact h.fifo pj

/-- A change of one pipe that is no change of its bytes. -/
theorem proj_update {β : Type} (π : Pipe → β) (hp : π p = π (s.pipe pi)) (pj : PipeId) :
    π (update s.pipe pi p pj) = π (s.pipe pj) := by
  by_cases hj : pj = pi
  · subst hj
    rwa [update_self]
  · rw [update_of_ne hj]

variable {src : List UInt8} {n : Int32}

theorem put (h : Queues s) {i told : Nat} {ch : UInt8}
    (hk : s.pos q = .put pi src n i told) (hroom : (s.pipe pi).full = false) (hsrc : src[i]? = some ch) :
    Queues ((s.setPipe pi ((s.pipe pi).put q ch)).goto q (.test (.write pi src n (i + 1) told))) := by
  refine ⟨h.fifo_update ((h.fifo pi).put hroom q ch), fun pj r => ?_⟩
  have hr := h.pieces pj r
  rw [goto_pipe, setPipe_pipe, goto_pos]
  by_cases hrq : r = q
  · subst hrq
    rw [hk] at hr
    rw [update_self]
    by_cases hj : pj = pi
    · subst hj
      simp only [Pos.writing, Call.progress, if_true, update_self] at hr ⊢
      exact hr.put hsrc
    · simp only [Pos.writing, Call.progress, if_neg (Ne.symm hj), update_of_ne hj] at hr ⊢
      exact hr
  · rw [setPipe_pos, update_of_ne hrq]
    by_cases hj : pj = pi
    · subst hj
      rw [update_self]
      exact hr.put_other hrq ch
    · rwa [update_of_ne hj]

theorem give (h : Queues s) (hk : s.pos q = .out) :
    Queues ((s.setPipe pi ((s.pipe pi).give q src)).goto q (.enter (.write pi src n 0 0))) := by
  have hfifo := h.fifo pi
  refine ⟨h.fifo_update ⟨hfifo.nwrite, hfifo.nread, hfifo.ring, hfifo.outs⟩, fun pj r => ?_⟩
  have hr := h.pieces pj r
  rw [goto_pipe, setPipe_pipe, goto_pos]
  by_cases hrq : r = q
  · subst hrq
    rw [hk] at hr
    rw [update_self]
    by_cases hj : pj = pi
    · subst hj
      simp only [Pos.writing, Call.progress, if_true, update_self] at hr ⊢
      exact hr.give src
    · simp only [Pos.writing, Call.progress, if_neg (Ne.symm hj), update_of_ne hj] at hr ⊢
      exact hr
  · rw [setPipe_pos, update_of_ne hrq]
    by_cases hj : pj = pi
    · subst hj
      rw [update_self]
      exact hr.give_other hrq src
    · rwa [update_of_ne hj]

theorem pipealloc (h : Queues s) (hf : Files s) {l : List (PipeId × End)}
    (hclosed : ∀ e, (s.pipe pi).isOpen e = false) :
    Queues ((s.setPipe pi (s.pipe pi).alloc).setFiles q l) := by
  refine ⟨h.fifo_update .alloc, fun pj r => ?_⟩
  have hr := h.pieces pj r
  rw [setFiles_pipe, setPipe_pipe, setFiles_pos, setPipe_pos]
  by_cases hj : pj = pi
  · subst hj
    rw [update_self]
    -- nobody writes to a pipe that is closed
    have hnone : (s.pos r).writing pj = none := by
      by_contra hne
      have hopen := hf.opened r _ (hf.used r _ (file_of_writing hne))
      rw [hclosed] at hopen
      cases hopen
    rw [hnone]
    exact .alloc
  · rwa [update_of_ne hj]

theorem go (h : Queues s) (hr : Relies s) (hk : s.pos q = k) (ht : Go s c q k t) : Queues t := by
  have hsure := hr q
  rw [hk] at hsure
  have hsame : ∀ {k' : Pos}, (∀ pi, k'.writing pi = k.writing pi) → ∀ pi,
      k'.writing pi = none ∨ k'.writing pi = (s.pos q).writing pi := fun hw pi => .inr (by rw [hk, hw])
  cases ht with
  | relock | nap | pause | unlock | writeFull | writeRoom => exact h.pass rfl rfl (hsame fun _ => rfl)
  | @close x =>
    refine h.goto rfl (h.fifo_update ((h.fifo x.1).shut x.2)) (proj_update Pipe.ins ?_)
      (proj_update Pipe.given ?_) fun _ => .inl rfl
    · cases x.2 <;> rfl
    · cases x.2 <;> rfl
  | fail | writeDone | readSome | consoleRet | consoleMore | sleepDone | putFail | copyDone | ret =>
    exact h.pass rfl rfl fun _ => .inl rfl
  | put hsrc => exact h.put hk hsure.2 hsrc
  | take hne | takeLast hne =>
    exact h.goto rfl (h.fifo_update ((h.fifo _).take hne)) (proj_update Pipe.ins rfl) (proj_update Pipe.given rfl)
      fun _ => .inl rfl
  | @enter j | @wakeup _ _ j | @woken _ _ j => exact h.pass rfl rfl (hsame fun pi => by cases j <;> rfl)

theorem step (h : Queues s) (ht : Tidy s) {a : Act nc} (hstep : Step s a t) : Queues t := by
  cases hstep with
  | under | fork | dup | drop | interrupt => exact h.congr rfl rfl
  | pipealloc hq hpos hread hwrite => exact h.pipealloc ht.files fun e => by cases e; exacts [hread, hwrite]
  | close => exact h.pass rfl rfl fun _ => .inl rfl
  | pipewrite hpos => exact h.give hpos
  | @enter c q r hpos hpc hx hr =>
    refine h.pass rfl rfl fun _ => .inl ?_
    cases r with
    | pipewrite => exact absurd rfl (hr _ _ _ _ _)
    | _ => rfl
  | go hq hpc hgo => exact h.go ht.relies rfl hgo
  | handle hk hh => cases hh <;> exact h.congr rfl rfl

end Queues

theorem queues_boot : Queues (boot nc) where
  fifo _ := ⟨rfl, rfl, .nil, List.nil_prefix⟩
  pieces _ _ := ⟨[], .nil, rfl, nofun⟩

/-- A pipe is a bounded queue: no more than `PIPESIZE` bytes are in it, the bytes taken out come first in
    those put in, and what a process has put in are initial pieces of its buffers, in order. -/
theorem pipe_fifo {as : List (Act nc)} (hrun : Run (fun _ _ => True) (boot nc) as s) (pi : PipeId) :
    ((s.pipe pi).nwrite - (s.pipe pi).nread).toNat ≤ PIPESIZE ∧
    (s.pipe pi).outs <+: (s.pipe pi).ins.map Prod.snd ∧
    ∀ q, ∃ pieces, List.Forall₂ (· <+: ·) pieces ((s.pipe pi).given q) ∧
      (s.pipe pi).bytes q = pieces.flatten := by
  have hinv : Tidy s ∧ Queues s :=
    System.Run.step_invariant (I := fun s => Tidy s ∧ Queues s)
      (fun _ _ _ h _ ht => ⟨h.1.step (step_step ht), h.2.step h.1 (step_step ht)⟩) hrun ⟨tidy_boot, queues_boot⟩
  refine ⟨(hinv.2.fifo pi).distance, (hinv.2.fifo pi).outs, fun q => ?_⟩
  obtain ⟨ls, hls, hbytes, -⟩ := hinv.2.pieces pi q
  exact ⟨ls, hls, hbytes⟩

/-- Two bytes are written, one of them is read. -/
theorem pipe_fifo_two : ∃ s : State 2, (s.pipe 0).outs = [7] ∧ (s.pipe 0).bytes 0 = [7, 8] ∧
    (s.pipe 0).outs <+: (s.pipe 0).ins.map Prod.snd := by
  have hrun := System.run_exec (System.ofStep step) (fun _ _ => True) (boot 2)
    (forkRun ++ [.enter 0 (.pipewrite 0 [7, 8] 2)] ++ List.replicate 18 (.go 0) ++ [.enter 1 (.piperead 0 1 1)] ++
      List.replicate 3 (.go 1)) (by decide +kernel)
  exact ⟨_, by decide +kernel, by decide +kernel, (pipe_fifo hrun 0).2.1⟩

end Xv6.Sleep
