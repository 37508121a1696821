import Xv6.Schemes.System
import Xv6.User.Nsh.Scanner

/-! The children of nsh and the pipes they write to (`nsh.c`, `pipewrite` of `pipe.c`).

    ```
    nsh     pipe(p)  fork ──────── wait ────────────▶ close(p[1]) …  fork ── wait ──▶
    child                 write write … exit                              write … exit
    pipe      0             1     2   …   ≤ PIPESIZE                  ▲
                                                                      └─ the first reader of p
    ```

    nsh starts one child after another, and waits for each of them. A child that writes to a pipe has a new
    pipe, whose reader is started after it has exited. -/

namespace Xv6.Nsh
open Ulib Function

def PIPESIZE : Nat := 512

/-- Where a child writes: to a pipe, or to a file or the standard output, which do not fill up. -/
inductive Dest
  | pipe | free
  deriving DecidableEq

/-- A child, with the bytes that it has yet to write. -/
structure Job where
  out : List UInt8
  dest : Dest
  deriving DecidableEq

inductive Act
  | scan | finish | fork | write | exit
  deriving DecidableEq

/-- nsh, the children it is about to start, the child it waits for, and the bytes in this child's pipe. -/
structure Sys where
  shell : State
  ended : Bool
  jobs : List Job
  child : Option Job
  pipe : Nat

variable (W : World)

/-- The child of an event; a command is run with its output in the pipe. -/
def Event.job : Event → Job
  | .exec argv input => ⟨W.prog argv input, .pipe⟩
  | .output _ bytes => ⟨bytes, .free⟩

/-- The children of the events between two states. -/
def newJobs (s t : State) : List Job := (t.events.drop s.events.length).map (Event.job W)

/-- The children of a round. At `>` after a `|` a second child copies the output of the command to `p`. -/
def stepJobs (s t : State) : List Job :=
  newJobs W s t ++ if s.buf s.i = greater ∧ s.flag = .pipe2 then [⟨t.p, .pipe⟩] else []

/-- The children after the loop. A plain command has no pipe. -/
def finishJobs (s t : State) : List Job :=
  if s.prev = .char ∧ s.flag = .start then [⟨t.p, .free⟩]
  else match newJobs W s t with
    | [] => []
    | j :: js => if s.flag = .pipe2 then [j, ⟨relay j.out, .pipe⟩] ++ js else j :: js

def next (s : Sys) : Act → Option Sys
  | .scan =>
    if s.jobs = [] ∧ s.child = none ∧ s.ended = false ∧ s.shell.i < BUFSIZE ∧ s.shell.buf s.shell.i ≠ 0 then
      match step W s.shell with
      | .ok t => some { s with shell := t, jobs := stepJobs W s.shell t }
      | .error _ => none
    else none
  | .finish =>
    if s.jobs = [] ∧ s.child = none ∧ s.ended = false ∧ s.shell.i < BUFSIZE ∧ s.shell.buf s.shell.i = 0 then
      match finish W s.shell with
      | .ok t => some { s with shell := t, ended := true, jobs := finishJobs W s.shell t }
      | .error _ => none
    else none
  | .fork =>
    match s.child, s.jobs with
    | none, j :: js => some { s with child := some j, jobs := js, pipe := 0 }
    | _, _ => none
  -- `pipewrite` sleeps while the pipe is full
  | .write =>
    match s.child with
    | some ⟨_ :: out, .pipe⟩ =>
      if s.pipe < PIPESIZE then some { s with child := some ⟨out, .pipe⟩, pipe := s.pipe + 1 } else none
    | some ⟨_ :: out, .free⟩ => some { s with child := some ⟨out, .free⟩ }
    | _ => none
  -- `wait` returns
  | .exit =>
    match s.child with
    | some ⟨[], _⟩ => some { s with child := none }
    | _ => none

/-- nsh with a line of input. -/
def boot (input : List UInt8) : Sys := ⟨initial (gets BUFSIZE input).1, false, [], none, 0⟩

/-- nsh waits for a child that cannot go on: its pipe is full, and the reader of the pipe is not there yet. -/
def Blocked (s : Sys) : Prop := s.pipe = PIPESIZE ∧ ∃ c out, s.child = some ⟨c :: out, .pipe⟩

/-- What a child writes to a pipe fits in it. -/
def Fits (s : Sys) : Act → Prop
  | .fork => ∀ j ∈ s.jobs.head?, j.dest = .pipe → j.out.length ≤ PIPESIZE
  | _ => True

instance (s : Sys) : (a : Act) → Decidable (Fits s a)
  | .fork => inferInstanceAs (Decidable (∀ j ∈ s.jobs.head?, j.dest = .pipe → j.out.length ≤ PIPESIZE))
  | .scan | .finish | .write | .exit => inferInstanceAs (Decidable True)

variable {W} {s t : Sys} {a : Act}

/-- What the child has yet to write fits in its pipe. -/
def Room (s : Sys) : Prop := ∀ j, s.child = some j → j.dest = .pipe → s.pipe + j.out.length ≤ PIPESIZE

theorem Room.not_blocked (h : Room s) : ¬ Blocked s := by
  rintro ⟨hfull, c, out, hchild⟩
  have := h _ hchild rfl
  simp only [List.length_cons] at this
  omega

/-- nsh has no child between two rounds. -/
theorem room_of_none (h : s.child = none) : Room s := by
  intro j hj
  rw [h] at hj
  cases hj

theorem room_step (h : Room s) (hfits : Fits s a) (hnext : next W s a = some t) : Room t := by
  cases a with
  | scan | finish =>
    simp only [next] at hnext
    split at hnext
    · rename_i hidle
      split at hnext
      · cases hnext
        exact room_of_none hidle.2.1
      · cases hnext
    · cases hnext
  | fork =>
    simp only [next] at hnext
    split at hnext
    · rename_i j js hchild hjobs
      cases hnext
      intro k hk hdest
      cases hk
      rw [Nat.zero_add]
      exact hfits j (by rw [hjobs]; rfl) hdest
    · cases hnext
  | write =>
    simp only [next] at hnext
    split at hnext
    · rename_i c out hchild
      split at hnext
      · cases hnext
        intro k hk _
        cases hk
        have := h _ hchild rfl
        simp only [List.length_cons] at this ⊢
        omega
      · cases hnext
    · cases hnext
      intro k hk hdest
      cases hk
      cases hdest
    · cases hnext
  | exit =>
    simp only [next] at hnext
    split at hnext
    · cases hnext
      exact room_of_none rfl
    · cases hnext

/-- Where the output of every child fits in its pipe, nsh never waits for a blocked child. -/
theorem no_blocked_child (W : World) (input : List UInt8) (as : List Act)
    (hrun : (System.ofStep (next W)).Run Fits (boot input) as t) : ¬ Blocked t :=
  (hrun.step_invariant (fun _ _ _ h hok hnext => room_step h hok hnext) (room_of_none rfl)).not_blocked

/-- Every program writes `n` bytes. -/
def writers (n : Nat) : World := ⟨fun _ _ => List.replicate n 0, fun _ => [], []⟩

/-- In the line `"a | b"` the first command is run in the round of the fourth character. -/
def toFirstWrite : List Act := [.scan, .scan, .scan, .scan, .fork]

theorem no_blocked_child_small : ∃ t, (System.ofStep (next (writers 2))).Run Fits (boot [97, 32, 124, 32, 98, 10])
    (toFirstWrite ++ [.write, .write, .exit]) t ∧ ¬ Blocked t := by
  have h := System.run_exec (System.ofStep (next (writers 2))) Fits (boot [97, 32, 124, 32, 98, 10])
    (toFirstWrite ++ [.write, .write, .exit]) (by decide +kernel)
  exact ⟨_, h, no_blocked_child (writers 2) _ _ h⟩

/-- One byte more than the pipe holds. -/
theorem child_blocked : ∃ t, (System.ofStep (next (writers 513))).Run (fun _ _ => True) (boot [97, 32, 124, 32, 98, 10])
    (toFirstWrite ++ List.replicate 512 .write) t ∧ Blocked t := by
  have h : ((System.ofStep (next (writers 513))).exec (fun _ _ => True) (boot [97, 32, 124, 32, 98, 10])
      (toFirstWrite ++ List.replicate 512 .write)).any
        (fun t => t.pipe = PIPESIZE ∧ t.child = some ⟨[0], .pipe⟩) = true := by decide +kernel
  obtain ⟨t, ht, hblocked⟩ := (Option.any_eq_true ..).mp h
  obtain ⟨hpipe, hchild⟩ := of_decide_eq_true hblocked
  exact ⟨t, System.run_of_exec ht, hpipe, 0, [], hchild⟩

end Xv6.Nsh
