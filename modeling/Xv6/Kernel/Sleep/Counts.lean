import Xv6.Kernel.Sleep.Held
import Xv6.Kernel.Sleep.Notes

/-! What `pipewrite` and `piperead` return.

    Beside the state stands an account of what the current call of every process has moved: the bytes
    put into the pipe, the bytes removed from it, and the bytes that have reached the user's buffer.

    `piperead` removes a byte before it knows that it can deliver it, and `pipewrite` returns `n` also
    when a copy has failed. When the buffers are mapped, both counts are those of the account. -/

namespace Xv6.Sleep

open Procs (Slot)
open State Function

/-- What the last call has moved. -/
structure Tally where
  req : Option Req
  put : List UInt8
  taken : List UInt8
  stored : List UInt8

variable {nc : Nat}

/-- The thread of `q` takes a step from `s` to `t`: what it adds to the pipe, what it removes, and what
    `copyout` stores of that. -/
def Tally.go (m : Tally) (s t : State nc) (q : Slot) : Tally :=
  match s.pos q with
  | .put pi .. =>
    { m with put := m.put ++ ((t.pipe pi).ins.drop (s.pipe pi).ins.length).map Prod.snd }
  | .copy pi room _ i =>
    let chs := (t.pipe pi).outs.drop (s.pipe pi).outs.length
    { m with
      taken := m.taken ++ chs
      stored := m.stored ++ if i < room then chs else [] }
  | _ => m

/-- The account of every process. -/
abbrev Account : Type := Slot → Tally

/-- A call has moved nothing when it begins. -/
def tallies (nc : Nat) : Notes nc Tally where
  idle := ⟨none, [], [], []⟩
  start r := ⟨some r, [], [], []⟩
  go := Tally.go

/-- The machine with the accounts. -/
def countedStep (x : State nc × Account) (a : Act nc) : Option (State nc × Account) :=
  (step x.1 a).map fun t => (t, (tallies nc).note x.2 x.1 t a)

abbrev CountedRun (ok : State nc × Account → Act nc → Prop) :
    State nc × Account → List (Act nc) → State nc × Account → Prop := (System.ofStep countedStep).Run ok

def countedBoot (nc : Nat) : State nc × Account := (boot nc, fun _ => (tallies nc).idle)

/-- The buffer that is passed to the call is mapped. -/
def Req.Mapped : Req → Prop
  | .pipewrite _ src n => n.toInt ≤ src.length
  | .piperead _ room n => n.toInt ≤ room
  | _ => True

instance : DecidablePred Req.Mapped
  | .pipewrite _ src n => inferInstanceAs (Decidable (n.toInt ≤ src.length))
  | .piperead _ room n => inferInstanceAs (Decidable (n.toInt ≤ room))
  | .consoleread .. | .sysSleep .. => inferInstanceAs (Decidable True)

/-- The buffers that are passed to the calls are mapped. -/
def MappedBuffers (_ : State nc × Account) (a : Act nc) : Prop := CallsMeet Req.Mapped a

instance (x : State nc × Account) (a : Act nc) : Decidable (MappedBuffers x a) :=
  inferInstanceAs (Decidable (CallsMeet Req.Mapped a))

/-! ### What a thread knows -/

/-- `pipewrite` has put `i` bytes into the pipe. -/
structure Wrote (m : Tally) (pi : PipeId) (src : List UInt8) (n : Int32) (i : Nat) : Prop where
  req : m.req = some (.pipewrite pi src n)
  put : m.put = src.take i
  mapped : n.toInt ≤ src.length
  le : i ≤ n.toInt.toNat

/-- `piperead` has removed `i` bytes from the pipe and stored them. -/
structure Took (m : Tally) (pi : PipeId) (room : Nat) (n : Int32) (i : Nat) : Prop where
  req : m.req = some (.piperead pi room n)
  taken : m.taken.length = i
  stored : m.stored = m.taken
  mapped : n.toInt ≤ room
  le : i ≤ n.toInt.toNat

/-- The count `v` is what the call has moved, unless it is an error. -/
def Truthful (m : Tally) (v : Int32) : Prop :=
  0 ≤ v.toInt → match m.req with
    | some (.pipewrite _ src _) => m.put = src.take v.toInt.toNat ∧ m.put.length = v.toInt.toNat
    | some (.piperead _ _ _) => m.taken.length = v.toInt.toNat ∧ m.stored = m.taken
    | _ => True

instance (v : Int32) : (m : Tally) → Decidable (Truthful m v)
  | ⟨some (.pipewrite _ src _), put, _, _⟩ => inferInstanceAs (Decidable
      (0 ≤ v.toInt → put = src.take v.toInt.toNat ∧ put.length = v.toInt.toNat))
  | ⟨some (.piperead ..), _, taken, stored⟩ => inferInstanceAs (Decidable
      (0 ≤ v.toInt → taken.length = v.toInt.toNat ∧ stored = taken))
  | ⟨some (.consoleread ..), _, _, _⟩ | ⟨some (.sysSleep _), _, _, _⟩ | ⟨none, _, _, _⟩ =>
      .isTrue fun _ => trivial

/-- The account of a thread in a call. -/
def Call.counted (m : Tally) : Call → Prop
  | .write pi src n i _ => Wrote m pi src n i
  | .read pi room n => Took m pi room n 0
  | .console .. | .sleep .. => (∀ pi src n, m.req ≠ some (.pipewrite pi src n)) ∧
      ∀ pi room n, m.req ≠ some (.piperead pi room n)

/-- The account of a thread, when the last call has returned `v`. -/
def Pos.counted (m : Tally) (v : Int32) : Pos → Prop
  | .out => Truthful m v
  | .enter k | .test k | .nap k | .unlock k | .asleep k | .wakeup _ _ (.nap k) => k.counted m
  | .put pi src n i _ => Wrote m pi src n i ∧ (i : Int) < n.toInt
  | .copy pi room n i => Took m pi room n i
  | .wakeup _ _ (.ret _ v) | .ret _ v => Truthful m v
  | .close _ => m.req = none

variable {s t : State nc} {c : Fin nc} {q : Slot} {m : Tally} {v : Int32}

theorem truthful_error (m : Tally) : Truthful m (-1) := fun h => absurd h (by decide)

theorem truthful_other (hw : ∀ pi src n, m.req ≠ some (.pipewrite pi src n))
    (hr : ∀ pi room n, m.req ≠ some (.piperead pi room n)) (v : Int32) : Truthful m v := by
  intro _
  split
  · exact absurd ‹_› (hw _ _ _)
  · exact absurd ‹_› (hr _ _ _)
  · trivial

theorem truthful_none (h : m.req = none) (v : Int32) : Truthful m v := by
  intro _
  rw [h]
  trivial

theorem toInt_ofNat {i : Nat} {n : Int32} (h : i ≤ n.toInt.toNat) : (Int32.ofNat i).toInt = i := by
  have hn := n.toInt_lt
  refine Int32.toInt_ofNat_of_lt ?_
  omega

namespace Wrote

variable {pi : PipeId} {src : List UInt8} {n : Int32} {i : Nat}

/-- There is a byte left to write, and it can be read from the buffer. -/
theorem next (h : Wrote m pi src n i) (hi : (i : Int) < n.toInt) : i < src.length := by
  have := h.mapped
  omega

theorem put_next (h : Wrote m pi src n i) (hi : (i : Int) < n.toInt) {ch : UInt8} (hch : src[i]? = some ch) :
    Wrote { m with put := m.put ++ [ch] } pi src n (i + 1) where
  req := h.req
  put := by
    rw [h.put, List.take_add_one, hch]
    rfl
  mapped := h.mapped
  le := by omega

theorem done (h : Wrote m pi src n i) (hi : ¬ (i : Int) < n.toInt) : Truthful m n := by
  intro hpos
  rw [h.req]
  have hle := h.le
  obtain rfl : i = n.toInt.toNat := by omega
  refine ⟨h.put, ?_⟩
  have := h.mapped
  rw [h.put, List.length_take]
  omega

end Wrote

namespace Took

variable {pi : PipeId} {room : Nat} {n : Int32} {i : Nat}

theorem next (h : Took m pi room n i) (hi : (i : Int) < n.toInt) (ch : UInt8) :
    Took { m with taken := m.taken ++ [ch], stored := m.stored ++ [ch] } pi room n (i + 1) where
  req := h.req
  taken := by
    rw [List.length_append, h.taken]
    rfl
  stored := by
    rw [h.stored]
  mapped := h.mapped
  le := by omega

theorem done (h : Took m pi room n i) : Truthful m (Int32.ofNat i) := by
  intro _
  rw [h.req, toInt_ofNat h.le]
  exact ⟨h.taken, h.stored⟩

end Took

/-! ### Steps -/

theorem Call.counted_start {k : Call} (h : k.counted m) (ticks : UInt32) : (k.start ticks).counted m := by
  cases k <;> exact h

/-- A step of the thread in its call keeps its account. -/
theorem counted_go (h : (s.pos q).counted m v) (ht : Go s c q (s.pos q) t) :
    (t.pos q).counted (m.go s t q) (t.a0 q) := by
  generalize hk : s.pos q = k at h ht
  unfold Tally.go
  rw [hk]
  cases ht with
  | enter =>
    rw [goto_pos, update_self]
    exact Call.counted_start h _
  | relock | nap | pause | unlock | writeFull | readSome | consoleMore =>
    rw [goto_pos, update_self]
    exact h
  | close =>
    rw [goto_pos, update_self]
    exact truthful_none h 0
  | fail =>
    rw [goto_pos, update_self]
    exact truthful_error m
  | writeRoom hn =>
    rw [goto_pos, update_self]
    exact ⟨h, hn⟩
  | writeDone hn =>
    rw [goto_pos, update_self]
    exact h.done hn
  | consoleRet | sleepDone =>
    rw [goto_pos, update_self]
    exact truthful_other h.1 h.2 _
  | putFail hsrc =>
    exact absurd hsrc (by rw [List.getElem?_eq_getElem (h.1.next h.2)]; nofun)
  | @put pi src n i told ch hsrc =>
    simp only [goto_pos, update_self, goto_pipe, setPipe_pipe, Pipe.put, List.drop_left]
    exact h.1.put_next h.2 hsrc
  | @take pi room n i hne hroom hn =>
    simp only [goto_pos, update_self, goto_pipe, setPipe_pipe, Pipe.take, List.drop_left, if_pos hroom]
    exact h.next hn _
  | takeLast hne hroom hn =>
    have := h.mapped
    exact absurd (show _ < _ by omega) hroom
  | copyDone =>
    simp only [goto_pos, update_self, goto_pipe, List.drop_length, List.append_nil, ite_self]
    exact h.done
  | @wakeup _ _ j | @woken _ _ j =>
    rw [goto_pos, update_self]
    cases j <;> exact h
  | ret =>
    rw [goto_pos, update_self]
    show Truthful m (update s.a0 q _ q)
    rw [update_self]
    exact h

theorem truthful_idle (nc : Nat) (v : Int32) : Truthful (tallies nc).idle v := truthful_none rfl v

theorem tallies_rule : (tallies nc).Rule Req.Mapped Pos.counted where
  out := truthful_idle nc
  close _ _ := rfl
  enter r v hok := by
    cases r with
    | pipewrite => exact ⟨rfl, rfl, hok, Nat.zero_le _⟩
    | piperead => exact ⟨rfl, rfl, rfl, hok, Nat.zero_le _⟩
    | consoleread | sysSleep => exact ⟨nofun, nofun⟩
  go := counted_go

theorem counted_boot : Keeps Pos.counted (countedBoot nc).1 (countedBoot nc).2 := fun _ => truthful_idle nc 0

/-- With mapped buffers, the counts that the calls return are those of the bytes they have moved: a
    `pipewrite` that returned `v` has put the first `v` bytes of its buffer into the pipe, and a
    `piperead` has removed `v` bytes from it and stored them all. -/
theorem pipe_counts_truthful {as : List (Act nc)} {x : State nc × Account}
    (hrun : CountedRun MappedBuffers (countedBoot nc) as x) (q : Slot) (hout : x.1.pos q = .out) :
    Truthful (x.2 q) (x.1.a0 q) := by
  have hinv : Keeps Pos.counted x.1 x.2 :=
    System.Run.step_invariant (I := fun x => Keeps Pos.counted x.1 x.2) (fun y a z h hok hz => by
      obtain ⟨t, ht, rfl⟩ := Option.map_eq_some_iff.mp hz
      exact tallies_rule.step h hok (step_step ht)) hrun counted_boot
  have hq := hinv q
  rwa [hout] at hq

/-- The parent writes two bytes, and the child reads one. -/
theorem pipe_counts_truthful_two : ∃ x : State 2 × Account, x.1.pos 0 = .out ∧ x.1.a0 0 = 2 ∧ x.1.pos 1 = .out ∧
    x.1.a0 1 = 1 ∧ Truthful (x.2 0) 2 ∧ Truthful (x.2 1) 1 := by
  have hrun := System.run_exec (System.ofStep countedStep) MappedBuffers (countedBoot 2)
    (forkRun ++ [.enter 0 (.pipewrite 0 [7, 8] 2)] ++ List.replicate 18 (.go 0) ++ [.enter 1 (.piperead 0 1 1)] ++
      List.replicate 16 (.go 1)) (by decide +kernel)
  have h0 := pipe_counts_truthful hrun 0 (by decide +kernel)
  have h1 := pipe_counts_truthful hrun 1 (by decide +kernel)
  exact ⟨_, by decide +kernel, by decide +kernel, by decide +kernel, by decide +kernel, h0, h1⟩

/-- Three bytes are to be written from a buffer with two mapped ones, two are to be read into a buffer
    with one: `pipewrite` returns 3, and `piperead` returns 1 after it has removed two bytes. -/
theorem pipe_counts_wrong : ∃ x : State 2 × Account, CountedRun (fun _ _ => True) (countedBoot 2)
      (forkRun ++ [.enter 0 (.pipewrite 0 [7, 8] 3)] ++ List.replicate 19 (.go 0) ++
        [.enter 1 (.piperead 0 1 2)] ++ List.replicate 16 (.go 1)) x ∧
    x.1.pos 0 = .out ∧ x.1.a0 0 = 3 ∧ (x.2 0).put = [7, 8] ∧
    x.1.pos 1 = .out ∧ x.1.a0 1 = 1 ∧ (x.2 1).taken = [7, 8] ∧ (x.2 1).stored = [7] ∧
    ¬ Truthful (x.2 0) 3 ∧ ¬ Truthful (x.2 1) 1 := by
  refine ⟨_, System.run_exec _ _ (countedBoot 2) _ (by decide +kernel), by decide +kernel, by decide +kernel,
    by decide +kernel, by decide +kernel, by decide +kernel, by decide +kernel, by decide +kernel, by decide +kernel,
    by decide +kernel⟩

end Xv6.Sleep
