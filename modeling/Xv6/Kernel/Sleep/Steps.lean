import Xv6.Kernel.Sleep.Machine
import Xv6.Kernel.Proc.Naps

/-! What a step can be, branch by branch. -/

namespace Xv6.Sleep

open Procs (Slot)
open State Function

variable {nc : Nat} {s t : State nc} {c : Fin nc} {q : Slot}

namespace State

@[simps -fullyApplied]
def under (s : State nc) (u : Procs.State nc) : State nc := { s with procs := u }

@[simps -fullyApplied]
def locked (s : State nc) (c : Fin nc) (l : Lock) : State nc :=
  { s with lock := update s.lock l (some c) }

end State

/-! ### Threads in a call -/

/-- The condition of the loop that sleeps. -/
def Call.blocks (s : State nc) : Call → Bool
  | .write pi .. => (s.pipe pi).full
  | .read pi .. => (s.pipe pi).empty && (s.pipe pi).writeopen
  | .console .. => s.cons.r = s.cons.w
  | .sleep n ticks0 => s.ticks - ticks0 < n.toUInt32

/-- Why a call gives up instead of going to sleep. -/
def Call.hopeless (s : State nc) (q : Slot) : Call → Prop
  | .write pi .. => (s.pipe pi).readopen = false ∨ s.killed q = true
  | _ => s.killed q = true

/-- `pipewrite` has bytes left. -/
def Call.unfinished : Call → Prop
  | .write _ _ n i _ => (i : Int) < n.toInt
  | _ => True

/-- What `consoleread` returns. -/
def consoleCount (target : UInt32) (n : Int32) : Int32 := (target - n.toUInt32).toInt32

/-- The next character of the input. -/
def Cons.front (k : Cons) : UInt8 := k.buf (k.r.toNat % INPUT_BUF)

/-- How the loop of `consoleread` ends: with the console that it leaves, and the result. -/
inductive Cons.Ends (k : Cons) : Nat → Int32 → UInt32 → Cons → Int32 → Prop
  | full {room : Nat} {n : Int32} {target : UInt32} (hn : ¬ 0 < n) : Ends k room n target k (consoleCount target n)
  | kept {room : Nat} {n : Int32} {target : UInt32} (hn : 0 < n) (hin : k.r ≠ k.w) (hc : k.front = 4)
      (hlt : n.toUInt32 < target) : Ends k room n target k (consoleCount target n)
  | eof {room : Nat} {n : Int32} {target : UInt32} (hn : 0 < n) (hin : k.r ≠ k.w) (hc : k.front = 4)
      (hge : ¬ n.toUInt32 < target) : Ends k room n target k.eat (consoleCount target n)
  | fault {n : Int32} {target : UInt32} (hn : 0 < n) (hin : k.r ≠ k.w) (hc : k.front ≠ 4) :
      Ends k 0 n target k.eat (consoleCount target n)
  | line {room : Nat} {n : Int32} {target : UInt32} (hn : 0 < n) (hin : k.r ≠ k.w) (hc : k.front = 10) :
      Ends k (room + 1) n target k.eat (consoleCount target (n - 1))

/-- The steps of the thread of `q` in a call, by where it is. -/
inductive Go (s : State nc) (c : Fin nc) (q : Slot) : Pos → State nc → Prop
  | enter {k : Call} (hfree : s.lock k.lock = none) :
      Go s c q (.enter k) ((s.locked c k.lock).goto q (.test (k.start s.ticks)))
  | relock {k : Call} (hfree : s.lock k.lock = none) :
      Go s c q (.asleep k) ((s.locked c k.lock).goto q (.test k))
  | close {x : PipeId × End} (hfree : s.lock (.pipe x.1) = none) : Go s c q (.close x)
      (((s.locked c (.pipe x.1)).setPipe x.1 ((s.pipe x.1).shut x.2)).goto q
        (.wakeup (closeChan x) 0 (.ret (.pipe x.1) 0)))
  | fail {k : Call} (hk : k.blocks s = true) (hwhy : k.hopeless s q) (hn : k.unfinished) :
      Go s c q (.test k) (s.goto q (.ret k.lock (-1)))
  | nap {k : Call} (hk : k.blocks s = true) (halive : s.killed q = false)
      (hw : ∀ pi src n i told, k ≠ .write pi src n i told) : Go s c q (.test k) (s.goto q (.nap k))
  | writeFull {pi : PipeId} {src : List UInt8} {n : Int32} {i told : Nat} (hfull : (s.pipe pi).full = true)
      (hopen : (s.pipe pi).readopen = true) (halive : s.killed q = false) :
      Go s c q (.test (.write pi src n i told))
        (s.goto q (.wakeup (.nread pi) 0 (.nap (.write pi src n i i))))
  | writeRoom {pi : PipeId} {src : List UInt8} {n : Int32} {i told : Nat} (hn : (i : Int) < n.toInt)
      (hroom : (s.pipe pi).full = false) :
      Go s c q (.test (.write pi src n i told)) (s.goto q (.put pi src n i told))
  | writeDone {pi : PipeId} {src : List UInt8} {n : Int32} {i told : Nat} (hn : ¬ (i : Int) < n.toInt) :
      Go s c q (.test (.write pi src n i told)) (s.goto q (.wakeup (.nread pi) 0 (.ret (.pipe pi) n)))
  | readSome {pi : PipeId} {room : Nat} {n : Int32} (hsome : (Call.read pi room n).blocks s = false) :
      Go s c q (.test (.read pi room n)) (s.goto q (.copy pi room n 0))
  | consoleRet {room : Nat} {n : Int32} {target : UInt32} (k : Cons) (v : Int32)
      (h : s.cons.Ends room n target k v) : Go s c q (.test (.console room n target)) ({ s with cons := k }.goto q (.ret .cons v))
  | consoleMore {room : Nat} {n : Int32} {target : UInt32} (hn : 0 < n) (hin : s.cons.r ≠ s.cons.w)
      (hc : s.cons.front ≠ 4) (hc' : s.cons.front ≠ 10) : Go s c q (.test (.console (room + 1) n target))
        ({ s with cons := s.cons.eat }.goto q (.test (.console room (n - 1) target)))
  | sleepDone {n : Int32} {ticks0 : UInt32} : Go s c q (.test (.sleep n ticks0)) (s.goto q (.ret .ticks 0))
  | pause {k : Call} {u : Procs.State nc}
      (h : Procs.step s.procs (.pause c (.sleep k.chan.num)) = some u) :
      Go s c q (.nap k) ((s.under u).goto q (.unlock k))
  | unlock {k : Call} : Go s c q (.unlock k) ((s.release k.lock).goto q (.asleep k))
  | putFail {pi : PipeId} {src : List UInt8} {n : Int32} {i told : Nat} (hsrc : src[i]? = none) :
      Go s c q (.put pi src n i told) (s.goto q (.wakeup (.nread pi) 0 (.ret (.pipe pi) n)))
  | put {pi : PipeId} {src : List UInt8} {n : Int32} {i told : Nat} {ch : UInt8} (hsrc : src[i]? = some ch) :
      Go s c q (.put pi src n i told)
        ((s.setPipe pi ((s.pipe pi).put q ch)).goto q (.test (.write pi src n (i + 1) told)))
  | take {pi : PipeId} {room : Nat} {n : Int32} {i : Nat} (hne : (s.pipe pi).empty = false) (hroom : i < room)
      (hn : (i : Int) < n.toInt) : Go s c q (.copy pi room n i)
        ((s.setPipe pi (s.pipe pi).take).goto q (.copy pi room n (i + 1)))
  | takeLast {pi : PipeId} {room : Nat} {n : Int32} {i : Nat} (hne : (s.pipe pi).empty = false)
      (hroom : ¬ i < room) (hn : (i : Int) < n.toInt) : Go s c q (.copy pi room n i)
        ((s.setPipe pi (s.pipe pi).take).goto q
          (.wakeup (.nwrite pi) 0 (.ret (.pipe pi) (Int32.ofNat i))))
  | copyDone {pi : PipeId} {room : Nat} {n : Int32} {i : Nat}
      (hdone : ¬ ((i : Int) < n.toInt ∧ (s.pipe pi).empty = false)) : Go s c q (.copy pi room n i)
      (s.goto q (.wakeup (.nwrite pi) 0 (.ret (.pipe pi) (Int32.ofNat i))))
  | wakeup {ch : Chan} {i : Slot} {k : After} {u : Procs.State nc}
      (h : Procs.step s.procs (.wakeup ch.num i) = some u) :
      Go s c q (.wakeup ch i k) ((s.under u).goto q (.wakeup ch (i + 1) k))
  | woken {ch : Chan} {i : Nat} {k : After} (hi : ¬ i < NPROC) :
      Go s c q (.wakeup ch i k) (s.goto q k.pos)
  | ret {l : Lock} {v : Int32} :
      Go s c q (.ret l v) ({ s.release l with a0 := update s.a0 q v }.goto q .out)

/-- A step of one thread leaves the others where they are. -/
theorem Go.other {k : Pos} (ht : Go s c q k t) {r : Slot} (hr : r ≠ q) : t.pos r = s.pos r ∧ t.a0 r = s.a0 r := by
  cases ht <;> exact ⟨update_of_ne hr _ _, by first | rfl | exact update_of_ne hr _ _⟩

theorem locked_of_acquire {l : Lock} {u : State nc} (h : s.acquire c l = some u) :
    s.lock l = none ∧ u = s.locked c l := by
  unfold State.acquire at h
  split at h
  · exact ⟨‹_›, (Option.some.inj h).symm⟩
  · cases h

theorem under_of_lift {a : Procs.Act nc} {u : State nc} (h : s.lift a = some u) :
    ∃ v, Procs.step s.procs a = some v ∧ u = s.under v := by
  obtain ⟨v, hv, rfl⟩ := Option.map_eq_some_iff.mp h
  exact ⟨v, hv, rfl⟩

theorem eatStep_go {room : Nat} {n : Int32} {target : UInt32} (hn : 0 < n) (hin : s.cons.r ≠ s.cons.w) :
    Go s c q (.test (.console room n target)) (eatStep s q room n target) := by
  by_cases hc : s.cons.buf (s.cons.r.toNat % INPUT_BUF) = 4
  · simp only [eatStep, if_pos hc]
    split
    · exact .consoleRet s.cons _ (.kept hn hin hc ‹_›)
    · exact .consoleRet _ _ (.eof hn hin hc ‹_›)
  · cases room with
    | zero =>
      simp only [eatStep, if_neg hc]
      exact .consoleRet _ _ (.fault hn hin hc)
    | succ room =>
      simp only [eatStep, if_neg hc]
      split
      · exact .consoleRet _ _ (.line hn hin ‹_›)
      · exact .consoleMore hn hin hc ‹_›

theorem testStep_go (k : Call) : Go s c q (.test k) (testStep s q k) := by
  cases k with
  | write pi src n i told =>
    simp only [testStep]
    split
    · split
      · split
        · rename_i hfull hwhy
          refine .fail hfull ?_ ‹_›
          simpa [Call.hopeless] using hwhy
        · rename_i hfull hwhy
          simp only [Bool.or_eq_true, Bool.not_eq_true', not_or, Bool.not_eq_false, Bool.not_eq_true] at hwhy
          exact .writeFull hfull hwhy.1 hwhy.2
      · exact .writeRoom ‹_› (Bool.eq_false_iff.mpr ‹_›)
    · exact .writeDone ‹_›
  | read pi room n =>
    simp only [testStep]
    split
    · split
      · exact .fail ‹_› ‹_› trivial
      · exact .nap ‹_› (Bool.eq_false_iff.mpr ‹_›) nofun
    · exact .readSome (Bool.eq_false_iff.mpr ‹_›)
  | console room n target =>
    simp only [testStep]
    split
    · split
      · rename_i hrw
        split
        · exact .fail (decide_eq_true hrw) ‹_› trivial
        · exact .nap (decide_eq_true hrw) (Bool.eq_false_iff.mpr ‹_›) nofun
      · exact eatStep_go ‹_› ‹_›
    · exact .consoleRet s.cons _ (.full ‹_›)
  | sleep n ticks0 =>
    simp only [testStep]
    split
    · rename_i hlt
      split
      · exact .fail (decide_eq_true hlt) ‹_› trivial
      · exact .nap (decide_eq_true hlt) (Bool.eq_false_iff.mpr ‹_›) nofun
    · exact .sleepDone

theorem callStep_go {k : Pos} (h : callStep s c q k = some t) : Go s c q k t := by
  cases k with
  | out => cases h
  | enter k =>
    obtain ⟨u, hu, rfl⟩ := Option.map_eq_some_iff.mp h
    obtain ⟨hfree, rfl⟩ := locked_of_acquire hu
    exact .enter hfree
  | test k =>
    cases h
    exact testStep_go k
  | nap k =>
    obtain ⟨u, hu, rfl⟩ := Option.map_eq_some_iff.mp h
    obtain ⟨v, hv, rfl⟩ := under_of_lift hu
    exact .pause hv
  | unlock k =>
    cases h
    exact .unlock
  | asleep k =>
    obtain ⟨u, hu, rfl⟩ := Option.map_eq_some_iff.mp h
    obtain ⟨hfree, rfl⟩ := locked_of_acquire hu
    exact .relock hfree
  | put pi src n i told =>
    cases h
    unfold putStep
    split
    · exact .putFail ‹_›
    · exact .put ‹_›
  | copy pi room n i =>
    cases h
    unfold copyStep
    simp only
    split
    · rename_i hsome
      have hne : (s.pipe pi).empty = false := by simpa using hsome.2
      split
      · exact .take hne ‹_› hsome.1
      · exact .takeLast hne ‹_› hsome.1
    · rename_i hdone
      exact .copyDone (by simpa using hdone)
  | wakeup ch i k =>
    simp only [callStep] at h
    split at h
    · obtain ⟨u, hu, rfl⟩ := Option.map_eq_some_iff.mp h
      obtain ⟨v, hv, rfl⟩ := under_of_lift hu
      exact .wakeup hv
    · cases h
      exact .woken ‹_›
  | ret l v =>
    cases h
    exact .ret
  | close x =>
    obtain ⟨u, hu, rfl⟩ := Option.map_eq_some_iff.mp h
    obtain ⟨hfree, rfl⟩ := locked_of_acquire hu
    exact .close hfree

/-! ### Handlers -/

/-- The steps of the handler on processor `c`, by where it is. -/
inductive Handle (s : State nc) (c : Fin nc) : Handler → State nc → Prop
  | enter {x : Irq} (hfree : s.lock x.lock = none) :
      Handle s c (.enter x) ((s.locked c x.lock).handle c (some (.edit x)))
  | uart {ch : UInt8} {h : Handler} (hh : h.holds = some .cons) : Handle s c (.edit (.uart ch))
      ({ s with cons := (s.cons.intr ch).1 }.handle c (some h))
  | clock : Handle s c (.edit .clock)
      ({ s with ticks := s.ticks + 1 }.handle c (some (.wakeup .ticks 0 .ticks)))
  | wakeup {ch : Chan} {i : Slot} {l : Lock} {u : Procs.State nc}
      (h : Procs.step s.procs (.wakeup ch.num i) = some u) :
      Handle s c (.wakeup ch i l) ((s.under u).handle c (some (.wakeup ch (i + 1) l)))
  | woken {ch : Chan} {i : Nat} {l : Lock} : Handle s c (.wakeup ch i l) (s.handle c (some (.ret l)))
  | ret {l : Lock} : Handle s c (.ret l) ((s.release l).handle c none)

theorem handlerStep_handle {k : Handler} (h : handlerStep s c k = some t) : Handle s c k t := by
  cases k with
  | enter x =>
    obtain ⟨u, hu, rfl⟩ := Option.map_eq_some_iff.mp h
    obtain ⟨hfree, rfl⟩ := locked_of_acquire hu
    exact .enter hfree
  | edit x =>
    cases x with
    | uart ch =>
      cases h
      refine .uart ?_
      split <;> rfl
    | clock =>
      cases h
      exact .clock
  | wakeup ch i l =>
    simp only [handlerStep] at h
    split at h
    · obtain ⟨u, hu, rfl⟩ := Option.map_eq_some_iff.mp h
      obtain ⟨v, hv, rfl⟩ := under_of_lift hu
      exact .wakeup hv
    · cases h
      exact .woken
  | ret l =>
    cases h
    exact .ret

/-! ### All steps -/

/-- The steps that are steps of the machine underneath. -/
inductive Lifts (s : State nc) : Act nc → Procs.Act nc → Prop
  | call {c : Fin nc} {q : Slot} {k : Procs.Call} (hq : s.current c = some q) (hpos : s.pos q = .out) :
      Lifts s (.call c k) (.call c k)
  | yield {c : Fin nc} {q : Slot} (hq : s.current c = some q) (hpos : (s.pos q).holds = none) :
      Lifts s (.yield c) (.pause c .yield)
  | scheduler {c : Fin nc} {ok : Bool} (hc : ∀ q, (s.procs.cpu c).ctx ≠ .thread q) :
      Lifts s (.run c ok) (.run c ok)
  | thread {c : Fin nc} {q : Slot} {ok : Bool} (hq : s.current c = some q) (hrun : s.mayRun q = true) :
      Lifts s (.run c ok) (.run c ok)
  | sleep {c : Fin nc} {q : Slot} {n : Nat} (hq : s.current c = some q) (hpos : s.pos q = .out) :
      Lifts s (.sleep c n) (.pause c (.sleep (Chan.other n).num))
  | wakeup {n : Nat} {i : Slot} : Lifts s (.wakeup n i) (.wakeup (Chan.other n).num i)

/-- The steps of the machine. -/
inductive Step (s : State nc) : Act nc → State nc → Prop
  | under {a : Act nc} {b : Procs.Act nc} {u : Procs.State nc} (h : Lifts s a b)
      (hu : Procs.step s.procs b = some u) : Step s a (s.under u)
  | fork {c : Fin nc} {q i : Slot} {ok : Bool} {u : Procs.State nc} (h : Lifts s (.run c ok) (.run c ok))
      (hpc : s.procs.pc q = .forkStart i) (hu : Procs.step s.procs (.run c ok) = some u) :
      Step s (.run c ok) ((s.under u).setFiles i (s.ofile q))
  | pipealloc {c : Fin nc} {q : Slot} {pi : PipeId} (hq : s.current c = some q) (hpos : s.pos q = .out)
      (hread : (s.pipe pi).readopen = false) (hwrite : (s.pipe pi).writeopen = false)
      (hfree : s.lock (.pipe pi) = none) : Step s (.pipealloc c pi)
        ((s.setPipe pi (s.pipe pi).alloc).setFiles q ((pi, .read) :: (pi, .write) :: s.ofile q))
  | dup {c : Fin nc} {q : Slot} {x : PipeId × End} (hpos : s.pos q = .out) (hx : x ∈ s.ofile q) :
      Step s (.dup c x) (s.setFiles q (x :: s.ofile q))
  | drop {c : Fin nc} {q : Slot} {x : PipeId × End} (hpos : s.pos q = .out) (hx : x ∈ s.ofile q)
      (hr : ∃ r, x ∈ (s.setFiles q ((s.ofile q).erase x)).ofile r) (hq : s.current c = some q) :
      Step s (.close c x) (s.setFiles q ((s.ofile q).erase x))
  | close {c : Fin nc} {q : Slot} {x : PipeId × End} {p : Procs.Point} (hpos : s.pos q = .out)
      (hpc : s.procs.pc q = .at p) (hx : x ∈ s.ofile q)
      (hr : ∀ r, x ∉ (s.setFiles q ((s.ofile q).erase x)).ofile r) (hq : s.current c = some q) :
      Step s (.close c x) ((s.setFiles q ((s.ofile q).erase x)).goto q (.close x))
  | pipewrite {c : Fin nc} {q : Slot} {pi : PipeId} {src : List UInt8} {n : Int32} (hpos : s.pos q = .out)
      (hpc : s.procs.pc q = .at .idle) (hx : (pi, .write) ∈ s.ofile q) (hq : s.current c = some q) :
      Step s (.enter c (.pipewrite pi src n))
        ((s.setPipe pi ((s.pipe pi).give q src)).goto q (.enter (.write pi src n 0 0)))
  | enter {c : Fin nc} {q : Slot} {r : Req} (hpos : s.pos q = .out) (hpc : s.procs.pc q = .at .idle)
      (hx : ∀ x, r.call.file = some x → x ∈ s.ofile q)
      (hr : ∀ pi src n i told, r.call ≠ .write pi src n i told) (hq : s.current c = some q) :
      Step s (.enter c r) (s.goto q (.enter r.call))
  | go {c : Fin nc} {q : Slot} {t : State nc} (hq : s.current c = some q)
      (hpc : (∃ p, s.procs.pc q = .at p) ∨ ∃ k, s.pos q = .unlock k) (h : Go s c q (s.pos q) t) :
      Step s (.go c) t
  | interrupt {c : Fin nc} {x : Irq} (hon : s.intrOn c = true) :
      Step s (.interrupt c x) (s.handle c (some (.enter x)))
  | handle {c : Fin nc} {k : Handler} {t : State nc} (hk : s.intr c = some k) (h : Handle s c k t) :
      Step s (.handle c) t

theorem enterStep_step {r : Req} (hq : s.current c = some q) (h : enterStep s q r = some t) :
    Step s (.enter c r) t := by
  unfold enterStep at h
  split at h
  · rename_i hg
    obtain ⟨hpc, hpos, hx⟩ := hg
    cases r with
    | pipewrite pi src n =>
      cases h
      exact .pipewrite hpos hpc (hx _ rfl) hq
    | _ =>
      cases h
      exact .enter hpos hpc hx nofun hq
  · cases h

theorem closeStep_step {x : PipeId × End} (hq : s.current c = some q) (h : closeStep s q x = some t) :
    Step s (.close c x) t := by
  unfold closeStep at h
  split at h
  · rename_i hg
    obtain ⟨hpos, hx⟩ := hg
    have hlast : ∀ p, s.procs.pc q = .at p → some (if ∀ r, x ∉ (s.setFiles q ((s.ofile q).erase x)).ofile r then
        (s.setFiles q ((s.ofile q).erase x)).goto q (.close x) else s.setFiles q ((s.ofile q).erase x)) =
          some t → Step s (.close c x) t := by
      intro p hpc h
      cases h
      split
      · exact .close hpos hpc hx ‹_› hq
      · rename_i hr
        exact .drop hpos hx (by simpa using hr) hq
    split at h
    · exact hlast _ ‹_› h
    · exact hlast _ ‹_› h
    · cases h
  · cases h

theorem goStep_step (hq : s.current c = some q) (h : goStep s c q = some t) : Step s (.go c) t := by
  unfold goStep at h
  split at h
  · exact .go hq (.inl ⟨_, ‹_›⟩) (callStep_go h)
  · rename_i k _ hk
    exact .go hq (.inr ⟨_, hk⟩) (hk ▸ callStep_go h)
  · cases h

theorem thread_of_current (h : s.current c = some q) : s.intr c = none ∧ (s.procs.cpu c).ctx = .thread q := by
  unfold State.current at h
  split at h
  · cases h
    exact ⟨‹_›, ‹_›⟩
  · cases h

theorem runStep_step {ok : Bool} (h : step s (.run c ok) = some t) : Step s (.run c ok) t := by
  simp only [step] at h
  split at h
  · rename_i hintr
    split at h
    · rename_i q hc
      have hq : s.current c = some q := by
        unfold State.current
        rw [hintr, hc]
      split at h
      · rename_i hrun
        obtain ⟨u, hu, rfl⟩ := Option.map_eq_some_iff.mp h
        obtain ⟨v, hv, rfl⟩ := under_of_lift hu
        have hl : Lifts s (.run c ok) _ := .thread hq hrun
        cases hpc : s.procs.pc q with
        | forkStart i => exact .fork hl hpc hv
        | _ => exact .under hl hv
      · cases h
    · rename_i hc
      obtain ⟨v, hv, rfl⟩ := under_of_lift h
      exact .under (.scheduler hc) hv
  · cases h

/-- Every step is one of `Step`. -/
theorem step_step {a : Act nc} (h : step s a = some t) : Step s a t := by
  cases a with
  | run c ok => exact runStep_step h
  | wakeup n i =>
    obtain ⟨v, hv, rfl⟩ := under_of_lift h
    exact .under .wakeup hv
  | interrupt c x =>
    simp only [step] at h
    split at h
    · rename_i hon
      cases h
      exact .interrupt hon.1
    · cases h
  | handle c =>
    obtain ⟨k, hk, h⟩ := Option.bind_eq_some_iff.mp h
    exact .handle hk (handlerStep_handle h)
  | call c k =>
    obtain ⟨q, hq, h⟩ := Option.bind_eq_some_iff.mp h
    split at h
    · obtain ⟨v, hv, rfl⟩ := under_of_lift h
      exact .under (.call hq ‹_›) hv
    · cases h
  | yield c =>
    obtain ⟨q, hq, h⟩ := Option.bind_eq_some_iff.mp h
    split at h
    · obtain ⟨v, hv, rfl⟩ := under_of_lift h
      exact .under (.yield hq ‹_›) hv
    · cases h
  | sleep c n =>
    obtain ⟨q, hq, h⟩ := Option.bind_eq_some_iff.mp h
    split at h
    · obtain ⟨v, hv, rfl⟩ := under_of_lift h
      exact .under (.sleep hq ‹_›) hv
    · cases h
  | pipealloc c pi =>
    obtain ⟨q, hq, h⟩ := Option.bind_eq_some_iff.mp h
    unfold pipeallocStep at h
    split at h
    · rename_i hg
      obtain ⟨-, hpos, hread, hwrite, hfree⟩ := hg
      cases h
      exact .pipealloc hq hpos hread hwrite hfree
    · cases h
  | dup c x =>
    obtain ⟨q, hq, h⟩ := Option.bind_eq_some_iff.mp h
    unfold dupStep at h
    split at h
    · rename_i hg
      cases h
      exact .dup hg.2.1 hg.2.2
    · cases h
  | close c x =>
    obtain ⟨q, hq, h⟩ := Option.bind_eq_some_iff.mp h
    exact closeStep_step hq h
  | enter c r =>
    obtain ⟨q, hq, h⟩ := Option.bind_eq_some_iff.mp h
    exact enterStep_step hq h
  | go c =>
    obtain ⟨q, hq, h⟩ := Option.bind_eq_some_iff.mp h
    exact goStep_step hq h

end Xv6.Sleep
