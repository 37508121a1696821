import Xv6.Kernel.Proc.Machine

/-! What a step can be, branch by branch. -/

namespace Xv6.Procs
open State

variable {nc : Nat} {s t : State nc} {c : Fin nc} {q : Slot} {ok : Bool}

/-- The thread of `q` acquires the lock of a slot and gets from one place to the next. -/
inductive Acquires (q : Slot) : Pc → Slot → Pc → Prop
  | fork (i : Slot) : Acquires q (.at (.forkScan i)) i (.allocproc i)
  | exit (st : Int32) : Acquires q (.at (.exit st)) initproc (.exitInit st)
  | exitSelf (st : Int32) : Acquires q (.at (.exitSelf st)) q (.exitRead st)
  | exitParent (st : Int32) (op : Slot) : Acquires q (.at (.exitParent st op)) op (.exitLock st op)
  | exitLock (st : Int32) (op : Slot) : Acquires q (.exitLock st op) q (.reparent st op 0)
  | reparent (st : Int32) (op i : Slot) : Acquires q (.reparentLock st op i) i (.reparentSet st op i)
  | wait (addr : Bool) : Acquires q (.at (.wait addr)) q (.waitScan addr 0 false)
  | waitChild (addr : Bool) (i : Slot) : Acquires q (.waitLock addr i) i (.waitTest addr i)
  | kill (x : Int32) (i : Slot) : Acquires q (.at (.killScan x i)) i (.killTest x i)

def State.locked (s : State nc) (c : Fin nc) (i : Slot) : State nc :=
  { s with lock := Function.update s.lock i (some c) }

/-- The steps of the thread of `q` on processor `c`, by where it is. -/
inductive Thread (s : State nc) (c : Fin nc) (q : Slot) (ok : Bool) : Pc → State nc → Prop
  | acquire {k k' : Pc} {i : Slot} (h : Acquires q k i k') (hfree : s.lock i = none) :
      Thread s c q ok k ((s.locked c i).goto q k')
  | forkNone {i : Nat} (hi : ¬ i < NPROC) : Thread s c q ok (.at (.forkScan i)) (s.ret q)
  | killNone {x : Int32} {i : Nat} (hi : ¬ i < NPROC) :
      Thread s c q ok (.at (.killScan x i)) ((s.ret q).killed x (-1))
  | yield (p : Point) : Thread s c q ok (.pause .yield p)
      (s.leave q .runnable (s.proc q).chan (.resume .yield p))
  | sleep (n : Nat) (p : Point) : Thread s c q ok (.pause (.sleep n) p)
      (s.leave q .sleeping (some (.other n)) (.resume (.sleep n) p))
  | alloc {i : Slot} (hst : (s.proc i).state = .unused) (hok : ok = true) :
      Thread s c q ok (.allocproc i) ((s.allocpid i).goto q (.uvmcopy i))
  | allocFail {i : Slot} (hst : (s.proc i).state = .unused) (hok : ok = false) :
      Thread s c q ok (.allocproc i) (((s.allocpid i).release i).ret q)
  | allocNext {i : Slot} (hst : (s.proc i).state ≠ .unused) :
      Thread s c q ok (.allocproc i) ((s.release i).goto q (.at (.forkScan (i + 1))))
  | copy (i : Slot) : Thread s c q ok (.uvmcopy i) (s.goto q (.forkParent i))
  | copyFail (i : Slot) (hok : ok = false) :
      Thread s c q ok (.uvmcopy i) (((s.set i .free).release i).ret q)
  | forkParent (i : Slot) : Thread s c q ok (.forkParent i)
      ((s.set i { s.proc i with parent := some q }).goto q (.forkStart i))
  | forkStart (i : Slot) : Thread s c q ok (.forkStart i)
      (((((s.set i { s.proc i with state := .runnable }).goto i (.back .forkret)).release i).ret q).note
        (.forked (s.proc q).pid (s.proc i).pid))
  | exitInit (st : Int32) : Thread s c q ok (.exitInit st)
      (((s.set initproc ((s.proc initproc).wakeup1 initproc)).release initproc).goto q
        (.at (.exitSelf st)))
  | exitRead {st : Int32} {op : Slot} (hop : (s.proc q).parent = some op) :
      Thread s c q ok (.exitRead st) ((s.release q).goto q (.at (.exitParent st op)))
  | reparentTake {st : Int32} {op i : Slot} (hi : (s.proc i).parent = some q) :
      Thread s c q ok (.reparent st op i) (s.goto q (.reparentLock st op i))
  | reparentNext {st : Int32} {op i : Slot} (hi : (s.proc i).parent ≠ some q) :
      Thread s c q ok (.reparent st op i) (s.goto q (.reparent st op (i + 1)))
  | reparentSet (st : Int32) (op i : Slot) : Thread s c q ok (.reparentSet st op i)
      (((s.set i { s.proc i with parent := some initproc }).release i).goto q (.reparent st op (i + 1)))
  | zombie {st : Int32} {op : Slot} {i : Nat} (hi : ¬ i < NPROC) :
      Thread s c q ok (.reparent st op i) (zombie s q st op)
  | waitTake {addr kids : Bool} {i : Slot} (hi : (s.proc i).parent = some q) :
      Thread s c q ok (.waitScan addr i kids) (s.goto q (.waitLock addr i))
  | waitNext {addr kids : Bool} {i : Slot} (hi : (s.proc i).parent ≠ some q) :
      Thread s c q ok (.waitScan addr i kids) (s.goto q (.waitScan addr (i + 1) kids))
  | waitNone {addr kids : Bool} {i : Nat} (hi : ¬ i < NPROC) :
      Thread s c q ok (.waitScan addr i kids) ((s.release q).ret q)
  | waitSleep {addr kids : Bool} {i : Nat} (hi : ¬ i < NPROC) :
      Thread s c q ok (.waitScan addr i kids)
        (s.leave q .sleeping (some (.proc q)) (.waitBack addr))
  | waitAlive {addr : Bool} {i : Slot} (hst : (s.proc i).state ≠ .zombie) :
      Thread s c q ok (.waitTest addr i) ((s.release i).goto q (.waitScan addr (i + 1) true))
  | reapFail {addr : Bool} {i : Slot} (hst : (s.proc i).state = .zombie) :
      Thread s c q ok (.waitTest addr i) ((s.release i).goto q .waitReturn)
  | reap {addr : Bool} {i : Slot} (hst : (s.proc i).state = .zombie) :
      Thread s c q ok (.waitTest addr i) ((((s.set i .free).release i).goto q .waitReturn).note
        (.reaped (s.proc q).pid (s.proc i).pid (if addr then some (s.proc i).xstate else none)))
  | waitReturn : Thread s c q ok .waitReturn ((s.release q).ret q)
  | killHit {x : Int32} {i : Slot} (hx : (s.proc i).pid = x) : Thread s c q ok (.killTest x i)
      ((((s.set i ({ s.proc i with killed := true } : Proc).wake).release i).ret q).killed x 0)
  | killNext {x : Int32} {i : Slot} (hx : (s.proc i).pid ≠ x) :
      Thread s c q ok (.killTest x i) ((s.release i).goto q (.at (.killScan x (i + 1))))
  | sched (k : Saved) :
      Thread s c q ok (.sched k) ((s.goto q (.back k)).switch c (s.cpu c).proc (.back q))
  | yielded (p : Point) :
      Thread s c q ok (.back (.resume .yield p)) ((s.release q).goto q (.at p))
  | slept (n : Nat) (p : Point) : Thread s c q ok (.back (.resume (.sleep n) p))
      (((s.set q { s.proc q with chan := none }).release q).goto q (.at p))
  | waitBack (addr : Bool) : Thread s c q ok (.back (.waitBack addr))
      ((s.set q { s.proc q with chan := none }).goto q (.waitScan addr 0 false))
  | forkret : Thread s c q ok (.back .forkret) ((s.release q).ret q)

theorem Thread.of_acquire {k k' : Pc} {i : Slot} (h : Acquires q k i k')
    (ht : (s.acquire c i).map (·.goto q k') = some t) : Thread s c q ok k t := by
  obtain ⟨u, hu, rfl⟩ := Option.map_eq_some_iff.mp ht
  unfold State.acquire at hu
  split at hu
  · cases hu
    exact .acquire h ‹_›
  · cases hu

theorem pointStep_thread {p : Point} (h : pointStep s c q p = some t) : Thread s c q ok (.at p) t := by
  cases p with
  | idle => cases h
  | forkScan i =>
    simp only [pointStep] at h
    split at h
    · exact .of_acquire (.fork ⟨i, _⟩) h
    · cases h
      exact .forkNone ‹_›
  | killScan x i =>
    simp only [pointStep] at h
    split at h
    · exact .of_acquire (.kill x ⟨i, _⟩) h
    · cases h
      exact .killNone ‹_›
  | exit st => exact .of_acquire (.exit st) h
  | exitSelf st => exact .of_acquire (.exitSelf st) h
  | exitParent st op => exact .of_acquire (.exitParent st op) h
  | wait addr => exact .of_acquire (.wait addr) h

theorem backStep_thread {k : Saved} (h : backStep s q k = some t) : Thread s c q ok (.back k) t := by
  cases k with
  | dead => cases h
  | forkret =>
    cases h
    exact .forkret
  | waitBack addr =>
    cases h
    exact .waitBack addr
  | resume w p =>
    cases w with
    | yield =>
      cases h
      exact .yielded p
    | sleep n =>
      cases h
      exact .slept n p

/-- Every step of a thread is one of `Thread`. -/
theorem threadStep_thread {k : Pc} (h : threadStep s c q ok k = some t) : Thread s c q ok k t := by
  cases k with
  | «at» p => exact pointStep_thread h
  | back k => exact backStep_thread h
  | exitLock st op => exact .of_acquire (.exitLock st op) h
  | reparentLock st op i => exact .of_acquire (.reparent st op i) h
  | waitLock addr i => exact .of_acquire (.waitChild addr i) h
  | exitRead st =>
    obtain ⟨op, hop, rfl⟩ := Option.map_eq_some_iff.mp h
    exact .exitRead hop
  | pause w p =>
    cases w with
    | yield => cases h; exact .yield p
    | sleep n => cases h; exact .sleep n p
  | allocproc i =>
    cases h
    split
    · split
      · exact .alloc ‹_› ‹_›
      · exact .allocFail ‹_› (Bool.eq_false_iff.mpr ‹_›)
    · exact .allocNext ‹_›
  | uvmcopy i =>
    cases h
    split
    · exact .copy i
    · exact .copyFail i (Bool.eq_false_iff.mpr ‹_›)
  | forkParent i => cases h; exact .forkParent i
  | forkStart i => cases h; exact .forkStart i
  | exitInit st => cases h; exact .exitInit st
  | reparent st op i =>
    cases h
    split
    · split
      · exact .reparentTake ‹_›
      · exact .reparentNext ‹_›
    · exact .zombie ‹_›
  | reparentSet st op i => cases h; exact .reparentSet st op i
  | waitScan addr i kids =>
    cases h
    split
    · split
      · exact .waitTake ‹_›
      · exact .waitNext ‹_›
    · unfold waitEnd
      split
      · exact .waitNone ‹_›
      · exact .waitSleep ‹_›
  | waitTest addr i =>
    cases h
    split
    · unfold Procs.reap
      split
      · exact .reapFail ‹_›
      · exact .reap ‹_›
    · exact .waitAlive ‹_›
  | waitReturn => cases h; exact .waitReturn
  | killTest x i =>
    cases h
    split
    · exact .killHit ‹_›
    · exact .killNext ‹_›
  | sched k => cases h; exact .sched k

/-- The steps of the machine. -/
inductive Step (s : State nc) : Act nc → State nc → Prop
  | call {c : Fin nc} {q : Slot} {k : Call} (hc : (s.cpu c).ctx = .thread q)
      (hpc : s.pc q = .at .idle) (hk : ∀ st, k ≠ .exit st) : Step s (.call c k) (s.goto q (.at k.start))
  | exit {c : Fin nc} {q : Slot} {st : Int32} (hc : (s.cpu c).ctx = .thread q)
      (hpc : s.pc q = .at .idle) (hq : q ≠ initproc) :
      Step s (.call c (.exit st)) ((s.goto q (.at (.exit st))).note (.exit (s.proc q).pid st))
  | pause {c : Fin nc} {q : Slot} {w : Pause} {p : Point} (hc : (s.cpu c).ctx = .thread q)
      (hpc : s.pc q = .at p) (hfree : s.lock q = none) :
      Step s (.pause c w) ((s.locked c q).goto q (.pause w p))
  | thread {c : Fin nc} {q : Slot} {ok : Bool} {t : State nc} (hc : (s.cpu c).ctx = .thread q)
      (h : Thread s c q ok (s.pc q) t) : Step s (.run c ok) t
  | lock {c : Fin nc} {i : Slot} {ok : Bool} (hc : (s.cpu c).ctx = .loop i) (hfree : s.lock i = none) :
      Step s (.run c ok) ((s.locked c i).switch c (s.cpu c).proc (.test i))
  | restart {c : Fin nc} {i : Nat} {ok : Bool} (hc : (s.cpu c).ctx = .loop i) :
      Step s (.run c ok) (s.switch c (s.cpu c).proc (.loop 0))
  | resume {c : Fin nc} {i : Slot} {ok : Bool} (hc : (s.cpu c).ctx = .test i)
      (hst : (s.proc i).state = .runnable) : Step s (.run c ok)
        ((s.set i { s.proc i with state := .running }).switch c (some i) (.thread i))
  | skip {c : Fin nc} {i : Slot} {ok : Bool} (hc : (s.cpu c).ctx = .test i)
      (hst : (s.proc i).state ≠ .runnable) : Step s (.run c ok)
        ((s.release i).switch c (s.cpu c).proc (.loop (i + 1)))
  | back {c : Fin nc} {i : Slot} {ok : Bool} (hc : (s.cpu c).ctx = .back i) :
      Step s (.run c ok) ((s.release i).switch c none (.loop (i + 1)))
  | wakeup {n : Nat} {i : Slot} (hfree : s.lock i = none) (hch : (s.proc i).chan = some (.other n)) :
      Step s (.wakeup n i) (s.set i (s.proc i).wake)
  | wakeupOther {n : Nat} {i : Slot} : Step s (.wakeup n i) s

theorem schedulerStep_step {x : Ctx} (hc : (s.cpu c).ctx = x) (h : schedulerStep s c x = some t) :
    Step s (.run c ok) t := by
  cases x with
  | thread q => cases h
  | loop i =>
    simp only [schedulerStep] at h
    split at h
    · obtain ⟨u, hu, rfl⟩ := Option.map_eq_some_iff.mp h
      unfold State.acquire at hu
      split at hu
      · cases hu
        exact .lock hc ‹_›
      · cases hu
    · cases h
      exact .restart hc
  | test i =>
    cases h
    split
    · exact .resume hc ‹_›
    · exact .skip hc ‹_›
  | back i =>
    cases h
    exact .back hc

theorem callStep_step {k : Call} (hc : (s.cpu c).ctx = .thread q) (h : callStep s q k = some t) :
    Step s (.call c k) t := by
  unfold callStep at h
  split at h
  · split at h
    · cases h
    · cases h
      exact .exit hc ‹_› ‹_›
  · rename_i hk
    cases h
    exact .call hc ‹_› hk
  · cases h

theorem pauseStep_step {w : Pause} (hc : (s.cpu c).ctx = .thread q) (h : pauseStep s c q w = some t) :
    Step s (.pause c w) t := by
  unfold pauseStep at h
  split at h
  · obtain ⟨u, hu, rfl⟩ := Option.map_eq_some_iff.mp h
    unfold State.acquire at hu
    split at hu
    · cases hu
      exact .pause hc ‹_› ‹_›
    · cases hu
  · cases h

theorem step_step {a : Act nc} (h : step s a = some t) : Step s a t := by
  cases a with
  | call c k =>
    cases hc : (s.cpu c).ctx with
    | thread q => simp only [step, hc] at h; exact callStep_step hc h
    | loop i | test i | back i => simp only [step, hc] at h; cases h
  | pause c w =>
    cases hc : (s.cpu c).ctx with
    | thread q => simp only [step, hc] at h; exact pauseStep_step hc h
    | loop i | test i | back i => simp only [step, hc] at h; cases h
  | run c ok =>
    cases hc : (s.cpu c).ctx with
    | thread q => simp only [step, hc] at h; exact .thread hc (threadStep_thread h)
    | loop i | test i | back i => simp only [step, hc] at h; exact schedulerStep_step hc h
  | wakeup n i =>
    simp only [step, wakeupStep] at h
    split at h
    · cases h
      split
      · exact .wakeup ‹_› ‹_›
      · exact .wakeupOther
    · cases h

end Xv6.Procs
