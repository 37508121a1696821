import Xv6.Kernel.Sleep.Held

/-! Kills and sleeps.

    `piperead`, `pipewrite`, `consoleread` and `sys_sleep` test `killed` with the lock of the call held,
    and `sleep` acquires the process lock later:

    ```
      test ── killed = 0 ──► nap ── acquire(&p->lock) ──► asleep
                              ▲
                              └── kill: killed = 1, state is RUNNING, no wake-up
    ```

    A kill that comes in between is lost. When no kill does, no process sleeps through one; in `wait`,
    which holds the process lock all the time, there is nothing in between. -/

namespace Xv6.Sleep

open Procs (Slot Coherent)
open State Function

variable {nc : Nat} {s t : State nc} {c : Fin nc} {q r : Slot} {u : Procs.State nc}

/-- The thread has found `killed` unset and has not acquired its lock in `sleep` yet. -/
def Pos.tested : Pos → Bool
  | .nap _ | .wakeup _ _ (.nap _) => true
  | _ => false

/-- The process that `kill` marks in this step. -/
def State.victim (s : State nc) : Act nc → Option Slot
  | .run c _ =>
    match (s.procs.cpu c).ctx with
    | .thread q =>
      match s.procs.pc q with
      | .killTest x r => if (s.procs.proc r).pid = x then some r else none
      | _ => none
    | _ => none
  | _ => none

/-- No kill comes between the test of `killed` and the sleep. -/
def Timely (s : State nc) (a : Act nc) : Prop := ∀ r, s.victim a = some r → (s.pos r).tested = false

/-- The process sleeps, killed or not, in one of the five calls: in `wait`, or in the others. -/
def State.interruptible (s : State nc) (r : Slot) : Prop :=
  (∃ k, s.pos r = .asleep k) ∨ ∃ addr, s.procs.pc r = .back (.waitBack addr)

instance (s : State nc) (a : Act nc) : Decidable (Timely s a) :=
  inferInstanceAs (Decidable (∀ r, s.victim a = some r → (s.pos r).tested = false))

theorem victim_of_marks {c : Fin nc} {ok : Bool} (h : s.procs.marks (.run c ok) r) :
    s.victim (.run c ok) = some r := by
  obtain ⟨c', q, x, ok', ha, hc, hq, hx⟩ := h
  cases ha
  simp only [State.victim, hc, hq, if_pos hx]

theorem Lifts.marks {a : Act nc} {b : Procs.Act nc} (h : Lifts s a b) (hm : s.procs.marks b r) :
    s.victim a = some r := by
  have hm' := hm
  obtain ⟨c, q, x, ok, rfl, -⟩ := hm'
  cases h with
  | scheduler | thread => exact victim_of_marks hm

structure Heeded (s : State nc) : Prop where
  tested : ∀ r, (s.pos r).tested = true → s.killed r = false
  waiting : ∀ r ch, (∀ m, ch ≠ Chan.other m) → s.procs.waiting r ch.num → s.killed r = false
  wait : Procs.WaitAlive s.procs

namespace Heeded

theorem under (h : Heeded s) (hs : Sound s) {a : Act nc} {b : Procs.Act nc} (hok : Timely s a) (hl : Lifts s a b)
    (hu : Procs.step s.procs b = some u) : Heeded (s.under u) where
  tested r hr := by
    rw [Bool.eq_false_iff]
    intro hk
    rcases (Procs.step_step hu).killed hk with hk' | hm
    · exact absurd (h.tested r hr) (by rw [State.killed, hk']; nofun)
    · exact absurd (hok r (hl.marks hm)) (by rw [show (s.pos r).tested = true from hr]; nofun)
  waiting r ch hch hw := by
    rw [Bool.eq_false_iff]
    intro hk
    have hk' := (Procs.step_step hu).waiting_killed hs.coherent hw hk
    have := h.waiting r ch hch (hl.waiting hs hu hch hw)
    rw [State.killed, hk'] at this
    cases this
  wait := h.wait.step hs.coherent hu

/-- A step that lets the machine underneath be. -/
theorem quiet (h : Heeded s) (hprocs : t.procs = s.procs)
    (htested : ∀ r, (t.pos r).tested = true → (s.pos r).tested = true ∨ s.killed r = false) : Heeded t where
  tested r hr := by
    unfold State.killed
    rw [hprocs]
    exact (htested r hr).elim (h.tested r) id
  waiting r ch hch hw := by
    unfold State.killed
    rw [hprocs] at hw ⊢
    exact h.waiting r ch hch hw
  wait := by
    rw [hprocs]
    exact h.wait

/-- The thread of `q` goes on to `k`. -/
theorem goto (h : Heeded s) (hprocs : t.procs = s.procs) {k : Pos} (hpos : t.pos = update s.pos q k)
    (hk : k.tested = true → (s.pos q).tested = true ∨ s.killed q = false) : Heeded t := by
  refine h.quiet hprocs fun r hr => ?_
  rw [hpos] at hr
  by_cases hrq : r = q
  · subst hrq
    rw [update_self] at hr
    exact hk hr
  · rw [update_of_ne hrq] at hr
    exact .inl hr

/-- A step underneath that is no step of `kill`. -/
theorem lower (h : Heeded s) (hs : Sound s) {b : Procs.Act nc} (hu : Procs.step s.procs b = some t.procs)
    (hb : ∀ c ok, b ≠ .run c ok) (htested : ∀ r, (t.pos r).tested = true → (s.pos r).tested = true)
    (hpause : ∀ r ch c p, b = .pause c (.sleep (Chan.num ch)) → (s.procs.cpu c).ctx = .thread r →
      s.procs.pc r = .at p → (s.pos r).tested = true) : Heeded t := by
  have hkilled : ∀ r, s.killed r = false → t.killed r = false := by
    intro r hr
    rw [Bool.eq_false_iff] at hr ⊢
    intro hk
    rcases (Procs.step_step hu).killed hk with hk | ⟨c, q, x, ok, rfl, -⟩
    · exact hr hk
    · exact hb c ok rfl
  refine ⟨fun r hr => hkilled r (h.tested r (htested r hr)), fun r ch hch hw => hkilled r ?_,
    h.wait.step hs.coherent hu⟩
  rcases (Procs.step_step hu).waiting hs.coherent hw with hw | ⟨c, p, hb, hc, hp⟩
  · exact h.waiting r ch hch hw
  · exact h.tested r (hpause r ch c p hb hc hp)

theorem go (h : Heeded s) (hs : Sound s) (hq : s.current c = some q) {k : Pos} (hk : s.pos q = k)
    (ht : Go s c q k t) : Heeded t := by
  cases ht with
  | enter | relock | close | fail | writeRoom | writeDone | readSome | consoleRet | consoleMore | sleepDone |
    unlock | putFail | put | take | takeLast | copyDone | ret => exact h.goto rfl rfl nofun
  | nap _ halive | writeFull _ _ halive => exact h.goto rfl rfl fun _ => .inr halive
  | @woken ch i j hi =>
    cases j with
    | nap j => exact h.goto rfl rfl fun _ => .inl (by rw [hk]; rfl)
    | ret l v => exact h.goto rfl rfl nofun
  | @wakeup ch i j u hu =>
    refine h.lower hs hu nofun (fun r hr => ?_) nofun
    rw [goto_pos] at hr
    by_cases hrq : r = q
    · subst hrq
      rw [update_self] at hr
      rw [hk]
      cases j <;> exact hr
    · rwa [update_of_ne hrq] at hr
  | @pause j u hu =>
    refine h.lower hs hu nofun (fun r hr => ?_) fun r ch c' p hb hc hp => ?_
    · rw [goto_pos] at hr
      by_cases hrq : r = q
      · subst hrq
        rw [update_self] at hr
        cases hr
      · rwa [update_of_ne hrq] at hr
    · injection hb with hcc
      subst hcc
      have hc' := (thread_of_current hq).2
      rw [hc] at hc'
      obtain rfl := Procs.Ctx.thread.inj hc'
      rw [hk]
      rfl

theorem step (h : Heeded s) (hs : Sound s) {a : Act nc} (hok : Timely s a) (ht : Step s a t) : Heeded t := by
  cases ht with
  | under hl hu => exact h.under hs hok hl hu
  | fork hl hpc hu => exact (h.under hs hok hl hu).quiet rfl fun _ hr => .inl hr
  | pipealloc | dup | drop | interrupt => exact h.quiet rfl fun _ hr => .inl hr
  | close | pipewrite | enter => exact h.goto rfl rfl nofun
  | go hq hpc hgo => exact h.go hs hq rfl hgo
  | handle hk hh =>
    cases hh with
    | enter | uart | clock | woken | ret => exact h.quiet rfl fun _ hr => .inl hr
    | wakeup hu => exact h.lower hs hu nofun (fun _ hr => hr) nofun

end Heeded

theorem heeded_boot : Heeded (boot nc) where
  tested _ := nofun
  waiting r ch _ hw := by
    have hn := hw.1
    by_cases hr : r = Procs.initproc <;> simp [boot, Procs.boot, hr, Procs.Pc.nap] at hn
  wait := Procs.waitAlive_boot

/-- A process asleep in a call waits on the channel of the call. -/
theorem Sound.waiting_of_asleep (h : Sound s) {k : Call} (hr : s.pos r = .asleep k)
    (hst : (s.procs.proc r).state = .sleeping) : s.procs.waiting r k.chan.num := by
  obtain ⟨x, ch, hx, hch, -⟩ := h.napping r hst
  have hf := h.fits r
  rw [hr] at hf
  obtain ⟨hrest, hnap⟩ := hf
  have hresume : ∃ w p, x = .resume w p := by
    rcases hx with hx | hx <;> rw [hx] at hrest <;> cases x with
      | resume w p => exact ⟨w, p, rfl⟩
      | _ => cases hrest
  obtain ⟨w, p, rfl⟩ := hresume
  cases w with
  | yield => cases hch
  | sleep n =>
    have hn : (s.procs.pc r).nap = some n := by
      rcases hx with hx | hx <;> rw [hx] <;> rfl
    exact ⟨hnap n hn ▸ hn, .inr hst⟩

/-- No kill is lost: no process sleeps, killed and with its lock free, in `piperead`, `pipewrite`,
    `consoleread`, `sys_sleep` or `wait`. -/
theorem kill_not_lost {as : List (Act nc)} (hrun : Run Timely (boot nc) as s) (r : Slot) :
    ¬ (s.procs.lock r = none ∧ (s.procs.proc r).killed = true ∧ (s.procs.proc r).state = .sleeping ∧
      s.interruptible r) := by
  have hinv : Sound s ∧ Heeded s :=
    System.Run.step_invariant (I := fun s => Sound s ∧ Heeded s)
      (fun _ _ _ h hok ht => ⟨h.1.step (step_step ht), h.2.step h.1 hok (step_step ht)⟩) hrun
      ⟨sound_boot, heeded_boot⟩
  obtain ⟨hs, hh⟩ := hinv
  rintro ⟨-, hk, hst, ⟨k, hr⟩ | ⟨addr, hr⟩⟩
  · have halive := hh.waiting r k.chan (fun m => by cases k <;> nofun) (hs.waiting_of_asleep hr hst)
    rw [State.killed, hk] at halive
    cases halive
  · have halive := hh.wait r addr hst (.inr hr)
    rw [hk] at halive
    cases halive

def killRun : List (Act 2) := .call 0 (.kill 2) :: List.replicate 4 (.run 0 true)

theorem kill_not_lost_asleep : ∃ s : State 2, (s.procs.proc 1).killed = true ∧ s.interruptible 1 ∧
    ¬ (s.procs.lock 1 = none ∧ (s.procs.proc 1).killed = true ∧ (s.procs.proc 1).state = .sleeping ∧
      s.interruptible 1) := by
  have hrun := System.run_exec (System.ofStep step) Timely (boot 2) (forkRun ++ readRun ++ napRun ++ killRun)
    (by decide +kernel)
  exact ⟨_, by decide +kernel, .inl ⟨.read 0 1 1, by decide +kernel⟩, kill_not_lost hrun 1⟩

/-- The kill comes between the test and the sleep: the child sleeps on. -/
theorem kill_lost_before_sleep : ∃ s : State 2,
    Run (fun _ _ => True) (boot 2) (forkRun ++ readRun ++ killRun ++ napRun) s ∧
      s.procs.lock 1 = none ∧ (s.procs.proc 1).killed = true ∧ (s.procs.proc 1).state = .sleeping ∧
      s.interruptible 1 :=
  ⟨_, System.run_exec _ _ (boot 2) (forkRun ++ readRun ++ killRun ++ napRun) (by decide +kernel),
    by decide +kernel, by decide +kernel, by decide +kernel, .inl ⟨.read 0 1 1, by decide +kernel⟩⟩

end Xv6.Sleep
