import Xv6.Kernel.Proc.Family

/-! No exit is missed by a parent that waits.

    Every step keeps `Channels` and `Family`. A process that sleeps in `wait` has scanned the whole
    table, so by `Family.seen` none of its children is a zombie. -/

namespace Xv6.Procs
open State

variable {nc : Nat} {s t : State nc} {c : Fin nc} {q i j : Slot} {ok : Bool}

namespace Family

theorem thread (h : Family s) (hco : Coherent s) (hch : Channels s) (hc : (s.cpu c).ctx = .thread q)
    {k : Pc} (hpc : s.pc q = k) (ht : Thread s c q ok k t) : Family t := by
  have hrun : (∀ x, k ≠ .sched x) → (s.proc q).state = .running := fun hk =>
    hco.state_running hc (by rw [hpc]; exact hk)
  cases ht with
  | @acquire k k' i ha hfree =>
    have hback : ∀ addr, k' ≠ .back (.waitBack addr) := by cases ha <;> nofun
    exact h.goto hpc rfl rfl ha.phase hback
  | forkNone | killNone | copy | reparentTake | waitTake | allocNext | killNext | waitReturn | yielded |
    forkret => exact h.goto hpc rfl rfl rfl nofun
  | waitNone | reapFail => exact h.reset rfl rfl rfl nofun
  | waitAlive hst =>
    exact Family.congr (h.scan hpc rfl (.inr hst) : Family (State.goto _ _ (.waitScan _ _ true))) rfl rfl
  | waitNext hi => exact h.scan hpc rfl (.inl hi)
  | reparentNext hi => exact h.pass hpc rfl hi
  | yield p => 
    have hmove : Family (s.goto q (.sched (.resume .yield p))) := h.goto hpc rfl rfl rfl nofun
    exact hmove.leave (hrun nofun) (.inl rfl)
  | sleep n p =>
    have hmove : Family (s.goto q (.sched (.resume (.sleep n) p))) := h.goto hpc rfl rfl rfl nofun
    exact hmove.leave (hrun nofun) (.inr rfl)
  | @waitSleep addr kids n hn =>
    refine (h.move (k := .sched (.waitBack addr)) nofun nofun (fun _ _ => Nat.zero_le _)
      fun j hz hp hq => ?_).leave (hrun nofun) (.inr rfl)
    have hle := (h.seen j q hz hp hq).1
    rw [hpc] at hle
    exact absurd (Nat.lt_of_le_of_lt hle j.isLt) hn
  | @alloc i | @allocFail i =>
    have hset : Family (s.set i { s.proc i with pid := s.nextpid }) :=
      h.woken rfl (proj_set Proc.parent rfl) (woken_set (.inl rfl))
    exact hset.goto hpc rfl rfl rfl nofun
  | copyFail i =>
    have hst := hco.making hc (by rw [hpc]; rfl)
    have hfree := h.free (by rw [hst]; rfl) (.inr (hco.dead_of_unused hst))
    exact hfree.goto hpc rfl rfl rfl nofun
  | forkParent i =>
    have hst := hco.making hc (by rw [hpc]; rfl)
    have hset := h.setParent (by rw [hrun nofun]; rfl) (by rw [hpc]; rfl)
      (.inl (by rw [hco.dead_of_unused hst]; rfl)) (.inl (by rw [hst]; nofun))
    exact hset.goto hpc rfl rfl rfl nofun
  | forkStart i =>
    have hst := hco.making hc (by rw [hpc]; rfl)
    have hiq : q ≠ i := by
      rintro rfl
      rw [hrun nofun] at hst
      cases hst
    exact (h.birth hst).goto (k := .forkStart i) (by simpa [hiq] using hpc) rfl rfl rfl nofun
  | exitInit st =>
    have hwake : Family (s.set initproc ((s.proc initproc).wakeup1 initproc)) :=
      h.woken rfl (proj_set Proc.parent (parent_wakeup1 _ _)) (woken_set (woken_wakeup1 _ _))
    exact hwake.goto hpc rfl rfl rfl nofun
  | @exitRead st op hop =>
    refine (h.move (fun _ hq => ?_) (fun x hx => ?_)
      (fun _ _ => Nat.zero_le _) fun _ _ _ _ => ⟨Nat.zero_le _, ?_⟩).congr rfl rfl
    · have := h.stays
      rw [← hq, hpc] at this
      cases this
    · injection hx with hx
      exact .inl (hx ▸ hop)
    · rintro ⟨⟨addr, ha⟩, -⟩
      simp at ha
  | reparentSet st op i =>
    have hroot : initproc ≠ q := by
      rintro rfl
      have := h.stays
      rw [hpc] at this
      cases this
    have hset := h.setParent (i := i) (r := initproc) h.root (Pc.passed_of_stays h.stays) (.inr rfl) (.inr rfl)
    exact (hset.pass hpc rfl (by simpa using hroot)).congr rfl rfl
  | zombie hn => exact h.death hco hch hc hn hpc
  | @reap addr i hst =>
    have hfree := h.free (by rw [hst]; rfl) (hco.dead_of_zombie hst)
    exact hfree.reset rfl rfl rfl nofun
  | @killHit x i hx =>
    have hkill : Family (s.set i ({ s.proc i with killed := true } : Proc).wake) := by
      refine h.woken rfl (proj_set Proc.parent ?_) (woken_set (woken_wake { s.proc i with killed := true }))
      unfold Proc.wake
      split <;> rfl
    exact hkill.goto hpc rfl rfl rfl nofun
  | sched x =>
    cases x with
    | resume w p | forkret | dead => exact h.goto hpc rfl rfl rfl nofun
    | waitBack addr =>
      refine (h.move (k := .back (.waitBack addr)) nofun nofun (fun _ _ => Nat.zero_le _)
        fun j hz hp hq => ?_).congr rfl rfl
      have hle := (h.seen j q hz hp hq).1
      rw [hpc] at hle
      exact absurd hle (Nat.not_le.mpr j.isLt)
  | slept n p =>
    have hset : Family (s.set q { s.proc q with chan := none }) :=
      h.woken rfl (proj_set Proc.parent rfl) (woken_set (.inl rfl))
    exact hset.goto hpc rfl rfl rfl nofun
  | waitBack addr =>
    have hset : Family (s.set q { s.proc q with chan := none }) :=
      h.woken rfl (proj_set Proc.parent rfl) (woken_set (.inl rfl))
    exact hset.reset rfl rfl rfl nofun

theorem step (h : Family s) (hco : Coherent s) (hch : Channels s) {a : Act nc} (ht : Step s a t) :
    Family t := by
  cases ht with
  | @call c q k hc hpc hk =>
    have hphase : k.start.phase = {} := by
      cases k with
      | exit st => exact absurd rfl (hk st)
      | _ => rfl
    exact h.reset rfl rfl hphase nofun
  | @exit c q st hc hpc hq =>
    refine (h.move (k := .at (.exit st)) (fun _ => hq) nofun (fun _ _ => Nat.zero_le _)
      fun _ _ _ _ => ⟨Nat.zero_le _, ?_⟩).congr rfl rfl
    rintro ⟨⟨addr, ha⟩, -⟩
    simp at ha
  | pause hc hpc => exact h.goto hpc rfl rfl rfl nofun
  | thread hc ht => exact h.thread hco hch hc rfl ht
  | lock | restart | skip | back => exact h.congr rfl rfl
  | @resume c i ok hc hst =>
    refine h.states rfl (proj_set Proc.parent rfl) (fun j => ?_) fun j ha => ⟨ha.1, ?_⟩
    · by_cases hj : j = i
      · subst hj
        simp [Alike, hst, ProcState.live]
      · simp [Alike, hj]
    · have hsl := ha.2
      by_cases hj : j = i
      · subst hj
        simp at hsl
      · simpa [hj] using hsl
  | @wakeup n i hfree hn =>
    refine h.woken rfl (proj_set Proc.parent ?_) (woken_set (woken_wake _))
    unfold Proc.wake
    split <;> rfl
  | wakeupOther => exact h

end Family

theorem Channels.step (h : Channels s) (hco : Coherent s) {a : Act nc} (ht : Step s a t) :
    Channels t := by
  cases ht with
  | @call c q k hc hpc hk => exact h.goto hpc rfl (fun _ => rfl) k.start.not_inWait
  | exit hc hpc | pause hc hpc => exact h.goto hpc rfl (fun _ => rfl) rfl
  | thread hc ht => exact h.thread hco hc rfl ht
  | lock | restart | skip | back => exact h.congr (fun _ => rfl) fun _ => rfl
  | resume => exact h.congr (proj_set (s := s) Proc.chan rfl) fun _ => rfl
  | wakeup => exact h.congr (proj_set Proc.chan (chan_wake _)) fun _ => rfl
  | wakeupOther => exact h

/-! ### Runs -/

theorem channels_boot : Channels (boot nc) := by
  refine ⟨fun j r hj => ?_, fun j hj => ?_⟩
  · by_cases h : j = initproc <;> simp [boot, h, Proc.free] at hj
  · by_cases h : j = initproc <;> simp [boot, h, Pc.phase, Saved.phase] at hj

theorem family_boot : Family (boot nc) := by
  have hparent : ∀ j r, ((boot nc).proc j).parent ≠ some r := fun j r hj => by
    by_cases h : j = initproc <;> simp [boot, h, Proc.free] at hj
  refine ⟨rfl, rfl, fun q op hq => ?_, fun i r hr => absurd hr (hparent i r),
    fun i q _ hp => absurd hp (hparent i q)⟩
  by_cases h : q = initproc <;> simp [boot, h, Pc.phase, Saved.phase] at hq

/-- What holds in every state that can be reached. -/
structure Sound (s : State nc) : Prop where
  coherent : Coherent s
  channels : Channels s
  family : Family s

theorem Sound.step (h : Sound s) {a : Act nc} (ht : Step s a t) : Sound t where
  coherent := h.coherent.step ht
  channels := h.channels.step h.coherent ht
  family := h.family.step h.coherent h.channels ht

theorem sound_boot : Sound (boot nc) := ⟨coherent_boot, channels_boot, family_boot⟩

theorem Run.sound {as : List (Act nc)} (hrun : Run (boot nc) as s) : Sound s :=
  System.Run.step_invariant (fun _ _ _ h _ ht => h.step (step_step ht)) hrun sound_boot

/-- A process other than init that sleeps in `wait` has no zombie child, whether its lock is free or it
    is still on its way to `swtch`. -/
theorem no_lost_exit {as : List (Act nc)} (hrun : Run (boot nc) as s) {q : Slot} (hq : q ≠ initproc)
    (hsleep : (s.proc q).state = .sleeping)
    (hchan : (s.proc q).chan = some (.proc q)) (i : Slot) (hi : (s.proc i).parent = some q) :
    (s.proc i).state ≠ .zombie := by
  intro hz
  have h := hrun.sound
  obtain ⟨hscan, hawake⟩ := h.family.seen i q hz hi hq
  have hwait := (h.channels.inWait q q hchan).1
  have hf := h.coherent.fits q
  rw [hsleep] at hf
  obtain ⟨x, -, ⟨-, hx⟩ | ⟨-, hx⟩⟩ := hf
  · cases x with
    | waitBack addr =>
      rw [hx] at hscan
      exact absurd hscan (Nat.not_le.mpr i.isLt)
    | resume w p =>
      rw [hx] at hwait
      change p.phase.inWait = true at hwait
      rw [p.not_inWait] at hwait
      cases hwait
    | _ => rw [hx] at hwait; cases hwait
  · cases x with
    | waitBack addr => exact hawake ⟨⟨addr, hx⟩, hsleep⟩
    | resume w p =>
      rw [hx] at hwait
      change p.phase.inWait = true at hwait
      rw [p.not_inWait] at hwait
      cases hwait
    | _ => rw [hx] at hwait; cases hwait

/-- `n` steps of the only processor. -/
def steps (n : Nat) : List (Act 1) := List.replicate n (.run 0 true)

/-- Init forks a process; that one forks another and waits for it. -/
def waiterRun : List (Act 1) :=
  steps 3 ++ [.call 0 .fork] ++ steps 7 ++ [.pause 0 .yield] ++ steps 6 ++ [.call 0 .fork] ++ steps 9 ++
    [.call 0 (.wait false)] ++ steps 16

theorem no_lost_exit_waiter : ∃ s : State 1, (s.proc 1).state = .sleeping ∧ s.lock 1 = none ∧
    (s.proc 2).parent = some 1 ∧ (s.proc 2).state ≠ .zombie := by
  have hrun := System.run_exec (System.ofStep step) (fun _ _ => True) (boot 1) waiterRun (by decide +kernel)
  exact ⟨_, by decide +kernel, by decide +kernel, by decide +kernel,
    no_lost_exit hrun (q := 1) (by decide) (by decide +kernel) (by decide +kernel) 2 (by decide +kernel)⟩

end Xv6.Procs
