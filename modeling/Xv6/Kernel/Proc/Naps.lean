import Xv6.Kernel.Proc.OneCpu

/-! Who sleeps, and on what.

    ```
      pause (sleep n)  ──►  sched (resume (sleep n))  ──►  back (resume (sleep n))
         RUNNING                  SLEEPING                       SLEEPING
    ```

    A process that still sleeps after a step has not been touched by it, or goes to sleep in this very
    step. From the first of these places on the process waits on the channel, until a `wakeup` of the
    channel gets to it. -/

namespace Xv6.Procs
open State Function

variable {nc : Nat} {s t : State nc} {c : Fin nc} {q i r : Slot} {ok : Bool} {n : Nat}

/-! ### Steps of others -/

/-- A process that sleeps afterwards has slept before, on the same channel and as killed as now. -/
def Still (p p' : Proc) : Prop :=
  p'.state = .sleeping → p.state = .sleeping ∧ p'.chan = p.chan ∧ p'.killed = p.killed

theorem Still.refl (p : Proc) : Still p p := fun h => ⟨h, rfl, rfl⟩

theorem Proc.wake_awake (p : Proc) : p.wake.state ≠ .sleeping := by
  unfold Proc.wake
  split
  · nofun
  · assumption

theorem still_wakeup1 (r : Slot) (p : Proc) : Still p (p.wakeup1 r) := by
  unfold Proc.wakeup1
  split
  · exact fun h => absurd h p.wake_awake
  · exact .refl p

variable {p : Proc}

theorem still_set (ht : t.proc = update s.proc i p) (h : Still (s.proc i) p) (r : Slot) :
    Still (s.proc r) (t.proc r) := by
  rw [ht]
  by_cases hr : r = i
  · subst hr
    rwa [update_self]
  · rw [update_of_ne hr]
    exact .refl _

/-- The code that ends in `sched` with the process asleep. -/
def Pc.drowsy : Pc → Bool
  | .pause (.sleep _) _ | .waitScan .. => true
  | _ => false

variable {k : Pc}

theorem Thread.still (h : Thread s c q ok k t) (hco : Coherent s) (hc : (s.cpu c).ctx = .thread q)
    (hpc : s.pc q = k) (r : Slot) (hr : r = q → k.drowsy = false) : Still (s.proc r) (t.proc r) := by
  have hrun : (∀ x, k ≠ .sched x) → (s.proc q).state ≠ .sleeping := fun hk => by
    rw [hco.state_running hc (by rw [hpc]; exact hk)]
    simp
  cases h with
  | acquire | forkNone | killNone | allocNext | copy | exitRead | reparentTake | reparentNext | waitTake |
    waitNext | waitNone | waitAlive | reapFail | waitReturn | killNext | sched | yielded | forkret =>
    exact .refl _
  | sleep | waitSleep =>
    have hne : r ≠ q := fun h => absurd (hr h) (by simp [Pc.drowsy])
    rw [State.leave, goto_proc, set_proc, update_of_ne hne]
    exact .refl _
  | alloc | allocFail | forkParent | reparentSet => exact still_set rfl (by exact fun h => ⟨h, rfl, rfl⟩) r
  | yield | copyFail | forkStart | reap => exact still_set rfl (fun h => by cases h) r
  | exitInit st => exact still_set rfl (still_wakeup1 _ _) r
  | @zombie st op i hi =>
    intro hst
    by_cases hq : r = q
    · subst hq
      simp [Procs.zombie] at hst
    · rw [Procs.zombie, goto_proc, release_proc, set_proc, update_of_ne hq] at hst ⊢
      exact still_set rfl (still_wakeup1 op (s.proc op)) r hst
  | killHit hx => exact still_set rfl (fun h => absurd h (Proc.wake_awake _)) r
  | slept | waitBack => exact still_set rfl (by exact fun h => absurd h (hrun (by simp))) r

variable {a : Act nc}

/-- Processes are put to sleep by their own threads. -/
theorem Step.still (h : Step s a t) (hco : Coherent s) (r : Slot)
    (hr : ∀ c ok, a = .run c ok → (s.cpu c).ctx = .thread r → (s.pc r).drowsy = false) :
    Still (s.proc r) (t.proc r) := by
  cases h with
  | call | exit | pause | lock | restart | skip | back | wakeupOther => exact .refl _
  | thread hc ht => exact ht.still hco hc rfl r fun h => by subst h; exact hr _ _ rfl hc
  | resume hc hst => exact still_set rfl (fun h => by cases h) r
  | wakeup hfree hch => exact still_set rfl (fun h => absurd h (Proc.wake_awake _)) r

/-! ### Channels -/

/-- What the thread sleeps on, if it has been saved in `sleep` or `wait`. -/
def Saved.chan (q : Slot) : Saved → Option Chan
  | .resume (.sleep n) _ => some (.other n)
  | .waitBack _ => some (.proc q)
  | _ => none

/-- A sleeping process has been saved in `sleep` or `wait`, and `chan` is what it sleeps on. -/
def Napping (s : State nc) : Prop :=
  ∀ q, (s.proc q).state = .sleeping → ∃ x ch, (s.pc q = .sched x ∨ s.pc q = .back x) ∧
    x.chan q = some ch ∧ (s.proc q).chan = some ch

/-- The place of a thread changes when it executes, and when `fork` starts it. -/
theorem Step.pc_other (h : Step s a t) (r : Slot) :
    t.pc r = s.pc r ∨ (t.pc r = .back .forkret ∧ ∃ q, s.pc q = .forkStart r) ∨
      (∃ c ok, a = .run c ok ∧ (s.cpu c).ctx = .thread r) ∨
      ∃ c p p', (s.cpu c).ctx = .thread r ∧ s.pc r = .at p ∧
        (t.pc r = .at p' ∨ ∃ w, a = .pause c w ∧ t.pc r = .pause w p) := by
  cases h with
  | lock | restart | resume | skip | back | wakeup | wakeupOther => exact .inl rfl
  | @call c q k hc hpc hk =>
    by_cases hr : r = q
    · subst hr
      exact .inr (.inr (.inr ⟨c, _, k.start, hc, hpc, .inl (by simp)⟩))
    · exact .inl (by simp [hr])
  | @exit c q st hc hpc hq =>
    by_cases hr : r = q
    · subst hr
      exact .inr (.inr (.inr ⟨c, _, .exit st, hc, hpc, .inl (by simp)⟩))
    · exact .inl (by simp [hr])
  | @pause c q w p hc hpc hfree =>
    by_cases hr : r = q
    · subst hr
      exact .inr (.inr (.inr ⟨c, p, p, hc, hpc, .inr ⟨w, rfl, by simp⟩⟩))
    · exact .inl (by simp [hr, State.locked])
  | @thread c q ok t hc ht =>
    by_cases hr : r = q
    · subst hr
      exact .inr (.inr (.inl ⟨c, ok, rfl, hc⟩))
    · generalize hk : s.pc q = k at ht
      cases ht with
      | forkStart i =>
        by_cases hi : r = i
        · subst hi
          exact .inr (.inl ⟨by simp [State.ret, hr], q, hk⟩)
        · exact .inl (by simp [State.ret, hr, hi])
      | _ => exact .inl (by simp [State.ret, State.locked, State.leave, State.allocpid, State.killed,
          Procs.zombie, hr])

theorem Step.of_run {c : Fin nc} (h : Step s (.run c ok) t) (hc : (s.cpu c).ctx = .thread q) :
    Thread s c q ok (s.pc q) t := by
  cases h with
  | @thread _ q' _ _ hc' ht =>
    obtain rfl : q' = q := by
      rw [hc] at hc'
      exact (Ctx.thread.inj hc').symm
    exact ht
  | lock hc' | restart hc' | resume hc' | skip hc' | back hc' => rw [hc] at hc'; cases hc'

/-- A processor leaves a thread when the thread has called `sched`. -/
theorem Step.ctx (h : Step s a t) (hc : (s.cpu c).ctx = .thread r) :
    (t.cpu c).ctx = .thread r ∨ ∃ ok x, a = .run c ok ∧ s.pc r = .sched x := by
  have hswitch : ∀ {d : Fin nc} {o x}, (∀ q, (s.cpu d).ctx ≠ .thread q) → ((s.switch d o x).cpu c).ctx = .thread r := by
    intro d o x hd
    have hne : c ≠ d := by
      rintro rfl
      exact hd r hc
    simpa [hne] using hc
  cases h with
  | call | exit | pause | wakeup | wakeupOther => exact .inl hc
  | lock hd | restart hd | skip hd | back hd | resume hd => exact .inl (hswitch fun q hq => by rw [hd] at hq; cases hq)
  | @thread d q ok t hd ht =>
    generalize hk : s.pc q = k at ht
    cases ht with
    | sched x =>
      by_cases hcd : c = d
      · subst hcd
        rw [hc] at hd
        obtain rfl := Ctx.thread.inj hd
        exact .inr ⟨ok, x, rfl, hk⟩
      · exact .inl (by simpa [hcd] using hc)
    | _ => exact .inl hc

namespace Napping

theorem thread (h : Napping s) (hco : Coherent s) (hc : (s.cpu c).ctx = .thread q)
    (ht : Thread s c q ok (s.pc q) t) (hst : (t.proc q).state = .sleeping) :
    ∃ x ch, (t.pc q = .sched x ∨ t.pc q = .back x) ∧ x.chan q = some ch ∧ (t.proc q).chan = some ch := by
  have hrun : (∀ x, s.pc q ≠ .sched x) → (s.proc q).state = .running := hco.state_running hc
  have hstill := ht.still hco hc rfl q
  generalize hk : s.pc q = k at ht hrun hstill
  cases ht with
  | sleep n p => exact ⟨_, _, .inl (by simp [State.leave]; rfl), rfl, by simp [State.leave]⟩
  | @waitSleep addr => exact ⟨.waitBack addr, _, .inl (by simp [State.leave]), rfl, by simp [State.leave]⟩
  | sched x =>
    obtain ⟨hs, hchan, -⟩ := hstill (fun _ => rfl) hst
    obtain ⟨x', ch, hx, hch, hcq⟩ := h q hs
    obtain rfl : x' = x := by
      rcases hx with hx | hx
      · rw [hk] at hx
        exact (Pc.sched.inj hx).symm
      · rw [hk] at hx
        cases hx
    exact ⟨x', ch, .inr (by simp), hch, hchan.trans hcq⟩
  | acquire ha =>
    have hs : (s.proc q).state = .sleeping := hst
    rw [hrun (by cases ha <;> simp)] at hs
    cases hs
  | waitTake | waitNext | waitNone =>
    have hs : (s.proc q).state = .sleeping := hst
    rw [hrun (by simp)] at hs
    cases hs
  | _ =>
    obtain ⟨hs, -⟩ := hstill (fun _ => rfl) hst
    rw [hrun (by simp)] at hs
    cases hs

theorem step (h : Napping s) (hco : Coherent s) {a : Act nc} (ht : Step s a t) : Napping t := by
  intro r hst
  by_cases hown : ∃ c ok, a = .run c ok ∧ (s.cpu c).ctx = .thread r
  · obtain ⟨c, ok, rfl, hc⟩ := hown
    exact h.thread hco hc (ht.of_run hc) hst
  · have hstill := ht.still hco r fun c ok ha hc => absurd ⟨c, ok, ha, hc⟩ hown
    obtain ⟨hs, hchan, -⟩ := hstill hst
    obtain ⟨x, ch, hx, hch, hcr⟩ := h r hs
    refine ⟨x, ch, ?_, hch, hchan.trans hcr⟩
    rcases ht.pc_other r with hpc | ⟨-, q, hq⟩ | hrun | ⟨c, p, p', hc, hat, -⟩
    · rwa [hpc]
    · rw [hco.unused_of_making (by rw [hq]; rfl)] at hs
      cases hs
    · exact absurd hrun hown
    · rw [hat] at hx
      rcases hx with hx | hx <;> cases hx

end Napping

theorem napping_boot : Napping (boot nc) := by
  intro q hst
  by_cases hq : q = initproc <;> simp [boot, hq, Proc.free] at hst

/-! ### Waiting on a channel -/

/-- The channel of a thread on its way into `sleep`, in it, or on its way back. -/
def Pc.nap : Pc → Option Nat
  | .pause (.sleep n) _ | .sched (.resume (.sleep n) _) | .back (.resume (.sleep n) _) => some n
  | _ => none

/-- The process holds its lock in `sleep(n, lk)`, or sleeps there. -/
def State.waiting (s : State nc) (r : Slot) (n : Nat) : Prop :=
  (s.pc r).nap = some n ∧ ((∃ w p, s.pc r = .pause w p) ∨ (s.proc r).state = .sleeping)

theorem Thread.nap (h : Thread s c q ok k t) (hn : (t.pc q).nap = some n) : k.nap = some n := by
  cases h with
  | acquire ha => cases ha <;> simp [Pc.nap] at hn
  | sched x =>
    have hx : (Pc.back x).nap = some n := by simpa using hn
    cases x with
    | resume w p => cases w <;> exact hx
    | _ => cases hx
  | sleep m p =>
    have hx : (Pc.sched (.resume (.sleep m) p)).nap = some n := by simpa [State.leave] using hn
    exact hx
  | _ => simp [State.ret, State.leave, Procs.zombie, State.killed, State.allocpid, Pc.nap] at hn

/-- A process that waits on a channel has waited before, or acquires its lock in `sleep`. -/
theorem Step.waiting (h : Step s a t) (hco : Coherent s) (hw : t.waiting r n) :
    s.waiting r n ∨ ∃ c p, a = .pause c (.sleep n) ∧ (s.cpu c).ctx = .thread r ∧ s.pc r = .at p := by
  obtain ⟨hn, hw⟩ := hw
  by_cases hown : ∃ c ok, a = .run c ok ∧ (s.cpu c).ctx = .thread r
  · obtain ⟨c, ok, rfl, hc⟩ := hown
    have ht := h.of_run hc
    have hk := ht.nap hn
    refine .inl ⟨hk, ?_⟩
    generalize s.pc r = k at ht hk
    cases ht with
    | sleep m p => exact .inl ⟨_, _, rfl⟩
    | sched x =>
      rcases hw with ⟨w, p, hw⟩ | hst
      · simp at hw
      · exact .inr hst
    | slept m p => simp [Pc.nap] at hn
    | acquire ha => cases ha <;> cases hk
    | _ => cases hk
  · have hstill := h.still hco r fun c ok ha hc => absurd ⟨c, ok, ha, hc⟩ hown
    rcases h.pc_other r with hpc | ⟨hpc, -⟩ | hrun | ⟨c, p, p', hc, hat, hpc | ⟨w, rfl, hpc⟩⟩
    · rw [hpc] at hn hw
      exact .inl ⟨hn, hw.imp_right fun hst => (hstill hst).1⟩
    · rw [hpc] at hn
      cases hn
    · exact absurd hrun hown
    · rw [hpc] at hn
      cases hn
    · rw [hpc] at hn
      cases w with
      | yield => cases hn
      | sleep m =>
        cases hn
        exact .inr ⟨c, p, rfl, hc, hat⟩

/-- A thread about to call `sched` runs, and its processor has its lock. -/
theorem Coherent.pause_held (h : Coherent s) {w : Pause} {p : Point} (hpc : s.pc r = .pause w p) :
    ∃ c, (s.cpu c).ctx = .thread r ∧ r ∈ s.held c := by
  have hf := h.fits r
  have hruns : s.runs r := by
    cases hst : (s.proc r).state with
    | running => rw [hst] at hf; exact hf.1
    | unused => rw [hst, hpc] at hf; cases hf.2
    | zombie => rw [hst, hpc] at hf; rcases hf with ⟨-, hf⟩ | ⟨-, hf⟩ <;> cases hf
    | runnable | sleeping =>
      rw [hst, hpc] at hf
      obtain ⟨x, -, ⟨-, hf⟩ | ⟨-, hf⟩⟩ := hf <;> cases hf
  obtain ⟨c, hc⟩ := hruns
  refine ⟨c, hc, ?_⟩
  rw [Coherent.held_self hc, hpc]
  exact List.mem_singleton_self r

theorem Coherent.not_pause (h : Coherent s) (hfree : s.lock r = none) (w : Pause) (p : Point) :
    s.pc r ≠ .pause w p := by
  intro hpc
  obtain ⟨c, -, hheld⟩ := h.pause_held hpc
  rw [(h.locks.held_iff r c).mpr hheld] at hfree
  cases hfree

/-- `wakeup` does not leave a process behind that waits on the channel. -/
theorem wakeup_wakes (hco : Coherent s) (hnap : Napping s) (h : step s (.wakeup n r) = some t) :
    ¬ t.waiting r n := by
  simp only [step, wakeupStep] at h
  split at h
  · rename_i hfree
    cases h
    rintro ⟨hn, hw⟩
    have hpc : (if (s.proc r).chan = some (.other n) then s.set r (s.proc r).wake else s).pc r = s.pc r := by
      split <;> rfl
    rw [hpc] at hn hw
    rcases hw with ⟨w, p, hw⟩ | hst
    · exact hco.not_pause hfree w p hw
    · split at hst
      · rw [set_proc, update_self] at hst
        exact (s.proc r).wake_awake hst
      · rename_i hch
        obtain ⟨x, ch, hx, hxch, hch'⟩ := hnap r hst
        refine hch (hch'.trans ?_)
        rw [← hxch]
        rcases hx with hx | hx <;> rw [hx] at hn <;> cases x with
          | resume w p =>
            cases w with
            | sleep m => cases hn; rfl
            | _ => cases hn
          | _ => cases hn
  · cases h

/-! ### Resting threads -/

/-- The thread is at a point without process locks, or gives up its processor there. -/
def Pc.rests : Pc → Bool
  | .at _ | .pause .. | .sched (.resume ..) | .back (.resume ..) => true
  | _ => false

theorem Thread.rests (h : Thread s c q ok k t) (hk : k.rests = true) (hat : ∀ p, k ≠ .at p) :
    (t.pc q).rests = true := by
  cases h with
  | acquire ha => cases ha <;> first | exact absurd rfl (hat _) | cases hk
  | forkNone | killNone => exact absurd rfl (hat _)
  | yield | sleep => simp [State.leave, Pc.rests]
  | sched x =>
    cases x with
    | resume w p => simp [Pc.rests]
    | _ => cases hk
  | yielded | slept => simp [Pc.rests]
  | _ => cases hk

/-! ### Kills -/

/-- `kill` has found its victim. -/
def State.marks (s : State nc) (a : Act nc) (r : Slot) : Prop :=
  ∃ c q x ok, a = .run c ok ∧ (s.cpu c).ctx = .thread q ∧ s.pc q = .killTest x r ∧ (s.proc r).pid = x

theorem killed_wake (p : Proc) : p.wake.killed = p.killed := by
  unfold Proc.wake
  split <;> rfl

theorem killed_wakeup1 (r : Slot) (p : Proc) : (p.wakeup1 r).killed = p.killed := by
  unfold Proc.wakeup1
  split
  · exact killed_wake p
  · rfl

theorem killed_set (ht : t.proc = update s.proc i p)
    (h : p.killed = true → (s.proc i).killed = true) (hk : (t.proc r).killed = true) :
    (s.proc r).killed = true := by
  rw [ht] at hk
  by_cases hr : r = i
  · subst hr
    rw [update_self] at hk
    exact h hk
  · rwa [update_of_ne hr] at hk

theorem Thread.killed (h : Thread s c q ok (s.pc q) t) (hc : (s.cpu c).ctx = .thread q)
    (hk : (t.proc r).killed = true) : (s.proc r).killed = true ∨ s.marks (.run c ok) r := by
  generalize hpc : s.pc q = k at h
  cases h with
  | acquire | forkNone | killNone | allocNext | copy | exitRead | reparentTake | reparentNext | waitTake |
    waitNext | waitNone | waitAlive | reapFail | waitReturn | killNext | sched | yielded | forkret =>
    exact .inl hk
  | yield | sleep | waitSleep | alloc | allocFail | forkParent | reparentSet | forkStart | slept | waitBack =>
    exact .inl (killed_set rfl (by exact id) hk)
  | copyFail | reap => exact .inl (killed_set rfl (by exact nofun) hk)
  | exitInit st => exact .inl (killed_set rfl (by rw [killed_wakeup1]; exact id) hk)
  | @zombie st op i hi =>
    have hwake : ((s.set op ((s.proc op).wakeup1 op)).proc r).killed = true := by
      rw [Procs.zombie, goto_proc, release_proc] at hk
      exact killed_set rfl (by exact id) hk
    exact .inl (killed_set rfl (by rw [killed_wakeup1]; exact id) hwake)
  | @killHit x i hx =>
    by_cases hr : r = i
    · subst hr
      exact .inr ⟨c, q, x, ok, rfl, hc, hpc, hx⟩
    · exact .inl (by simpa [State.killed, State.ret, hr] using hk)

/-- Only `kill` marks a process. -/
theorem Step.killed (h : Step s a t) (hk : (t.proc r).killed = true) :
    (s.proc r).killed = true ∨ s.marks a r := by
  cases h with
  | call | exit | pause | lock | restart | skip | back | wakeupOther => exact .inl hk
  | thread hc ht => exact ht.killed hc hk
  | resume hc hst => exact .inl (killed_set rfl (by exact id) hk)
  | wakeup hfree hch => exact .inl (killed_set rfl (by rw [killed_wake]; exact id) hk)

/-- The victim of `kill` is not on its way into `sleep`: it would hold its lock. -/
theorem State.marks.not_pause (h : s.marks a r) (hco : Coherent s) (w : Pause) (p : Point) :
    s.pc r ≠ .pause w p := by
  intro hpc
  obtain ⟨c, q, x, ok, -, hc, hq, -⟩ := h
  obtain ⟨c', hc', hheld⟩ := hco.pause_held hpc
  have hkill : r ∈ s.held c := by
    rw [Coherent.held_self hc, hq]
    exact List.mem_singleton_self r
  obtain rfl := hco.locks.alone hkill hheld
  rw [hc] at hc'
  obtain rfl := Ctx.thread.inj hc'
  rw [hq] at hpc
  cases hpc

/-- A process that waits on a channel after a step has not been marked by it. -/
theorem Step.waiting_killed (h : Step s a t) (hco : Coherent s) (hw : t.waiting r n)
    (hk : (t.proc r).killed = true) : (s.proc r).killed = true := by
  rcases h.killed hk with hk | hm
  · exact hk
  · have hs : s.waiting r n := by
      rcases h.waiting hco hw with hs | ⟨c, p, rfl, -⟩
      · exact hs
      · obtain ⟨c, q, x, ok, ha, -⟩ := hm
        cases ha
    have hno : ∀ c ok, a = .run c ok → (s.cpu c).ctx ≠ .thread r := by
      rintro c ok rfl hc
      obtain ⟨c', q, x, ok', ha, hc', hq, -⟩ := hm
      cases ha
      rw [hc] at hc'
      obtain rfl := Ctx.thread.inj hc'
      have hn := hs.1
      rw [hq] at hn
      cases hn
    have hstill := h.still hco r fun c ok ha hc => absurd hc (hno c ok ha)
    rcases hw.2 with ⟨w, p, hpc⟩ | hst
    · rcases h.pc_other r with heq | ⟨heq, -⟩ | ⟨c, ok, ha, hc⟩ | ⟨c, p', p'', -, hat, -⟩
      · exact absurd (heq ▸ hpc) (hm.not_pause hco w p)
      · rw [hpc] at heq
        cases heq
      · exact absurd hc (hno c ok ha)
      · have hn := hs.1
        rw [hat] at hn
        cases hn
    · rw [← (hstill hst).2.2]
      exact hk

/-! ### Kills of a process in `wait` -/

/-- `wait` tests `killed` and goes to sleep with its lock held, so it does not sleep through a kill. -/
def WaitAlive (s : State nc) : Prop :=
  ∀ r addr, (s.proc r).state = .sleeping → (s.pc r = .sched (.waitBack addr) ∨ s.pc r = .back (.waitBack addr)) →
    (s.proc r).killed = false

namespace WaitAlive

theorem thread (h : WaitAlive s) (ht : threadStep s c q ok (s.pc q) = some t) {addr : Bool}
    (hst : (t.proc q).state = .sleeping)
    (hpc : t.pc q = .sched (.waitBack addr) ∨ t.pc q = .back (.waitBack addr)) : (t.proc q).killed = false := by
  have hthread := threadStep_thread ht
  generalize hk : s.pc q = k at ht hthread
  cases hthread with
  | @waitSleep addr' kids i hi =>
    simp only [threadStep, dif_neg hi, Option.some.injEq] at ht
    cases hkilled : (s.proc q).killed with
    | false => simpa [State.leave] using hkilled
    | true =>
      rw [waitEnd, if_pos (by simp [hkilled])] at ht
      have hpc' := congrArg (fun u : State nc => u.pc q) ht
      simp [State.leave, State.ret] at hpc'
  | sched x =>
    rcases hpc with hpc | hpc
    · simp at hpc
    · obtain rfl : x = .waitBack addr := by simpa using hpc
      exact h q addr hst (.inl hk)
  | acquire ha => cases ha <;> simp at hpc
  | _ => simp [State.ret, State.leave, Procs.zombie, State.killed, State.allocpid] at hpc

theorem step (h : WaitAlive s) (hco : Coherent s) {a : Act nc} (ht : step s a = some t) : WaitAlive t := by
  intro r addr hst hpc
  have hstep := step_step ht
  by_cases hown : ∃ c ok, a = .run c ok ∧ (s.cpu c).ctx = .thread r
  · obtain ⟨c, ok, rfl, hc⟩ := hown
    simp only [Procs.step, hc] at ht
    exact h.thread ht hst hpc
  · obtain ⟨hs, -, hk⟩ := hstep.still hco r (fun c ok ha hc => absurd ⟨c, ok, ha, hc⟩ hown) hst
    rcases hstep.pc_other r with heq | ⟨heq, -⟩ | hrun | ⟨c, p, p', -, -, heq | ⟨w, -, heq⟩⟩
    · rw [heq] at hpc
      exact hk.trans (h r addr hs hpc)
    · rw [heq] at hpc
      rcases hpc with hpc | hpc <;> cases hpc
    · exact absurd hrun hown
    · rw [heq] at hpc
      rcases hpc with hpc | hpc <;> cases hpc
    · rw [heq] at hpc
      rcases hpc with hpc | hpc <;> cases hpc

end WaitAlive

theorem waitAlive_boot : WaitAlive (boot nc) := by
  intro q addr hst
  by_cases hq : q = initproc <;> simp [boot, hq, Proc.free] at hst

end Xv6.Procs
