import Xv6.Kernel.Sleep.Steps

/-! Who holds a lock, and where a thread is underneath.

    A thread that holds a lock of a call runs on the processor that owns the lock, and no interrupt is
    handled there; so two threads do not hold the same lock. The place of a thread in its call fits to
    its place in the machine of processes: it waits on the channel of the call when it is in `sleep`. -/

namespace Xv6.Sleep

open Procs (Slot Coherent Napping)
open State Function

variable {nc : Nat} {s t : State nc} {c : Fin nc} {q r : Slot} {u : Procs.State nc}

theorem Chan.num_inj {a b : Chan} (h : a.num = b.num) : a = b := by
  cases a <;> cases b <;> simp only [Chan.num] at h <;>
    first | rfl | omega | exact congrArg _ (show @Eq Nat _ _ by omega)

/-- Where the thread may be underneath. -/
def Pos.fits (k : Procs.Pc) : Pos → Prop
  | .out => ∀ n, k.nap = some n → ∃ m, n = (Chan.other m).num
  | .enter _ | .close _ => k.rests = true ∧ k.nap = none
  | .asleep j => k.rests = true ∧ ∀ n, k.nap = some n → n = j.chan.num
  | .unlock j => ∃ p, k = .pause (.sleep j.chan.num) p
  | _ => ∃ p, k = .at p

structure Sound (s : State nc) : Prop where
  coherent : Coherent s.procs
  napping : Napping s.procs
  thread : ∀ q l, (s.pos q).holds = some l →
    ∃ c, (s.procs.cpu c).ctx = .thread q ∧ s.lock l = some c ∧ s.intr c = none
  handler : ∀ c h l, s.intr c = some h → h.holds = some l → s.lock l = some c
  fits : ∀ q, (s.pos q).fits (s.procs.pc q)

theorem fits_at {k : Pos} (hk : ∀ j, k ≠ .unlock j) (p : Procs.Point) : k.fits (.at p) := by
  cases k with
  | unlock j => exact absurd rfl (hk j)
  | out => exact nofun
  | enter | close => exact ⟨rfl, rfl⟩
  | asleep => exact ⟨rfl, nofun⟩
  | _ => exact ⟨p, rfl⟩

theorem out_of_dead {k : Pos} {x : Procs.Pc} (h : k.fits x) (hx : x.rests = false) : k = .out := by
  cases k with
  | out => rfl
  | enter | close | asleep =>
    rw [h.1] at hx
    cases hx
  | _ =>
    obtain ⟨p, rfl⟩ := h
    cases hx

/-- A thread that holds no lock of a call may give up its processor. -/
theorem fits_yield {k : Pos} {p : Procs.Point} (hk : k.holds = none) : k.fits (.pause .yield p) := by
  cases k with
  | out => exact nofun
  | enter | close => exact ⟨rfl, rfl⟩
  | asleep => exact ⟨rfl, nofun⟩
  | _ => cases hk

namespace Sound

/-- Two threads do not hold the same lock. -/
theorem sole (h : Sound s) {l : Lock} (hq : (s.pos q).holds = some l) (hr : (s.pos r).holds = some l) : q = r := by
  obtain ⟨c, hc, hl, -⟩ := h.thread q l hq
  obtain ⟨c', hc', hl', -⟩ := h.thread r l hr
  cases hl.symm.trans hl'
  rw [hc] at hc'
  exact Procs.Ctx.thread.inj hc'

theorem nobody (h : Sound s) {l : Lock} (hfree : s.lock l = none) (q : Slot) : (s.pos q).holds ≠ some l := by
  intro hq
  obtain ⟨c, -, hl, -⟩ := h.thread q l hq
  rw [hfree] at hl
  cases hl

/-- A process that waits on the channel of a call is in `sleep`, called there. -/
theorem of_waiting (h : Sound s) {ch : Chan} (hw : s.procs.waiting q ch.num) (hch : ∀ m, ch ≠ .other m) :
    ∃ k, (s.pos q = .unlock k ∨ s.pos q = .asleep k) ∧ k.chan = ch := by
  have hf := h.fits q
  have hn := hw.1
  cases hp : s.pos q with
  | out =>
    rw [hp] at hf
    obtain ⟨m, hm⟩ := hf _ hn
    exact absurd (Chan.num_inj hm) (hch m)
  | asleep k =>
    rw [hp] at hf
    exact ⟨k, .inr rfl, (Chan.num_inj (hf.2 _ hn)).symm⟩
  | unlock k =>
    rw [hp] at hf
    obtain ⟨p, hk⟩ := hf
    rw [hk] at hn
    exact ⟨k, .inl rfl, Chan.num_inj (Option.some.inj hn)⟩
  | enter | close =>
    rw [hp] at hf
    rw [hf.2] at hn
    cases hn
  | _ =>
    rw [hp] at hf
    obtain ⟨p, hk⟩ := hf
    rw [hk] at hn
    cases hn

end Sound

/-! ### Steps of the machine underneath -/

namespace Lifts

variable {a : Act nc} {b : Procs.Act nc}

theorem pause_inv {w : Procs.Pause} (h : Lifts s a (.pause c w)) : ∃ q, s.current c = some q ∧
    ((w = .yield ∧ (s.pos q).holds = none) ∨ ∃ n, w = .sleep (Chan.other n).num ∧ s.pos q = .out) := by
  cases h with
  | yield hq hpos => exact ⟨_, hq, .inl ⟨rfl, hpos⟩⟩
  | sleep hq hpos => exact ⟨_, hq, .inr ⟨_, rfl, hpos⟩⟩

theorem run_inv {ok : Bool} (h : Lifts s a (.run c ok)) (hc : (s.procs.cpu c).ctx = .thread r) :
    s.mayRun r = true := by
  cases h with
  | scheduler hne => exact absurd hc (hne r)
  | thread hq hrun =>
    have hc' := (thread_of_current hq).2
    rw [hc] at hc'
    obtain rfl := Procs.Ctx.thread.inj hc'
    exact hrun

theorem ctx (h : Lifts s a b) (hu : Procs.step s.procs b = some u) (hr : (s.pos r).holds ≠ none)
    (hc : (s.procs.cpu c).ctx = .thread r) : (u.cpu c).ctx = .thread r := by
  rcases (Procs.step_step hu).ctx hc with hc' | ⟨ok, x, rfl, hx⟩
  · exact hc'
  · have hrun := h.run_inv hc
    simp only [State.mayRun, hx, decide_eq_true_eq] at hrun
    exact absurd hrun hr

theorem fits_run {ok : Bool} (h : Lifts s a (.run c ok)) (hs : (s.pos r).fits (s.procs.pc r))
    (hc : (s.procs.cpu c).ctx = .thread r) (ht : Procs.Thread s.procs c r ok (s.procs.pc r) u) :
    (s.pos r).fits (u.pc r) := by
  have hrun := h.run_inv hc
  have hnap : ∀ n, (u.pc r).nap = some n → (s.procs.pc r).nap = some n := fun n => ht.nap
  have hat : s.pos r ≠ .out → (∀ p, s.procs.pc r ≠ .at p) ∧ (s.pos r).holds = none := by
    intro hout
    unfold State.mayRun at hrun
    split at hrun
    · exact absurd (by simpa using hrun : s.pos r = .out ∧ _).1 hout
    · exact absurd (by simpa using hrun) hout
    · rename_i hne
      exact ⟨hne, by simpa using hrun⟩
  cases hp : s.pos r with
  | out =>
    rw [hp] at hs
    exact fun n hn => hs n (hnap n hn)
  | enter | close =>
    obtain ⟨hat, -⟩ := hat (by rw [hp]; nofun)
    rw [hp] at hs
    refine ⟨ht.rests hs.1 hat, ?_⟩
    rw [Option.eq_none_iff_forall_not_mem]
    intro n hn
    have := hnap n hn
    rw [hs.2] at this
    cases this
  | asleep =>
    obtain ⟨hat, -⟩ := hat (by rw [hp]; nofun)
    rw [hp] at hs
    exact ⟨ht.rests hs.1 hat, fun n hn => hs.2 n (hnap n hn)⟩
  | _ =>
    have hh := (hat (by rw [hp]; nofun)).2
    rw [hp] at hh
    cases hh

theorem fits (h : Lifts s a b) (hs : Sound s) (hu : Procs.step s.procs b = some u) (r : Slot) :
    (s.pos r).fits (u.pc r) := by
  have hf := hs.fits r
  have hstep := Procs.step_step hu
  rcases hstep.pc_other r with hpc | ⟨hpc, q, hq⟩ | ⟨c, ok, rfl, hc⟩ | ⟨c, p, p', hc, hat, hpc⟩
  · rwa [hpc]
  · have hdead := hs.coherent.dead_of_unused (hs.coherent.unused_of_making (by rw [hq]; rfl))
    rw [hdead] at hf
    rw [hpc, out_of_dead hf rfl]
    exact nofun
  · exact h.fits_run hf hc (hstep.of_run hc)
  · have hne : ∀ j, s.pos r ≠ .unlock j := by
      intro j hj
      rw [hj, hat] at hf
      obtain ⟨p, hp⟩ := hf
      cases hp
    rcases hpc with hpc | ⟨w, rfl, hpc⟩
    · rw [hpc]
      exact fits_at hne p'
    · obtain ⟨q, hq, hw⟩ := h.pause_inv
      obtain rfl : r = q := by
        have hc' := (thread_of_current hq).2
        rw [hc] at hc'
        exact Procs.Ctx.thread.inj hc'
      rw [hpc]
      rcases hw with ⟨rfl, hhold⟩ | ⟨n, rfl, hout⟩
      · exact fits_yield hhold
      · rw [hout]
        intro m hm
        exact ⟨n, (Option.some.inj hm).symm⟩

/-- No process begins to wait on the channel of a call. -/
theorem waiting (h : Lifts s a b) (hs : Sound s) (hu : Procs.step s.procs b = some u) {ch : Chan}
    (hch : ∀ m, ch ≠ .other m) (hw : u.waiting r ch.num) : s.procs.waiting r ch.num := by
  rcases (Procs.step_step hu).waiting hs.coherent hw with hw | ⟨c, p, rfl, -, -⟩
  · exact hw
  · obtain ⟨q, -, ⟨hw, -⟩ | ⟨n, hw, -⟩⟩ := h.pause_inv
    · cases hw
    · exact absurd (Chan.num_inj (Procs.Pause.sleep.inj hw)) (hch n)

end Lifts

/-! ### Steps of a thread -/

/-- The thread of `q` goes on to `k`. -/
structure Moved (s t : State nc) (q : Slot) (k : Pos) : Prop where
  coherent : Coherent t.procs
  napping : Napping t.procs
  cpu : t.procs.cpu = s.procs.cpu
  pc : ∀ r, r ≠ q → t.procs.pc r = s.procs.pc r
  pos : t.pos = update s.pos q k
  intr : t.intr = s.intr
  fits : k.fits (t.procs.pc q)

namespace Moved

variable {k : Pos} {l : Lock}

theorem sound (m : Moved s t q k) (h : Sound s)
    (hself : ∀ l, k.holds = some l → ∃ c, (s.procs.cpu c).ctx = .thread q ∧ t.lock l = some c ∧ s.intr c = none)
    (hother : ∀ r l c, r ≠ q → (s.pos r).holds = some l → s.lock l = some c → t.lock l = some c)
    (hhandler : ∀ c h l, s.intr c = some h → h.holds = some l → t.lock l = some c) : Sound t where
  coherent := m.coherent
  napping := m.napping
  thread r l hl := by
    rw [m.pos] at hl
    rw [m.cpu, m.intr]
    by_cases hr : r = q
    · subst hr
      rw [update_self] at hl
      exact hself l hl
    · rw [update_of_ne hr] at hl
      obtain ⟨c, hc, hlock, hi⟩ := h.thread r l hl
      exact ⟨c, hc, hother r l c hr hl hlock, hi⟩
  handler := by
    rw [m.intr]
    exact hhandler
  fits r := by
    rw [m.pos]
    by_cases hr : r = q
    · subst hr
      rw [update_self]
      exact m.fits
    · rw [update_of_ne hr, m.pc r hr]
      exact h.fits r

theorem keep (m : Moved s t q k) (h : Sound s) (hlock : t.lock = s.lock) (hk : k.holds = (s.pos q).holds) :
    Sound t :=
  m.sound h (fun l hl => by rw [hlock]; exact h.thread q l (hk ▸ hl)) (fun _ _ _ _ _ hl => by rwa [hlock])
    fun c x l hx hl => by rw [hlock]; exact h.handler c x l hx hl

theorem acquire (m : Moved s t q k) (h : Sound s) (hq : s.current c = some q) (hfree : s.lock l = none)
    (hlock : t.lock = update s.lock l (some c)) (hk : k.holds = some l) : Sound t := by
  obtain ⟨hi, hc⟩ := thread_of_current hq
  have hkeep : ∀ l' c', s.lock l' = some c' → t.lock l' = some c' := fun l' c' hl => by
    have hne : l' ≠ l := by
      rintro rfl
      rw [hfree] at hl
      cases hl
    rwa [hlock, update_of_ne hne]
  refine m.sound h (fun l' hl => ⟨c, hc, ?_, hi⟩) (fun _ l' c' _ _ hl => hkeep l' c' hl)
    fun c' x l' hx hl => hkeep l' c' (h.handler c' x l' hx hl)
  rw [hk] at hl
  cases hl
  rw [hlock, update_self]

theorem release (m : Moved s t q k) (h : Sound s) (hl : (s.pos q).holds = some l)
    (hlock : t.lock = update s.lock l none) (hk : k.holds = none) : Sound t := by
  obtain ⟨c, -, hlc, hi⟩ := h.thread q l hl
  have hkeep : ∀ l' c', l' ≠ l → s.lock l' = some c' → t.lock l' = some c' := fun l' c' hne hl => by
    rwa [hlock, update_of_ne hne]
  refine m.sound h (fun l' hl' => by rw [hk] at hl'; cases hl') (fun r l' c' hr hr' => hkeep l' c' ?_)
    fun c' x l' hx hl' => hkeep l' c' ?_ (h.handler c' x l' hx hl')
  · rintro rfl
    exact hr (h.sole hr' hl)
  · rintro rfl
    cases hlc.symm.trans (h.handler c' x _ hx hl')
    rw [hi] at hx
    cases hx

end Moved

namespace Sound

theorem congr (h : Sound s) (hprocs : t.procs = s.procs) (hlock : t.lock = s.lock) (hpos : t.pos = s.pos)
    (hintr : t.intr = s.intr) : Sound t where
  coherent := hprocs ▸ h.coherent
  napping := hprocs ▸ h.napping
  thread := by rw [hprocs, hlock, hpos, hintr]; exact h.thread
  handler := by rw [hlock, hintr]; exact h.handler
  fits := by rw [hprocs, hpos]; exact h.fits

theorem under (h : Sound s) {a : Act nc} {b : Procs.Act nc} (hl : Lifts s a b)
    (hu : Procs.step s.procs b = some u) : Sound (s.under u) where
  coherent := h.coherent.step (Procs.step_step hu)
  napping := h.napping.step h.coherent (Procs.step_step hu)
  thread q l hq := by
    obtain ⟨c, hc, hlock, hi⟩ := h.thread q l hq
    exact ⟨c, hl.ctx hu (fun hn => absurd (hn.symm.trans hq) nofun) hc, hlock, hi⟩
  handler := h.handler
  fits := hl.fits h hu

/-- A step of a thread that lets the machine underneath be. -/
theorem moved (h : Sound s) {k : Pos} (hprocs : t.procs = s.procs) (hpos : t.pos = update s.pos q k)
    (hintr : t.intr = s.intr) (hfits : k.fits (s.procs.pc q)) : Moved s t q k where
  coherent := hprocs ▸ h.coherent
  napping := hprocs ▸ h.napping
  cpu := by rw [hprocs]
  pc _ _ := by rw [hprocs]
  pos := hpos
  intr := hintr
  fits := hprocs ▸ hfits

/-- `wakeup` leaves every thread where it is. -/
theorem wakeup_frame {n : Nat} {i : Slot} {v : Procs.State nc} (hu : Procs.step v (.wakeup n i) = some u) :
    u.cpu = v.cpu ∧ u.pc = v.pc := by
  simp only [Procs.step, Procs.wakeupStep] at hu
  split at hu
  · cases hu
    split <;> exact ⟨rfl, rfl⟩
  · cases hu

theorem moved_wakeup (h : Sound s) {k : Pos} {n : Nat} {i : Slot} (hu : Procs.step s.procs (.wakeup n i) = some u)
    (hfits : k.fits (s.procs.pc q)) : Moved s ((s.under u).goto q k) q k where
  coherent := h.coherent.step (Procs.step_step hu)
  napping := h.napping.step h.coherent (Procs.step_step hu)
  cpu := (wakeup_frame hu).1
  pc _ _ := congrFun (wakeup_frame hu).2 _
  pos := rfl
  intr := rfl
  fits := by rwa [goto_procs, under_procs, (wakeup_frame hu).2]

theorem moved_pause (h : Sound s) {k : Call} (hq : s.current c = some q)
    (hu : Procs.step s.procs (.pause c (.sleep k.chan.num)) = some u) :
    Moved s ((s.under u).goto q (.unlock k)) q (.unlock k) := by
  have hstep := Procs.step_step hu
  have hco := h.coherent.step hstep
  have hnap := h.napping.step h.coherent hstep
  have hc := (thread_of_current hq).2
  generalize hb : Procs.Act.pause c (.sleep k.chan.num) = b at hstep
  cases hstep with
  | @pause c' q' w p hc' hpc hfree =>
    cases hb
    rw [hc] at hc'
    obtain rfl := Procs.Ctx.thread.inj hc'
    exact ⟨hco, hnap, rfl, fun r hr => by simp [Procs.State.locked, hr], rfl, rfl, p, by simp⟩
  | _ => cases hb

theorem go (h : Sound s) (hq : s.current c = some q)
    (hpc : (∃ p, s.procs.pc q = .at p) ∨ ∃ k, s.pos q = .unlock k) {k : Pos} (hk : s.pos q = k)
    (ht : Go s c q k t) : Sound t := by
  have hmove : ∀ {k' : Pos}, t.procs = s.procs → t.pos = update s.pos q k' → t.intr = s.intr →
      (∀ j, k ≠ .unlock j) → (∀ j, k' ≠ .unlock j) → Moved s t q k' := by
    intro k' hprocs hpos hintr hne hne'
    rcases hpc with ⟨p, hp⟩ | ⟨j, hj⟩
    · exact h.moved hprocs hpos hintr (hp ▸ fits_at hne' p)
    · exact absurd (hk.symm.trans hj) (hne j)
  have hkeep : ∀ {k' : Pos}, Moved s t q k' → t.lock = s.lock → k'.holds = k.holds → Sound t :=
    fun m hlock hholds => m.keep h hlock (by rw [hk, hholds])
  cases ht with
  | @enter j hfree =>
    refine (hmove rfl rfl rfl nofun nofun).acquire h hq hfree rfl ?_
    cases j <;> rfl
  | relock hfree | close hfree => exact (hmove rfl rfl rfl nofun nofun).acquire h hq hfree rfl rfl
  | fail | nap | writeFull | writeRoom | writeDone | readSome | consoleRet | consoleMore | sleepDone |
    putFail | put | take | takeLast | copyDone => exact hkeep (hmove rfl rfl rfl nofun nofun) rfl rfl
  | pause hu => exact hkeep (h.moved_pause hq hu) rfl rfl
  | unlock =>
    have hf := h.fits q
    rw [hk] at hf
    obtain ⟨p, hp⟩ := hf
    refine (h.moved rfl rfl rfl ?_ : Moved s ((s.release _).goto q _) q _).release h (by rw [hk]; rfl) rfl rfl
    rw [hp]
    exact ⟨rfl, fun n hn => (Option.some.inj hn).symm⟩
  | wakeup hu =>
    rcases hpc with ⟨p, hp⟩ | ⟨j, hj⟩
    · exact hkeep (h.moved_wakeup hu ⟨p, hp⟩) rfl rfl
    · cases hk.symm.trans hj
  | @woken ch i j hi => cases j <;> exact hkeep (hmove rfl rfl rfl nofun nofun) rfl rfl
  | ret => exact (hmove rfl rfl rfl nofun nofun).release h (by rw [hk]; rfl) rfl rfl

/-- A step of the handler on processor `c`. -/
theorem handled (h : Sound s) (hco : Coherent t.procs) (hnap : Napping t.procs) (hcpu : t.procs.cpu = s.procs.cpu)
    (hpc : t.procs.pc = s.procs.pc) (hpos : t.pos = s.pos) {o : Option Handler}
    (hintr : t.intr = update s.intr c o) (hbusy : ∀ q l, (s.pos q).holds = some l → s.lock l ≠ some c)
    (hself : ∀ x l, o = some x → x.holds = some l → t.lock l = some c)
    (hother : ∀ l c', c' ≠ c → s.lock l = some c' → t.lock l = some c') : Sound t where
  coherent := hco
  napping := hnap
  thread q l hl := by
    rw [hpos] at hl
    obtain ⟨c', hc, hlock, hi⟩ := h.thread q l hl
    have hne : c' ≠ c := by
      rintro rfl
      exact hbusy q l hl hlock
    exact ⟨c', by rw [hcpu]; exact hc, hother l c' hne hlock, by rw [hintr, update_of_ne hne]; exact hi⟩
  handler c' x l hx hl := by
    rw [hintr] at hx
    by_cases hc : c' = c
    · subst hc
      rw [update_self] at hx
      exact hself x l hx hl
    · rw [update_of_ne hc] at hx
      exact hother l c' hc (h.handler c' x l hx hl)
  fits := by rw [hpos, hpc]; exact h.fits

theorem handle (h : Sound s) {k : Handler} (hk : s.intr c = some k) (ht : Handle s c k t) : Sound t := by
  have hbusy : ∀ q l, (s.pos q).holds = some l → s.lock l ≠ some c := fun q l hq hl => by
    obtain ⟨c', -, hl', hi⟩ := h.thread q l hq
    cases hl.symm.trans hl'
    rw [hk] at hi
    cases hi
  have hown : ∀ {k' : Handler}, k'.holds = k.holds → ∀ x l, some k' = some x → x.holds = some l →
      s.lock l = some c := fun hholds x l hx hl => by
    cases hx
    exact h.handler c k l hk (hholds.symm.trans hl)
  cases ht with
  | @enter x hfree =>
    refine h.handled h.coherent h.napping rfl rfl rfl rfl hbusy (fun y l hy hl => ?_) fun l c' _ hl => ?_
    · cases hy
      cases hl
      simp
    · have hne : l ≠ x.lock := by
        rintro rfl
        rw [hfree] at hl
        cases hl
      simpa [hne] using hl
  | uart hh => exact h.handled h.coherent h.napping rfl rfl rfl rfl hbusy (hown hh) fun _ _ _ hl => hl
  | clock | woken => exact h.handled h.coherent h.napping rfl rfl rfl rfl hbusy (hown rfl) fun _ _ _ hl => hl
  | wakeup hu =>
    exact h.handled (h.coherent.step (Procs.step_step hu)) (h.napping.step h.coherent (Procs.step_step hu))
      (wakeup_frame hu).1 (wakeup_frame hu).2 rfl rfl hbusy (hown rfl) fun _ _ _ hl => hl
  | @ret l =>
    refine h.handled h.coherent h.napping rfl rfl rfl rfl hbusy nofun fun l' c' hne hl => ?_
    have hne : l' ≠ l := by
      rintro rfl
      exact hne (Option.some.inj (hl.symm.trans (h.handler c _ _ hk rfl)))
    simpa [hne] using hl

/-- A thread begins a call. -/
theorem begin (h : Sound s) {k : Pos} {p : Procs.Point} (hout : s.pos q = .out) (hpc : s.procs.pc q = .at p)
    (hprocs : t.procs = s.procs) (hpos : t.pos = update s.pos q k) (hintr : t.intr = s.intr)
    (hlock : t.lock = s.lock) (hk : k.holds = none) : Sound t := by
  have hne : ∀ j, k ≠ .unlock j := by
    rintro j rfl
    cases hk
  exact (h.moved hprocs hpos hintr (hpc ▸ fits_at hne p)).keep h hlock (by rw [hout]; exact hk)

theorem step (h : Sound s) {a : Act nc} (ht : Step s a t) : Sound t := by
  cases ht with
  | under hl hu => exact h.under hl hu
  | fork hl hpc hu => exact (h.under hl hu).congr rfl rfl rfl rfl
  | pipealloc | dup | drop => exact h.congr rfl rfl rfl rfl
  | close hpos hpc | pipewrite hpos hpc | enter hpos hpc =>
    exact h.begin hpos hpc rfl rfl rfl rfl rfl
  | go hq hpc hgo => exact h.go hq hpc rfl hgo
  | @interrupt c x hon =>
    simp only [State.intrOn, Bool.and_eq_true, decide_eq_true_eq] at hon
    obtain ⟨hi, hon⟩ := hon
    refine h.handled h.coherent h.napping rfl rfl rfl rfl (fun q l hq hl => ?_) (fun y l hy hl => ?_) fun _ _ _ hl => hl
    · obtain ⟨c', hc, hl', -⟩ := h.thread q l hq
      cases hl.symm.trans hl'
      rw [hc] at hon
      simp only [decide_eq_true_eq, Bool.and_eq_true] at hon
      rw [hq] at hon
      cases hon.2
    · cases hy
      cases hl
  | handle hk hh => exact h.handle hk hh

end Sound

theorem sound_boot : Sound (boot nc) where
  coherent := Procs.coherent_boot
  napping := Procs.napping_boot
  thread _ _ := nofun
  handler _ _ _ := nofun
  fits q n hn := by
    by_cases hq : q = Procs.initproc <;> simp [boot, Procs.boot, hq, Procs.Pc.nap] at hn

/-- Runs of the machine under a discipline. -/
abbrev Run (ok : State nc → Act nc → Prop) : State nc → List (Act nc) → State nc → Prop :=
  (System.ofStep step).Run ok

/-! ### Runs -/

/-- The first process makes a pipe and a child, and the child runs on the other processor. -/
def forkRun : List (Act 2) :=
  [.run 0 true, .run 0 true, .run 0 true, .pipealloc 0 0, .call 0 .fork] ++
    List.replicate 7 (.run 0 true) ++ List.replicate 5 (.run 1 true)

/-- The child calls `piperead` and finds the pipe empty. -/
def readRun : List (Act 2) := [.enter 1 (.piperead 0 1 1), .go 1, .go 1]

/-- The child goes through `sleep`, up to the scheduler. -/
def napRun : List (Act 2) := [.go 1, .go 1, .run 1 true, .run 1 true, .run 1 true]

end Xv6.Sleep
