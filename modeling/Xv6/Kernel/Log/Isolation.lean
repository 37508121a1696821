import Xv6.Kernel.Log.Group

/-! Group commit is isolated from the operations: the invariant of `Group` holds along every run, from
    every boot.

    ```
    begin_op ──► client ──► end_op ──(others outstanding)──► wakeup ──► client
                                 └──(last one)──► commit ──► endReset ──► wakeup ──► client
    ``` -/

namespace Xv6.Bio
open Function
open Log (Geometry blockAt)

variable {np : Nat} {g : Geometry} {s : State np} {p : Fin np}

variable {v : View np}

/-- A step that is none of the commit's or the boot's: its premises on those are vacuous. -/
theorem GroupInv.clientMove (h : GroupInv v) {x : Phase np} {lock : Option (Fin np)}
    (hb : v.booted = true) (hxb : x.boots = false) (hxc : x.commits = false)
    (hpc : (v.phase p).commits = false)
    (hlock : lock = v.lock ∧ x.holds = (v.phase p).holds ∨
      v.lock = none ∧ lock = some p ∧ x.holds = true ∨
      v.lock = some p ∧ lock = none ∧ x.holds = false)
    (hop : v.inOp p = true → x = .client ∨ x.needsOp = true)
    (hneeds : x.needsOp = true → v.inOp p = true)
    (hdozes : x.dozes = true →
      (v.phase p).dozes = true ∨ v.committing = true ∨ 0 < v.outstanding)
    (hwakeup : ∀ qs, v.phase p = .wakeup qs → qs = []) :
    GroupInv { v with lock := lock, phase := update v.phase p x } := by
  have hcl : x.cleared = false := Phase.cleared_false hxc
  refine h.move (by simp [hb]) (by simp [hxb]) ?_ hlock (by rw [hxc, hpc]) hop hneeds hdozes ?_
    ?_ ?_ ?_ (by simp [hcl])
  · rintro rfl
    simp [Phase.boots] at hxb
  · intro qs hqs q hq
    simp [hwakeup qs hqs] at hq
  · simp [Phase.cleared_false hpc]
  · rintro t b rfl
    simp [Phase.commits] at hxc
  · rintro (rfl | rfl | rfl) <;> simp [Phase.commits] at hxc

variable {x : PC np}

/-- A process moves on, possibly taking or releasing `log.lock`. -/
theorem groupInv_setPc {l : Option (Fin np)}
    (h : GroupInv { view s with lock := l, phase := update (view s).phase p x.phase }) :
    GroupInv (view { s with lock := l, pc := update s.pc p x }) := by
  have hv : view { s with lock := l, pc := update s.pc p x } =
      { view s with lock := l, phase := update (view s).phase p x.phase } := by
    simp only [view, phase_update]
  rw [hv]
  exact h

/-- In a phase that neither boots nor belongs to an operation. -/
theorem GroupInv.outside {y : Phase np} (h : GroupInv v) (hp : v.phase p = y)
    (hy : y.boots = false ∧ y ≠ .client ∧ y.needsOp = false) : v.booted = true ∧ v.inOp p = false := by
  subst hp
  exact ⟨h.booted_of hy.1 hy.2.1, h.not_inOp hy.2.1 hy.2.2⟩

/-- The steps of `log_write`, `begin_op` and `end_op` other than their critical sections. -/
def Act.onEntry : Act np → Bool
  | .logWrite .. | .beginOp .. | .endOp .. | .kill .. | .beginAcquire .. | .beginWait .. | .sleepLock ..
  | .sleepState .. | .resume .. | .endAcquire .. | .wakeupDone .. => true
  | _ => false

variable {a : Act np}

theorem groupInv_onEntry (h : GroupInv (view s)) (hg : guard g s a)
    (ha : a.onEntry = true) : GroupInv (view (next g s a)) := by
  have hph : ∀ {p x}, s.pc p = x → (view s).phase p = x.phase := fun hp => congrArg PC.phase hp
  cases a <;> simp only [Act.onEntry, Bool.false_eq_true] at ha
  case logWrite p b =>
    obtain ⟨hp, hb, -, hi, -⟩ := hg
    have hp := hph hp
    exact groupInv_setPc (l := s.lock) (x := .logWrite b) <|
      h.clientMove hb rfl rfl (by rw [hp]; rfl) (.inl ⟨rfl, by rw [hp]; rfl⟩) (fun _ => .inr rfl)
        (fun _ => hi) (by rintro ⟨⟩) (by simp [hp, PC.phase])
  case beginOp p =>
    obtain ⟨hp, hb, hi⟩ := hg
    have hp := hph hp
    exact groupInv_setPc (l := s.lock) (x := .beginAcquire) <|
      h.clientMove hb rfl rfl (by rw [hp]; rfl) (.inl ⟨rfl, by rw [hp]; rfl⟩)
        (by simp [view, hi]) (by rintro ⟨⟩) (by rintro ⟨⟩) (by simp [hp, PC.phase])
  case endOp p =>
    obtain ⟨hp, hb, hi⟩ := hg
    have hp := hph hp
    exact groupInv_setPc (l := s.lock) (x := .endAcquire) <|
      h.clientMove hb rfl rfl (by rw [hp]; rfl) (.inl ⟨rfl, by rw [hp]; rfl⟩)
        (fun _ => .inr rfl) (fun _ => hi) (by rintro ⟨⟩) (by simp [hp, PC.phase])
  case kill q =>
    have hp := hph hg
    obtain ⟨hb, hi⟩ := h.outside hp ⟨rfl, by rintro ⟨⟩, rfl⟩
    exact groupInv_setPc (l := s.lock) (x := .wakened) <|
      h.clientMove hb rfl rfl (by rw [hp]; rfl) (.inl ⟨rfl, by rw [hp]; rfl⟩)
        (by simp [hi]) (by rintro ⟨⟩) (by rintro ⟨⟩) (by simp [hp, PC.phase])
  case beginAcquire p =>
    have hp := hph hg.1
    obtain ⟨hb, hi⟩ := h.outside hp ⟨rfl, by rintro ⟨⟩, rfl⟩
    exact groupInv_setPc (l := some p) (x := .beginTest) <|
      h.clientMove hb rfl rfl (by rw [hp]; rfl) (.inr (.inl ⟨hg.2, rfl, rfl⟩))
        (by simp [hi]) (by rintro ⟨⟩) (by rintro ⟨⟩) (by simp [hp, PC.phase])
  case beginWait p =>
    have hp := hph hg.1
    obtain ⟨hb, hi⟩ := h.outside hp ⟨rfl, by rintro ⟨⟩, rfl⟩
    refine groupInv_setPc (l := s.lock) (x := .sleepLock) <|
      h.clientMove hb rfl rfl (by rw [hp]; rfl) (.inl ⟨rfl, by rw [hp]; rfl⟩)
        (by simp [hi]) (by rintro ⟨⟩) (fun _ => ?_) (by simp [hp, PC.phase])
    -- with the log empty and no operation outstanding there is always room
    rcases hg.2 with hc | hroom
    · exact .inr (.inl hc)
    · refine .inr (or_iff_not_imp_left.mpr fun hc => Nat.pos_of_ne_zero fun ho => ?_)
      have hlh : s.lh = [] := h.empty hb (by simpa using hc) ho
      have ho : s.outstanding = 0 := ho
      simp [hlh, ho, LOGSIZE, MAXOPBLOCKS] at hroom
  case sleepLock p =>
    have hp := hph hg
    obtain ⟨hb, hi⟩ := h.outside hp ⟨rfl, by rintro ⟨⟩, rfl⟩
    have hl : s.lock = some p := (h.lock p).mpr (by rw [hp]; rfl)
    exact groupInv_setPc (l := none) (x := .sleepState) <|
      h.clientMove hb rfl rfl (by rw [hp]; rfl) (.inr (.inr ⟨hl, rfl, rfl⟩))
        (by simp [hi]) (by rintro ⟨⟩) (fun _ => .inl (by rw [hp]; rfl)) (by simp [hp, PC.phase])
  case sleepState p =>
    have hp := hph hg
    obtain ⟨hb, hi⟩ := h.outside hp ⟨rfl, by rintro ⟨⟩, rfl⟩
    exact groupInv_setPc (l := s.lock) (x := .sleeping) <|
      h.clientMove hb rfl rfl (by rw [hp]; rfl) (.inl ⟨rfl, by rw [hp]; rfl⟩)
        (by simp [hi]) (by rintro ⟨⟩) (fun _ => .inl (by rw [hp]; rfl)) (by simp [hp, PC.phase])
  case resume p =>
    have hp := hph hg
    obtain ⟨hb, hi⟩ := h.outside hp ⟨rfl, by rintro ⟨⟩, rfl⟩
    exact groupInv_setPc (l := s.lock) (x := .beginAcquire) <|
      h.clientMove hb rfl rfl (by rw [hp]; rfl) (.inl ⟨rfl, by rw [hp]; rfl⟩)
        (by simp [hi]) (by rintro ⟨⟩) (by rintro ⟨⟩) (by simp [hp, PC.phase])
  case endAcquire p =>
    have hp := hph hg.1
    have hi : s.inOp p = true := h.needsOp p (by rw [hp]; rfl)
    have hb := h.booted_of (p := p) (by rw [hp]; rfl) (by simp [hp, PC.phase])
    exact groupInv_setPc (l := some p) (x := .endTest) <|
      h.clientMove hb rfl rfl (by rw [hp]; rfl) (.inr (.inl ⟨hg.2, rfl, rfl⟩))
        (fun _ => .inr rfl) (fun _ => hi) (by rintro ⟨⟩) (by simp [hp, PC.phase])
  case wakeupDone p =>
    have hp := hph hg
    obtain ⟨hb, hi⟩ := h.outside hp ⟨rfl, by rintro ⟨⟩, rfl⟩
    have hl : s.lock = some p := (h.lock p).mpr (by rw [hp]; rfl)
    exact groupInv_setPc (l := none) (x := .idle) <|
      h.clientMove hb rfl rfl (by rw [hp]; rfl) (.inr (.inr ⟨hl, rfl, rfl⟩))
        (by simp [hi]) (by rintro ⟨⟩) (by rintro ⟨⟩) (by simp [hp, PC.phase])

/-- Only a process asleep, or about to be, is in the phase of one. -/
theorem phase_dozes (hx : x.phase.dozes = true) :
    x = .sleepLock ∨ x = .sleepState ∨ x = .sleeping := by
  have hh : ∀ h : Head, (h.phase : Phase np).dozes = false := by rintro (_ | _ | _) <;> rfl
  have hc : ∀ k : Cont, (k.phase : Phase np).dozes = false := by
    rintro (_ | _ | _ | _ | _ | h | ⟨_ | _, _⟩ | ⟨_ | _, _, _⟩)
    case head => exact hh h
    all_goals rfl
  have hr : ∀ k : Ret, (k.phase : Phase np).dozes = false := by
    rintro (_ | _ | _ | _ | _ | (_ | _ | _) | ⟨_ | _, _, _⟩ | ⟨_ | _, _⟩) <;> rfl
  cases x
  case sleepLock | sleepState | sleeping => simp
  case bget | acquire | fill => simp [PC.phase, hc] at hx
  case release | putref => simp [PC.phase, hr] at hx
  case headCopy => simp [PC.phase, hh] at hx
  case install boot _ | installCopy boot _ _ _ | bunpin boot _ _ _ =>
    cases boot <;> simp [PC.phase, Phase.dozes] at hx
  all_goals simp [PC.phase, Phase.dozes] at hx

theorem phase_sleeping (hx : x.phase = .sleeping) : x = .sleeping := by
  rcases phase_dozes (by rw [hx]; rfl) with rfl | rfl | rfl <;> simp_all [PC.phase]

theorem phase_sleepState (hx : x.phase = .sleepState) : x = .sleepState := by
  rcases phase_dozes (by rw [hx]; rfl) with rfl | rfl | rfl <;> simp_all [PC.phase]

/-- The critical sections of `begin_op`, `log_write` and `end_op`. -/
theorem groupInv_beginEnter (h : GroupInv (view s)) (hg : guard g s (.beginEnter p)) :
    GroupInv (view (next g s (.beginEnter p))) := by
  have hp : (view s).phase p = .beginTest := congrArg PC.phase hg.1
  have hc : s.committing = false := by
    cases hc : s.committing
    · rfl
    · exact absurd (.inl hc) hg.2
  simp only [view, next, phase_update]
  exact h.enter hp hc

variable {b : BufId}

section Committing

variable (h : GroupInv (view s))

include h

theorem groupInv_logWriteLocked
    (hg : guard g s (.logWriteLocked p b)) : GroupInv (view (next g s (.logWriteLocked p b))) := by
  have hp : (view s).phase p = .logWrite := congrArg PC.phase hg.1
  have hv := h.logWrite hp (s.bufs b).blockno
  simp only [view, next, phase_update]
  exact hv

theorem groupInv_endLast (hg : guard g s (.endLast p)) :
    GroupInv (view (next g s (.endLast p))) := by
  have hp : (view s).phase p = .endTest := congrArg PC.phase hg.1
  simp only [view, next, phase_update]
  exact h.endOp hp (.inl ⟨rfl, rfl, hg.2.2, rfl⟩)

theorem groupInv_endMore (hg : guard g s (.endMore p)) :
    GroupInv (view (next g s (.endMore p))) := by
  have hp : (view s).phase p = .endTest := congrArg PC.phase hg.1
  have := h.endOp hp (.inr ⟨hg.2.1, rfl, hg.2.2, rfl⟩)
  simp only [view, next, phase_update]
  exact this

theorem groupInv_wakeup {q : Fin np} {qs : List (Fin np)}
    (hg : guard g s (.wakeup p q qs)) : GroupInv (view (next g s (.wakeup p q qs))) := by
  have hp : (view s).phase p = .wakeup (q :: qs) := congrArg PC.phase hg.1
  have hq : (view s).phase q ≠ .sleepState := fun hq => hg.2 (phase_sleepState hq)
  by_cases hs : s.pc q = .sleeping
  · have hs' : (view s).phase q = .sleeping := congrArg PC.phase hs
    have := h.wakeupOne hp hq (.inl ⟨hs', rfl⟩)
    simp only [view, next, phase_update, hs, if_true]
    exact this
  · have := h.wakeupOne hp hq (.inr ⟨fun hq => hs (phase_sleeping hq), rfl⟩)
    simp only [view, next, phase_update, hs, if_false]
    exact this

/-! ### The commit -/

/-- `commit` begins, writes the log, or finds nothing to do. -/
theorem groupInv_endRelease (hg : guard g s (.endRelease p)) :
    GroupInv (view (next g s (.endRelease p))) := by
  have hp : (view s).phase p = .endRelease := congrArg PC.phase hg
  have hl : s.lock = some p := (h.lock p).mpr (by rw [hp]; rfl)
  have hv := h.commitMove (p := p) (x := .commit) (l := none) (by rw [hp]; rfl)
    (.inl ⟨rfl, h.committing.mpr ⟨p, by rw [hp]; rfl⟩, rfl⟩) (.inr (.inr ⟨hl, rfl, rfl⟩))
    (fun _ => h.lh_of_commits (p := p) (by rw [hp]; rfl) (by rw [hp]; rfl)) nofun
    (fun _ => h.writing p (.inl hp)) nofun
  simp only [view, next, phase_update]
  exact hv

theorem groupInv_commitSome (hg : guard g s (.commitSome p)) :
    GroupInv (view (next g s (.commitSome p))) := by
  have hp : (view s).phase p = .commit := congrArg PC.phase hg.1
  have hv := h.commitMove (p := p) (x := .writing) (l := s.lock) (by rw [hp]; rfl)
    (.inl ⟨rfl, h.committing.mpr ⟨p, by rw [hp]; rfl⟩, rfl⟩) (.inl ⟨rfl, by rw [hp]; rfl⟩)
    (fun _ => h.lh_of_commits (p := p) (by rw [hp]; rfl) (by rw [hp]; rfl)) nofun
    (fun _ => h.writing p (.inr (.inl hp))) nofun
  simp only [view, next, phase_update]
  exact hv

theorem groupInv_commitNone (hg : guard g s (.commitNone p)) :
    GroupInv (view (next g s (.commitNone p))) := by
  have hp : (view s).phase p = .commit := congrArg PC.phase hg.1
  have hlh : s.lh = [] := List.eq_nil_iff_length_eq_zero.mpr (by have := hg.2; omega)
  have hin : s.installed = [] := h.writing p (.inr (.inl hp))
  obtain ⟨-, hlog⟩ := h.lh_of_commits (p := p) (by rw [hp]; rfl) (by rw [hp]; rfl)
  have hv := h.commitMove (p := p) (x := .endAcquire2) (l := s.lock) (w := s.lh)
    (i := s.installed) (by rw [hp]; rfl)
    (.inl ⟨rfl, h.committing.mpr ⟨p, by rw [hp]; rfl⟩, rfl⟩) (.inl ⟨rfl, by rw [hp]; rfl⟩) nofun
    nofun nofun (fun _ => ⟨hlh, by rw [hin]; exact List.nodup_nil, by simpa [view, hin, hlh] using hlog⟩)
  simp only [view, next, phase_update]
  exact hv

theorem groupInv_headCopy {hd : Head} {hb : BufId}
    (hg : guard g s (.headCopy p hd hb)) : GroupInv (view (next g s (.headCopy p hd hb))) := by
  have hp : (view s).phase p = hd.phase := congrArg PC.phase hg
  simp only [view, next, store, phase_update]
  cases hd with
  | record =>
    exact h.commitMove (p := p) (x := .install 0 false) (l := s.lock) (by rw [hp]; rfl)
      (.inl ⟨rfl, h.committing.mpr ⟨p, by rw [hp]; rfl⟩, rfl⟩) (.inl ⟨rfl, by rw [hp]; rfl⟩)
      (fun _ => h.lh_of_commits (p := p) (by rw [hp]; rfl) (by rw [hp]; rfl))
      (by rintro _ _ ⟨⟩; exact ⟨Nat.zero_le _, h.writing p (.inr (.inr hp))⟩) (by simp) (by rintro ⟨⟩)
  | erase =>
    exact h.commitMove (p := p) (x := .endAcquire2) (l := s.lock) (by rw [hp]; rfl)
      (.inl ⟨rfl, h.committing.mpr ⟨p, by rw [hp]; rfl⟩, rfl⟩) (.inl ⟨rfl, by rw [hp]; rfl⟩) (by rintro ⟨⟩)
      (by rintro _ _ ⟨⟩) (by simp) (fun _ => h.installed p (by rw [hp]; rfl))
  | boot =>
    exact h.bootMove (p := p) (x := .bootErase) (by rw [hp]; rfl) (.inr ⟨rfl, h.bootErase p hp⟩)

end Committing

variable {boot : Bool} {tail : Nat}

section Installing

variable (h : GroupInv (view s))

include h

theorem groupInv_installNext
    (hg : guard g s (.installNext p boot tail)) :
    GroupInv (view (next g s (.installNext p boot tail))) := by
  have hp := congrArg PC.phase hg.1
  simp only [view, next, phase_update]
  cases boot with
  | false =>
    have hp : (view s).phase p = .install tail false := hp
    obtain ⟨-, hin⟩ := h.installing p tail false hp
    exact h.commitMove (p := p) (x := .install tail true) (l := s.lock) (by rw [hp]; rfl)
      (.inl ⟨rfl, h.committing.mpr ⟨p, by rw [hp]; rfl⟩, rfl⟩) (.inl ⟨rfl, by rw [hp]; rfl⟩)
      (fun _ => h.lh_of_commits (p := p) (by rw [hp]; rfl) (by rw [hp]; rfl))
      (by rintro _ _ ⟨⟩; exact ⟨hg.2, hin⟩) (by simp) (by rintro ⟨⟩)
  | true =>
    have hp : (view s).phase p = .boot := hp
    exact h.bootMove (p := p) (x := .boot) (by rw [hp]; rfl) (.inl rfl)

theorem groupInv_installCopy {lbuf dbuf : BufId}
    (hg : guard g s (.installCopy p boot tail lbuf dbuf)) :
    GroupInv (view (next g s (.installCopy p boot tail lbuf dbuf))) := by
  have hp := congrArg PC.phase hg
  simp only [view, next, store, phase_update]
  cases boot with
  | false =>
    have hp : (view s).phase p = .install tail true := hp
    obtain ⟨ht, hin⟩ := h.installing p tail true hp
    have ht : tail < s.lh.length := ht
    have hin : s.installed = s.lh.take tail := hin
    have htake : s.installed ++ [blockAt s.lh tail] = s.lh.take (tail + 1) := by
      rw [hin, Log.blockAt_eq ht, List.take_append_getElem ht]
    exact h.commitMove (p := p) (x := .install (tail + 1) false) (l := s.lock) (by rw [hp]; rfl)
      (.inl ⟨rfl, h.committing.mpr ⟨p, by rw [hp]; rfl⟩, rfl⟩) (.inl ⟨rfl, by rw [hp]; rfl⟩)
      (fun _ => h.lh_of_commits (p := p) (by rw [hp]; rfl) (by rw [hp]; rfl))
      (by rintro _ _ ⟨⟩; exact ⟨ht, htake⟩) (by simp) (by rintro ⟨⟩)
  | true =>
    have hp : (view s).phase p = .boot := hp
    exact h.bootMove (p := p) (x := .boot) (by rw [hp]; rfl) (.inl rfl)

/-- `lh.n = 0` after the install: every logged block has been installed once. -/
theorem groupInv_installDone
    (hg : guard g s (.installDone p boot tail)) :
    GroupInv (view (next g s (.installDone p boot tail))) := by
  have hp := congrArg PC.phase hg.1
  simp only [view, next, phase_update]
  cases boot with
  | false =>
    have hp : (view s).phase p = .install tail false := hp
    obtain ⟨-, hin⟩ := h.installing p tail false hp
    obtain ⟨hnd, hlog⟩ := h.lh_of_commits (p := p) (by rw [hp]; rfl) (by rw [hp]; rfl)
    have hall : s.installed = s.lh := hin.trans (List.take_of_length_le (not_lt.mp hg.2))
    exact h.commitMove (p := p) (x := .erase) (l := s.lock) (by rw [hp]; rfl)
      (.inl ⟨rfl, h.committing.mpr ⟨p, by rw [hp]; rfl⟩, rfl⟩) (.inl ⟨rfl, by rw [hp]; rfl⟩)
      (by rintro ⟨⟩) (by simp) (by simp) (fun _ => ⟨rfl, by rw [hall]; exact hnd, by rw [hall]; exact hlog⟩)
  | true =>
    have hp : (view s).phase p = .boot := hp
    exact h.bootMove (p := p) (x := .bootErase) (by rw [hp]; rfl) (.inr ⟨rfl, rfl⟩)

theorem groupInv_endAcquire2 (hg : guard g s (.endAcquire2 p)) :
    GroupInv (view (next g s (.endAcquire2 p))) := by
  have hp : (view s).phase p = .endAcquire2 := congrArg PC.phase hg.1
  have hv := h.commitMove (p := p) (x := .endReset) (l := some p) (by rw [hp]; rfl)
    (.inl ⟨rfl, h.committing.mpr ⟨p, by rw [hp]; rfl⟩, rfl⟩) (.inr (.inl ⟨hg.2, rfl, rfl⟩)) nofun
    nofun nofun (fun _ => h.installed p (by rw [hp]; rfl))
  simp only [view, next, phase_update]
  exact hv

theorem groupInv_endReset (hg : guard g s (.endReset p)) :
    GroupInv (view (next g s (.endReset p))) := by
  have hp : (view s).phase p = .endReset := congrArg PC.phase hg
  obtain ⟨hlh, -⟩ := h.installed p (by rw [hp]; rfl)
  have hlh : s.lh = [] := hlh
  have hv := h.commitMove (p := p) (x := .wakeup (List.finRange np)) (l := s.lock) (c := false)
    (o := []) (w := s.lh) (i := s.installed) (by rw [hp]; rfl) (.inr ⟨rfl, rfl, rfl, hlh⟩)
    (.inl ⟨rfl, by rw [hp]; rfl⟩) (fun _ => by simp [hlh, logged]) nofun nofun nofun
  simp only [view, next, phase_update]
  exact hv

/-! ### The boot -/

theorem groupInv_readHeadCopy
    (hg : guard g s (.readHeadCopy p b)) : GroupInv (view (next g s (.readHeadCopy p b))) := by
  have hp : (view s).phase p = .boot := congrArg PC.phase hg
  simp only [view, next, phase_update]
  exact h.bootMove (p := p) (x := .boot) (by rw [hp]; rfl) (.inl rfl)

theorem groupInv_bootDone (hg : guard g s (.bootDone p)) :
    GroupInv (view (next g s (.bootDone p))) := by
  have hp : (view s).phase p = .bootErase := congrArg PC.phase hg
  simp only [view, next, phase_update]
  exact h.bootDone hp

end Installing

theorem groupInv_init [NeZero np] (d : Nat → Disk) : GroupInv (view (init d : State np)) := by
  refine Booting.groupInv (p := 0) ⟨rfl, rfl, rfl, rfl, fun _ => rfl, rfl, fun q hq => ?_⟩ (.inl ?_)
  · simp [view, init, hq, PC.phase]
  · simp [view, init, PC.phase, Cont.phase]

/-- Every step keeps the invariant. -/
theorem groupInv_step (h : GroupInv (view s)) (hg : guard g s a) :
    GroupInv (view (next g s a)) := by
  by_cases hbuf : a.onBuffers = true
  · rw [view_next_of_onBuffers hg hbuf]; exact h
  by_cases hent : a.onEntry = true
  · exact groupInv_onEntry h hg hent
  cases a <;> simp only [Act.onBuffers, Act.onEntry, not_true_eq_false] at hbuf hent
  case beginEnter => exact groupInv_beginEnter h hg
  case logWriteLocked => exact groupInv_logWriteLocked h hg
  case endLast => exact groupInv_endLast h hg
  case endMore => exact groupInv_endMore h hg
  case wakeup => exact groupInv_wakeup h hg
  case endRelease => exact groupInv_endRelease h hg
  case commitSome => exact groupInv_commitSome h hg
  case commitNone => exact groupInv_commitNone h hg
  case headCopy => exact groupInv_headCopy h hg
  case installNext => exact groupInv_installNext h hg
  case installDone => exact groupInv_installDone h hg
  case installCopy => exact groupInv_installCopy h hg
  case endAcquire2 => exact groupInv_endAcquire2 h hg
  case endReset => exact groupInv_endReset h hg
  case readHeadCopy => exact groupInv_readHeadCopy h hg
  case bootDone => exact groupInv_bootDone h hg

variable {as : List (Act np)} {t : State np}

/-- The invariant holds along every run, whatever the disks held at boot. -/
theorem groupInv_run [NeZero np] {ok : State np → Act np → Prop} {d : Nat → Disk}
    (hrun : (machine g np).Run ok (init d) as t) : GroupInv (view t) :=
  System.Run.invariant (M := machine g np) (I := fun s => GroupInv (view s))
    (fun _ _ h hg _ => groupInv_step h hg.2) hrun (groupInv_init d)

/-! ### While a commit runs -/

theorem GroupInv.ended (h : GroupInv v) (hp : (v.phase p).commits = true) :
    ∀ o ∈ v.ops, o.ended = true := by
  intro o ho
  have hzero : v.outstanding = 0 := h.exclusive (h.committing.mpr ⟨p, hp⟩)
  cases he : o.ended
  · have := (h.not_committing ((h.running o.pid).mpr ⟨o, ho, rfl, he⟩)).2
    omega
  · rfl

theorem mem_logged {ops : List (Op np)} {bn : Nat} : bn ∈ logged ops ↔ ∃ o ∈ ops, bn ∈ o.blocks := by
  simp [logged]

theorem GroupInv.booted_of_committing (h : GroupInv v) (hc : v.committing = true) :
    v.booted = true := by
  obtain ⟨q, hq⟩ := h.committing.mp hc
  refine h.booted_of (p := q) ?_ ?_ <;> cases hx : v.phase q <;> simp_all [Phase.commits, Phase.boots]

/-- While a commit runs no operation is about to enter `log_write`'s critical section. -/
theorem not_logWriteLocked (h : GroupInv (view s)) (hc : s.committing = true) (p : Fin np) (b : BufId) :
    ¬ guard g s (.logWriteLocked p b) := by
  intro hg
  have hp : (view s).phase p = .logWrite := congrArg PC.phase hg.1
  have := (h.not_committing (h.needsOp p (by rw [hp]; rfl))).1
  simp [view, hc] at this

/-- While a commit runs, only its `lh.n = 0` changes the header. -/
theorem lh_next_of_committing (h : GroupInv (view s)) (hc : s.committing = true)
    (hg : guard g s a) (hne : (next g s a).lh ≠ s.lh) : ∃ p tail, a = .installDone p false tail := by
  have hnb : ∀ {p x}, s.pc p = x → x.phase ≠ .boot := by
    rintro p x rfl hx
    have := h.booted (h.booted_of_committing hc) p
    rw [show (view s).phase p = .boot from hx] at this
    simp [Phase.boots] at this
  cases a
  case logWriteLocked p b => exact absurd hg (not_logWriteLocked h hc p b)
  case installDone p boot tail =>
    cases boot
    · exact ⟨p, tail, rfl⟩
    · exact absurd rfl (hnb hg.1)
  case readHeadCopy p b => exact absurd rfl (hnb hg)
  all_goals exact absurd rfl hne

end Xv6.Bio
