import Xv6.Kernel.Proc.Wakeup

/-! Births and deaths.

    ```
    forked ──────► exit ──────► reaped
      creator        status       parent: the creator, or init once the creator has called exit
    ```

    The history of a run and the process table agree: a slot in use has a pid that no other slot has and
    that is not among those reaped; its parent is the creator that the history names, or init; and it
    has an exit status iff the history has its call of `exit`. -/

namespace Xv6.Procs
open State Function

variable {nc : Nat} {s t : State nc} {c : Fin nc} {q i j : Slot} {ok : Bool}

/-! ### Histories -/

/-- The process an event is about. -/
def Event.subject : Event → Int32
  | .forked _ x | .exit x _ | .reaped _ x _ => x

/-- The pid of the first process. -/
def initpid : Int32 := 1

/-- A process exits once. It is reaped once, after it has been forked and has exited, with the status of
    its exit, by its creator or, if that one has called `exit`, by init. -/
def Truthful : List Event → Prop
  | [] => True
  | .forked _ _ :: past => Truthful past
  | .exit x _ :: past => (∀ st, .exit x st ∉ past) ∧ Truthful past
  | .reaped r x st :: past =>
    (∃ p, .forked p x ∈ past ∧ (r = p ∨ r = initpid ∧ ∃ st, .exit p st ∈ past)) ∧
      (∃ xst, .exit x xst ∈ past ∧ ∀ y, st = some y → y = xst) ∧ (∀ r st, .reaped r x st ∉ past) ∧
      Truthful past

/-! ### Places of a thread -/

/-- The argument of `exit`. -/
def Point.status : Point → Option Int32
  | .exit st | .exitSelf st | .exitParent st _ => some st
  | _ => none

def Pc.status : Pc → Option Int32
  | .at p | .pause _ p | .sched (.resume _ p) | .back (.resume _ p) => p.status
  | .exitInit st | .exitRead st | .exitLock st _ | .reparent st _ _ | .reparentLock st _ _ |
    .reparentSet st _ _ => some st
  | _ => none

/-- The child that a thread has found in the table, or has made. -/
def Pc.child : Pc → Option Slot
  | .forkStart i | .reparentLock _ _ i | .reparentSet _ _ i | .waitLock _ i | .waitTest _ i => some i
  | _ => none

theorem Acquires.status {k k' : Pc} (h : Acquires q k i k') : k'.status = k.status := by cases h <;> rfl

theorem Acquires.child {k k' : Pc} (h : Acquires q k i k') : k'.child = k.child := by cases h <;> rfl

/-- The status that a process has exited, or is exiting, with. -/
def State.status (s : State nc) (i : Slot) : Option Int32 :=
  if (s.proc i).state = .zombie then some (s.proc i).xstate else (s.pc i).status

def State.inUse (s : State nc) (i : Slot) : Prop := (s.proc i).state ≠ .unused ∨ s.making i

/-! ### The table and the history -/

/-- A pid that has been allocated. -/
def State.allocated (s : State nc) (x : Int32) : Prop := ∃ k, k ≤ s.allocs ∧ x = Int32.ofNat k

structure Records (s : State nc) : Prop where
  next : s.nextpid = Int32.ofNat (s.allocs + 1)
  pid : ∀ i, s.inUse i → s.allocated (s.proc i).pid
  uniq : ∀ i j, s.inUse i → s.inUse j → (s.proc i).pid = (s.proc j).pid → i = j
  known : ∀ e, e ∈ s.hist → s.allocated e.subject
  fresh : ∀ i, s.making i → ∀ e, e ∈ s.hist → e.subject ≠ (s.proc i).pid
  gone : ∀ i, (s.proc i).state ≠ .unused → ∀ r st, .reaped r (s.proc i).pid st ∉ s.hist
  bare : ∀ i, (s.proc i).state = .unused → (s.proc i).parent = none ∨ ∃ q, s.pc q = .forkStart i
  child : ∀ q i, (s.pc q).child = some i → (s.proc i).parent = some q
  first : (s.proc initproc).pid = initpid
  born : ∀ i, i ≠ initproc → (s.proc i).state ≠ .unused → ∃ r p, (s.proc i).parent = some r ∧
    .forked p (s.proc i).pid ∈ s.hist ∧
      ((s.proc r).pid = p ∨ r = initproc ∧ ∃ st, .exit p st ∈ s.hist)
  exits : ∀ i, (s.proc i).state ≠ .unused → ∀ st, .exit (s.proc i).pid st ∈ s.hist ↔ s.status i = some st
  truthful : Truthful s.hist

/-- The same process with the same parent. -/
structure SameName (p p' : Proc) : Prop where
  pid : p'.pid = p.pid
  parent : p'.parent = p.parent
  unused : p'.state = .unused ↔ p.state = .unused

/-- And it has exited iff it had. -/
structure SameRecord (p p' : Proc) : Prop extends SameName p p' where
  xstate : p'.xstate = p.xstate
  zombie : p'.state = .zombie ↔ p.state = .zombie

theorem SameRecord.refl (p : Proc) : SameRecord p p := ⟨⟨rfl, rfl, Iff.rfl⟩, rfl, Iff.rfl⟩

theorem sameRecord_wake (p : Proc) : SameRecord p p.wake := by
  unfold Proc.wake
  split
  · rename_i h
    exact ⟨⟨rfl, rfl, by simp [h]⟩, rfl, by simp [h]⟩
  · exact .refl p

theorem sameRecord_wakeup1 (r : Slot) (p : Proc) : SameRecord p (p.wakeup1 r) := by
  unfold Proc.wakeup1
  split
  · exact sameRecord_wake p
  · exact .refl p

theorem sameRecord_set {p : Proc} (h : SameRecord (s.proc i) p) (j : Slot) :
    SameRecord (s.proc j) ((s.set i p).proc j) := by
  by_cases hj : j = i
  · subst hj; simpa using h
  · simpa [hj] using .refl (s.proc j)

namespace Records

/-- A step that neither the history nor the records in the table show. -/
theorem neutral (h : Records s) (hrec : ∀ j, SameName (s.proc j) (t.proc j)) (hhist : t.hist = s.hist)
    (hnext : t.nextpid = s.nextpid) (hallocs : t.allocs = s.allocs) (hmaking : ∀ i, t.making i → s.making i)
    (hstart : ∀ i q, s.pc q = .forkStart i → t.pc q = .forkStart i)
    (hchild : ∀ q i, (t.pc q).child = some i → (s.proc i).parent = some q)
    (hstatus : ∀ i, (s.proc i).state ≠ .unused → t.status i = s.status i) : Records t := by
  have huse : ∀ i, t.inUse i → s.inUse i := fun i hi => hi.imp (fun hne hst => hne ((hrec i).unused.mpr hst))
    (hmaking i)
  have halloc : t.allocated = s.allocated := by
    funext x
    unfold State.allocated
    rw [hallocs]
  refine ⟨by rw [hnext, hallocs]; exact h.next, fun i hi => ?_, fun i j hi hj heq => ?_, fun e he => ?_,
    fun i hi e he => ?_, fun i hi r st => ?_, fun i hi => ?_, fun q i hi => ?_, ?_, fun i hne hi => ?_,
    fun i hi st => ?_, by rw [hhist]; exact h.truthful⟩
  · rw [halloc, (hrec i).pid]
    exact h.pid i (huse i hi)
  · rw [(hrec i).pid, (hrec j).pid] at heq
    exact h.uniq i j (huse i hi) (huse j hj) heq
  · rw [halloc]
    exact h.known e (hhist ▸ he)
  · rw [(hrec i).pid]
    exact h.fresh i (hmaking i hi) e (hhist ▸ he)
  · rw [(hrec i).pid, hhist]
    exact h.gone i (fun hst => hi ((hrec i).unused.mpr hst)) r st
  · rw [(hrec i).parent]
    exact (h.bare i ((hrec i).unused.mp hi)).imp_right fun ⟨q, hq⟩ => ⟨q, hstart i q hq⟩
  · rw [(hrec i).parent]
    exact hchild q i hi
  · rw [(hrec initproc).pid]
    exact h.first
  · obtain ⟨r, p, h₁, h₂, h₃⟩ := h.born i hne fun hst => hi ((hrec i).unused.mpr hst)
    rw [(hrec i).parent, (hrec i).pid, hhist]
    exact ⟨r, p, h₁, h₂, by rw [(hrec r).pid]; exact h₃⟩
  · have hi' : (s.proc i).state ≠ .unused := fun hst => hi ((hrec i).unused.mpr hst)
    rw [(hrec i).pid, hhist, hstatus i hi']
    exact h.exits i hi' st

theorem status_congr (hrec : SameRecord (s.proc i) (t.proc i)) (hpc : (t.pc i).status = (s.pc i).status) :
    t.status i = s.status i := by
  unfold State.status
  rw [hrec.xstate, hpc]
  by_cases hz : (s.proc i).state = .zombie
  · rw [if_pos hz, if_pos (hrec.zombie.mpr hz)]
  · rw [if_neg hz, if_neg fun hz' => hz (hrec.zombie.mp hz')]

/-- The thread of `q` moves. -/
theorem goto (h : Records s) {k k' : Pc} (hpc : s.pc q = k) (htpc : t.pc = update s.pc q k')
    (hrec : ∀ j, SameRecord (s.proc j) (t.proc j)) (hhist : t.hist = s.hist) (hnext : t.nextpid = s.nextpid)
    (hallocs : t.allocs = s.allocs) (hmaking : ∀ i, k'.making = some i → k.making = some i)
    (hstart : ∀ i, k ≠ .forkStart i) (hchild : ∀ i, k'.child = some i → (s.proc i).parent = some q)
    (hstatus : k'.status = k.status) : Records t := by
  subst hpc
  refine h.neutral (fun j => (hrec j).toSameName) hhist hnext hallocs ?_ (fun i r hr => ?_) (fun r i hi => ?_)
    fun i _ => status_congr (hrec i) ?_
  · rintro i ⟨r, hr⟩
    rw [htpc] at hr
    by_cases hrq : r = q
    · subst hrq
      rw [update_self] at hr
      exact ⟨r, hmaking i hr⟩
    · rw [update_of_ne hrq] at hr
      exact ⟨r, hr⟩
  · have hrq : r ≠ q := by
      rintro rfl
      exact hstart i hr
    rw [htpc, update_of_ne hrq]
    exact hr
  · rw [htpc] at hi
    by_cases hrq : r = q
    · subst hrq
      rw [update_self] at hi
      exact hchild i hi
    · rw [update_of_ne hrq] at hi
      exact h.child r i hi
  · rw [htpc]
    exact Update.proj_update Pc.status hstatus i

/-- The thread goes on to where it makes nothing and knows no child. -/
theorem pass (h : Records s) {k k' : Pc} (hpc : s.pc q = k) (htpc : t.pc = update s.pc q k')
    (hrec : ∀ j, SameRecord (s.proc j) (t.proc j)) (hhist : t.hist = s.hist) (hnext : t.nextpid = s.nextpid)
    (hallocs : t.allocs = s.allocs) (hmaking : k'.making = none) (hstart : ∀ i, k ≠ .forkStart i)
    (hchild : k'.child = none) (hstatus : k'.status = k.status) : Records t :=
  h.goto hpc htpc hrec hhist hnext hallocs (by simp [hmaking]) hstart (by simp [hchild]) hstatus

/-! ### New pids -/

theorem ofNat_inj {a b : Nat} (ha : a < 2 ^ 31) (hb : b < 2 ^ 31) (h : Int32.ofNat a = Int32.ofNat b) :
    a = b := by
  have hint := congrArg Int32.toInt h
  rw [Int32.toInt_ofNat_of_lt ha, Int32.toInt_ofNat_of_lt hb] at hint
  exact Int.ofNat.inj hint

/-- The pid of slot `i` is in use nowhere else, and not in the history. -/
structure New (s : State nc) (i : Slot) : Prop where
  alloc : s.allocated (s.proc i).pid
  other : ∀ j, s.inUse j → (s.proc j).pid ≠ (s.proc i).pid
  hist : ∀ e, e ∈ s.hist → e.subject ≠ (s.proc i).pid

/-- A slot that is not in use gets the next pid. -/
theorem allocpid (h : Records s) (hfam : Family s) (hi : ¬ s.inUse i) (hbound : s.allocs + 1 < 2 ^ 31) :
    Records (s.allocpid i) ∧ New (s.allocpid i) i := by
  have hun : (s.proc i).state = .unused := by
    by_contra hne
    exact hi (.inl hne)
  have hother : ∀ j, j ≠ i → (s.allocpid i).proc j = s.proc j := fun j hj => by
    simp [State.allocpid, State.set, hj]
  have hself : (s.allocpid i).proc i = { s.proc i with pid := s.nextpid } := by
    simp [State.allocpid, State.set]
  have hstate : ∀ j, ((s.allocpid i).proc j).state = (s.proc j).state := fun j => by
    by_cases hj : j = i
    · subst hj; rw [hself]
    · rw [hother j hj]
  have hparent : ∀ j, ((s.allocpid i).proc j).parent = (s.proc j).parent := fun j => by
    by_cases hj : j = i
    · subst hj; rw [hself]
    · rw [hother j hj]
  have huse : ∀ j, (s.allocpid i).inUse j → s.inUse j ∧ j ≠ i := by
    intro j hj
    have hs : s.inUse j := hj.imp_left fun hne => hstate j ▸ hne
    exact ⟨hs, fun hji => hi (hji ▸ hs)⟩
  have hle : ∀ x, s.allocated x → (s.allocpid i).allocated x := by
    rintro x ⟨k, hk, hx⟩
    exact ⟨k, Nat.le_succ_of_le hk, hx⟩
  have hnew : ∀ x, s.allocated x → x ≠ s.nextpid := by
    rintro x ⟨k, hk, rfl⟩ heq
    rw [h.next] at heq
    have := ofNat_inj (by omega) hbound heq
    omega
  have hlive : ∀ j, (s.proc j).state ≠ .unused → j ≠ i := fun j hj hji => hj (hji ▸ hun)
  have hroot : initproc ≠ i := fun hr => by
    have := hfam.root
    rw [hr, hun] at this
    cases this
  refine ⟨⟨?_, fun j hj => ?_, fun j k hj hk heq => ?_, fun e he => hle _ (h.known e he),
    fun j hj e he => ?_, fun j hj r st => ?_, fun j hj => ?_, fun q j hj => ?_, ?_, fun j hne hj => ?_,
    fun j hj st => ?_, h.truthful⟩, ?_, fun j hj => ?_, fun e he => ?_⟩
  · change s.nextpid + 1 = Int32.ofNat (s.allocs + 1 + 1)
    rw [h.next, Int32.ofNat_add (s.allocs + 1) 1]
    rfl
  · obtain ⟨hs, hji⟩ := huse j hj
    rw [hother j hji]
    exact hle _ (h.pid j hs)
  · obtain ⟨hsj, hji⟩ := huse j hj
    obtain ⟨hsk, hki⟩ := huse k hk
    rw [hother j hji, hother k hki] at heq
    exact h.uniq j k hsj hsk heq
  · have hji : j ≠ i := fun hji => hi (.inr (hji ▸ hj))
    rw [hother j hji]
    exact h.fresh j hj e he
  · rw [hstate] at hj
    rw [hother j (hlive j hj)]
    exact h.gone j hj r st
  · rw [hparent]
    exact h.bare j (hstate j ▸ hj)
  · rw [hparent]
    exact h.child q j hj
  · rw [hother _ hroot]
    exact h.first
  · rw [hstate] at hj
    obtain ⟨r, p, h₁, h₂, h₃⟩ := h.born j hne hj
    have hri : r ≠ i := by
      rintro rfl
      have := (hfam.alive j r h₁).1
      rw [hun] at this
      cases this
    rw [hparent, hother j (hlive j hj)]
    exact ⟨r, p, h₁, h₂, by rw [hother r hri]; exact h₃⟩
  · rw [hstate] at hj
    rw [hother j (hlive j hj)]
    have hst : (s.allocpid i).status j = s.status j := by
      unfold State.status
      rw [hother j (hlive j hj)]
      rfl
    rw [hst]
    exact h.exits j hj st
  · rw [hself]
    exact ⟨s.allocs + 1, le_rfl, h.next⟩
  · obtain ⟨hs, hji⟩ := huse j hj
    rw [hself, hother j hji]
    exact hnew _ (h.pid j hs)
  · rw [hself]
    exact hnew _ (h.known e he)

/-- `fork` starts to fill a slot. -/
theorem fill (h : Records s) (hnew : New s i) (hpc : s.pc q = .allocproc i) :
    Records (s.goto q (.uvmcopy i)) := by
  have hmaking : ∀ j, (s.goto q (.uvmcopy i)).making j → s.making j ∨ j = i := by
    rintro j ⟨r, hr⟩
    by_cases hrq : r = q
    · subst hrq
      rw [goto_pc, update_self] at hr
      injection hr with hr
      exact .inr hr.symm
    · rw [goto_pc, update_of_ne hrq] at hr
      exact .inl ⟨r, hr⟩
  have huse : ∀ j, (s.goto q (.uvmcopy i)).inUse j → s.inUse j ∨ j = i := fun j hj => by
    rcases hj with hst | hm
    · exact .inl (.inl hst)
    · exact (hmaking j hm).imp_left .inr
  have hstart : ∀ j r, s.pc r = .forkStart j → (s.goto q (.uvmcopy i)).pc r = .forkStart j := by
    intro j r hr
    have hrq : r ≠ q := by
      rintro rfl
      rw [hpc] at hr
      cases hr
    simpa [hrq] using hr
  refine ⟨h.next, fun j hj => ?_, fun j k hj hk heq => ?_, h.known, fun j hj e he => ?_, h.gone,
    fun j hj => (h.bare j hj).imp_right fun ⟨r, hr⟩ => ⟨r, hstart j r hr⟩, fun r j hj => ?_, h.first, h.born,
    fun j hj st => ?_, h.truthful⟩
  · rcases huse j hj with hs | rfl
    · exact h.pid j hs
    · exact hnew.alloc
  · rcases huse j hj with hsj | rfl <;> rcases huse k hk with hsk | rfl
    · exact h.uniq j k hsj hsk heq
    · exact absurd heq (hnew.other j hsj)
    · exact absurd heq.symm (hnew.other k hsk)
    · rfl
  · rcases hmaking j hj with hs | rfl
    · exact h.fresh j hs e he
    · exact hnew.hist e he
  · by_cases hrq : r = q
    · subst hrq
      rw [goto_pc, update_self] at hj
      cases hj
    · rw [goto_pc, update_of_ne hrq] at hj
      exact h.child r j hj
  · have hst : (s.goto q (.uvmcopy i)).status j = s.status j :=
      status_congr (.refl _) (Update.proj_update Pc.status (by rw [hpc]; rfl) j)
    rw [hst]
    exact h.exits j hj st

/-! ### Births, deaths and burials -/

/-- An event about a process that is not in the table, or about its birth. -/
theorem note (h : Records s) {e : Event} (halloc : s.allocated e.subject)
    (hfresh : ∀ i, s.making i → e.subject ≠ (s.proc i).pid)
    (hgone : ∀ i, (s.proc i).state ≠ .unused → ∀ r st, e ≠ .reaped r (s.proc i).pid st)
    (hexit : ∀ x st, e ≠ .exit x st) (htruth : Truthful (e :: s.hist)) : Records (s.note e) where
  next := h.next
  pid := h.pid
  uniq := h.uniq
  known e' he' := by
    rcases List.mem_cons.mp he' with rfl | he'
    · exact halloc
    · exact h.known e' he'
  fresh i hi e' he' := by
    rcases List.mem_cons.mp he' with rfl | he'
    · exact hfresh i hi
    · exact h.fresh i hi e' he'
  gone i hi r st hmem := by
    rcases List.mem_cons.mp hmem with heq | hmem
    · exact hgone i hi r st heq.symm
    · exact h.gone i hi r st hmem
  bare := h.bare
  child := h.child
  first := h.first
  born i hne hi := by
    obtain ⟨r, p, h₁, h₂, h₃⟩ := h.born i hne hi
    exact ⟨r, p, h₁, List.mem_cons_of_mem _ h₂,
      h₃.imp_right fun ⟨hr, st, hst⟩ => ⟨hr, st, List.mem_cons_of_mem _ hst⟩⟩
  exits i hi st := by
    rw [note_hist, List.mem_cons, or_iff_right fun heq => hexit _ _ heq.symm]
    exact h.exits i hi st
  truthful := htruth

/-- A slot that nobody knows as a child is emptied. -/
theorem vacate (h : Records s) (hroot : i ≠ initproc) (hm : ¬ s.making i)
    (hchildless : ∀ j, (s.proc j).parent ≠ some i) (hknown : ∀ q, (s.pc q).child ≠ some i) :
    Records (s.set i .free) := by
  have hother : ∀ j, j ≠ i → (s.set i .free).proc j = s.proc j := fun j hj => by simp [hj]
  have hself : (s.set i .free).proc i = .free := by simp
  have hlive : ∀ j, ((s.set i .free).proc j).state ≠ .unused → j ≠ i ∧ (s.proc j).state ≠ .unused := by
    intro j hj
    by_cases hji : j = i
    · subst hji
      rw [hself] at hj
      exact absurd rfl hj
    · exact ⟨hji, by rwa [hother j hji] at hj⟩
  have huse : ∀ j, (s.set i .free).inUse j → j ≠ i ∧ s.inUse j := by
    rintro j (hj | hj)
    · exact ⟨(hlive j hj).1, .inl (hlive j hj).2⟩
    · exact ⟨fun hji => hm (hji ▸ hj), .inr hj⟩
  refine ⟨h.next, fun j hj => ?_, fun j k hj hk heq => ?_, h.known, fun j hj e he => ?_, fun j hj => ?_,
    fun j hj => ?_, fun q j hj => ?_, ?_, fun j hne hj => ?_, fun j hj st => ?_, h.truthful⟩
  · rw [hother j (huse j hj).1]
    exact h.pid j (huse j hj).2
  · rw [hother j (huse j hj).1, hother k (huse k hk).1] at heq
    exact h.uniq j k (huse j hj).2 (huse k hk).2 heq
  · have hji : j ≠ i := fun hji => hm (hji ▸ hj)
    rw [hother j hji]
    exact h.fresh j hj e he
  · rw [hother j (hlive j hj).1]
    exact h.gone j (hlive j hj).2
  · by_cases hji : j = i
    · subst hji
      rw [hself]
      exact .inl rfl
    · rw [hother j hji] at hj ⊢
      exact h.bare j hj
  · have hji : j ≠ i := fun hji => hknown q (hji ▸ hj)
    rw [hother j hji]
    exact h.child q j hj
  · rw [hother _ hroot.symm]
    exact h.first
  · obtain ⟨hji, hj⟩ := hlive j hj
    obtain ⟨r, p, h₁, h₂, h₃⟩ := h.born j hne hj
    have hri : r ≠ i := fun hri => hchildless j (hri ▸ h₁)
    rw [hother j hji]
    exact ⟨r, p, h₁, h₂, by rw [hother r hri]; exact h₃⟩
  · obtain ⟨hji, hj⟩ := hlive j hj
    have hst : (s.set i .free).status j = s.status j := by
      unfold State.status
      rw [hother j hji, set_pc]
    rw [hother j hji, hst]
    exact h.exits j hj st

/-- The thread of `q` gives a slot another parent: itself, when it fills the slot, or init. -/
theorem setParent (h : Records s) {r : Slot} {k c : Pc} (hpc : s.pc q = k)
    (hmaking : ∀ j, c.making = some j → k.making = some j) (hstart : ∀ j, k ≠ .forkStart j)
    (hchild : ∀ j, c.child = some j → j = i ∧ r = q) (hstatus : c.status = k.status)
    (hknown : ∀ x, x ≠ q → (s.pc x).child ≠ some i)
    (hbare : (s.proc i).state = .unused → c = .forkStart i)
    (hborn : i ≠ initproc → (s.proc i).state ≠ .unused → ∃ p, .forked p (s.proc i).pid ∈ s.hist ∧
      ((s.proc r).pid = p ∨ r = initproc ∧ ∃ st, .exit p st ∈ s.hist)) :
    Records ((s.set i { s.proc i with parent := some r }).goto q c) := by
  subst hpc
  have hpid : ∀ j, ((s.set i { s.proc i with parent := some r }).proc j).pid = (s.proc j).pid :=
    proj_set Proc.pid rfl
  have hstate : ∀ j, ((s.set i { s.proc i with parent := some r }).proc j).state = (s.proc j).state :=
    proj_set Proc.state rfl
  have hother : ∀ j, j ≠ i →
      ((s.set i { s.proc i with parent := some r }).proc j).parent = (s.proc j).parent := fun j hj => by
    simp [hj]
  have hself : ((s.set i { s.proc i with parent := some r }).proc i).parent = some r := by simp
  have hmove : ∀ j, ((s.set i { s.proc i with parent := some r }).goto q c).making j → s.making j := by
    rintro j ⟨x, hx⟩
    by_cases hxq : x = q
    · subst hxq
      rw [goto_pc, update_self] at hx
      exact ⟨x, hmaking j hx⟩
    · rw [goto_pc, update_of_ne hxq] at hx
      exact ⟨x, hx⟩
  have huse : ∀ j, ((s.set i { s.proc i with parent := some r }).goto q c).inUse j → s.inUse j :=
    fun j hj => hj.imp (fun hne => hstate j ▸ hne) (hmove j)
  refine ⟨h.next, fun j hj => ?_, fun j l hj hl heq => ?_, h.known, fun j hj e he => ?_, fun j hj => ?_,
    fun j hj => ?_, fun x j hj => ?_, ?_, fun j hne hj => ?_, fun j hj st => ?_, h.truthful⟩
  · rw [goto_proc, hpid]
    exact h.pid j (huse j hj)
  · rw [goto_proc, hpid, hpid] at heq
    exact h.uniq j l (huse j hj) (huse l hl) heq
  · rw [goto_proc, hpid]
    exact h.fresh j (hmove j hj) e he
  · rw [goto_proc, hstate] at hj
    rw [goto_proc, hpid]
    exact h.gone j hj
  · rw [goto_proc, hstate] at hj
    by_cases hji : j = i
    · subst hji
      exact .inr ⟨q, by rw [goto_pc, update_self]; exact hbare hj⟩
    · rw [goto_proc, hother j hji]
      refine (h.bare j hj).imp_right fun ⟨x, hx⟩ => ⟨x, ?_⟩
      have hxq : x ≠ q := by
        rintro rfl
        exact hstart j hx
      rw [goto_pc, update_of_ne hxq]
      exact hx
  · rw [goto_proc]
    by_cases hxq : x = q
    · subst hxq
      rw [goto_pc, update_self] at hj
      obtain ⟨rfl, rfl⟩ := hchild j hj
      exact hself
    · rw [goto_pc, update_of_ne hxq] at hj
      have hji : j ≠ i := fun hji => hknown x hxq (hji ▸ hj)
      rw [hother j hji]
      exact h.child x j hj
  · rw [goto_proc, hpid]
    exact h.first
  · rw [goto_proc, hstate] at hj
    rw [goto_proc, hpid]
    by_cases hji : j = i
    · subst hji
      obtain ⟨p, hp, hr⟩ := hborn hne hj
      exact ⟨r, p, hself, hp, by rw [hpid]; exact hr⟩
    · obtain ⟨x, p, h₁, h₂, h₃⟩ := h.born j hne hj
      exact ⟨x, p, by rw [hother j hji]; exact h₁, h₂, by rw [hpid]; exact h₃⟩
  · have hst : ((s.set i { s.proc i with parent := some r }).goto q c).status j = s.status j := by
      unfold State.status
      rw [goto_proc, hstate, proj_set Proc.xstate (by rfl) j, goto_pc, set_pc,
        Update.proj_update Pc.status hstatus j]
    rw [goto_proc, hstate] at hj
    rw [goto_proc, hpid, hst]
    exact h.exits j hj st

/-- `fork` starts the process of the slot it has filled. -/
theorem launch (h : Records s) (hco : Coherent s) (hc : (s.cpu c).ctx = .thread q)
    (hpc : s.pc q = .forkStart i) :
    Records (((((s.set i { s.proc i with state := .runnable }).goto i (.back .forkret)).release i).ret
      q).note (.forked (s.proc q).pid (s.proc i).pid)) := by
  have hmake : s.making i := ⟨q, by rw [hpc]; rfl⟩
  have hun : (s.proc i).state = .unused := hco.unused_of_making (by rw [hpc]; rfl)
  have hiq : i ≠ q := by
    rintro rfl
    rw [hco.state_running hc (by rw [hpc]; simp)] at hun
    cases hun
  have hparent : (s.proc i).parent = some q := h.child q i (by rw [hpc]; rfl)
  generalize ht : ((((s.set i { s.proc i with state := .runnable }).goto i (.back .forkret)).release
    i).ret q).note (.forked (s.proc q).pid (s.proc i).pid) = t
  have hhist : t.hist = .forked (s.proc q).pid (s.proc i).pid :: s.hist := by rw [← ht]; rfl
  have hallocs : t.allocs = s.allocs := by rw [← ht]; rfl
  have hpid : ∀ j, (t.proc j).pid = (s.proc j).pid := by rw [← ht]; exact proj_set Proc.pid rfl
  have hpar : ∀ j, (t.proc j).parent = (s.proc j).parent := by
    rw [← ht]
    exact proj_set Proc.parent rfl
  have hother : ∀ j, j ≠ i → t.proc j = s.proc j := fun j hj => by
    rw [← ht]
    simp [State.ret, hj]
  have hself : (t.proc i).state = .runnable := by rw [← ht]; simp [State.ret]
  have hpcq : t.pc q = .at .idle := by rw [← ht]; simp [State.ret]
  have hpci : t.pc i = .back .forkret := by rw [← ht]; simp [State.ret, hiq]
  have hpcs : ∀ x, x ≠ i → x ≠ q → t.pc x = s.pc x := fun x hxi hxq => by
    rw [← ht]
    simp [State.ret, hxi, hxq]
  -- a thread of `t` that is at work is one of `s`, and not that of `q`
  have hwork : ∀ x, (t.pc x).making ≠ none ∨ (t.pc x).child ≠ none → x ≠ q ∧ t.pc x = s.pc x := by
    intro x hx
    by_cases hxq : x = q
    · rw [hxq, hpcq] at hx
      rcases hx with hx | hx <;> exact absurd rfl hx
    · by_cases hxi : x = i
      · rw [hxi, hpci] at hx
        rcases hx with hx | hx <;> exact absurd rfl hx
      · exact ⟨hxq, hpcs x hxi hxq⟩
  have hmaking : ∀ j, t.making j → s.making j ∧ j ≠ i := by
    rintro j ⟨x, hx⟩
    obtain ⟨hxq, hxs⟩ := hwork x (.inl (by rw [hx]; simp))
    rw [hxs] at hx
    refine ⟨⟨x, hx⟩, ?_⟩
    rintro rfl
    exact hxq (hco.making_inj (by rw [hpc]; rfl) hx)
  have huse : ∀ j, t.inUse j → s.inUse j := by
    rintro j (hj | hj)
    · by_cases hji : j = i
      · exact .inr (hji ▸ hmake)
      · exact .inl (by rwa [hother j hji] at hj)
    · exact .inr (hmaking j hj).1
  have halloc : t.allocated = s.allocated := by
    funext x
    unfold State.allocated
    rw [hallocs]
  refine ⟨?_, fun j hj => ?_, fun j l hj hl heq => ?_, fun e he => ?_, fun j hj e he => ?_,
    fun j hj r st hmem => ?_, fun j hj => ?_, fun x j hj => ?_, ?_, fun j hne hj => ?_, fun j hj st => ?_, ?_⟩
  · rw [← ht]
    exact h.next
  · rw [halloc, hpid]
    exact h.pid j (huse j hj)
  · rw [hpid, hpid] at heq
    exact h.uniq j l (huse j hj) (huse l hl) heq
  · rw [halloc]
    rw [hhist] at he
    rcases List.mem_cons.mp he with rfl | he
    · exact h.pid i (.inr hmake)
    · exact h.known e he
  · rw [hpid]
    rw [hhist] at he
    obtain ⟨hj, hji⟩ := hmaking j hj
    rcases List.mem_cons.mp he with rfl | he
    · exact fun heq => hji (h.uniq j i (.inr hj) (.inr hmake) heq.symm)
    · exact h.fresh j hj e he
  · rw [hpid, hhist] at hmem
    rcases List.mem_cons.mp hmem with heq | hold
    · cases heq
    · by_cases hji : j = i
      · subst hji
        exact h.fresh j hmake (.reaped r _ st) hold rfl
      · rw [hother j hji] at hj
        exact h.gone j hj r st hold
  · have hji : j ≠ i := by
      rintro rfl
      rw [hself] at hj
      cases hj
    rw [hother j hji] at hj ⊢
    refine (h.bare j hj).imp_right fun hx => ?_
    obtain ⟨x, hx⟩ := hx
    have hxq : x ≠ q := by
      rintro rfl
      rw [hpc] at hx
      injection hx with hx
      exact hji hx.symm
    have hxi : x ≠ i := by
      rintro rfl
      rw [hco.dead_of_unused hun] at hx
      cases hx
    exact ⟨x, by rw [hpcs x hxi hxq]; exact hx⟩
  · rw [hpar]
    obtain ⟨-, hxs⟩ := hwork x (.inr (by rw [hj]; simp))
    exact h.child x j (hxs ▸ hj)
  · rw [hpid]
    exact h.first
  · rw [hpar, hpid, hhist]
    by_cases hji : j = i
    · subst hji
      exact ⟨q, _, hparent, List.mem_cons_self, .inl (hpid q)⟩
    · rw [hother j hji] at hj
      obtain ⟨r, p, h₁, h₂, h₃⟩ := h.born j hne hj
      refine ⟨r, p, h₁, List.mem_cons_of_mem _ h₂, ?_⟩
      rw [hpid]
      refine h₃.imp_right fun hr => ?_
      obtain ⟨hr, st, hst⟩ := hr
      exact ⟨hr, st, List.mem_cons_of_mem _ hst⟩
  · rw [hpid, hhist, List.mem_cons, or_iff_right (by simp)]
    by_cases hji : j = i
    · subst hji
      refine iff_of_false (fun hmem => h.fresh j hmake (.exit _ st) hmem rfl) ?_
      unfold State.status
      rw [hself, hpci]
      rintro ⟨⟩
    · have hst : t.status j = s.status j := by
        unfold State.status
        rw [hother j hji]
        by_cases hjq : j = q
        · rw [hjq, hpcq, hpc]
          rfl
        · rw [hpcs j hji hjq]
      rw [hst]
      exact h.exits j (by rwa [hother j hji] at hj) st
  · rw [hhist]
    exact h.truthful

/-- A process calls `exit`. -/
theorem exitCall (h : Records s) (hco : Coherent s) (hc : (s.cpu c).ctx = .thread q)
    (hpc : s.pc q = .at .idle) (st : Int32) :
    Records ((s.goto q (.at (.exit st))).note (.exit (s.proc q).pid st)) := by
  have hrun : (s.proc q).state = .running := hco.state_running hc (by rw [hpc]; nofun)
  have huse : s.inUse q := .inl (by rw [hrun]; nofun)
  have hnone : s.status q = none := by
    unfold State.status
    rw [hrun, hpc]
    rfl
  have hnot : ∀ st, .exit (s.proc q).pid st ∉ s.hist := fun st hmem => by
    rw [h.exits q (by rw [hrun]; nofun), hnone] at hmem
    cases hmem
  have hmaking : ∀ j, (s.goto q (.at (.exit st))).making j → s.making j := fun j ⟨x, hx⟩ =>
    ⟨x, by rw [← hx]; exact (Update.proj_update Pc.making (by rw [hpc]; rfl) x).symm⟩
  have huses : ∀ j, (s.goto q (.at (.exit st))).inUse j → s.inUse j := fun j hj => hj.imp_right (hmaking j)
  have hmove : ∀ x k, x ≠ .at .idle → x ≠ .at (.exit st) →
      ((s.goto q (.at (.exit st))).pc k = x ↔ s.pc k = x) := by
    intro x k hidle hexit
    by_cases hk : k = q
    · subst hk
      rw [goto_pc, update_self, hpc]
      exact iff_of_false (Ne.symm hexit) (Ne.symm hidle)
    · rw [goto_pc, update_of_ne hk]
  refine ⟨h.next, fun j hj => h.pid j (huses j hj), fun j l hj hl => h.uniq j l (huses j hj) (huses l hl),
    fun e he => ?_, fun j hj e he => ?_, fun j hj r y hmem => ?_, fun j hj => ?_, fun x j hj => ?_, h.first,
    fun j hne hj => ?_, fun j hj y => ?_, hnot, h.truthful⟩
  · rcases List.mem_cons.mp he with rfl | he
    · exact h.pid q huse
    · exact h.known e he
  · rcases List.mem_cons.mp he with rfl | he
    · intro heq
      obtain rfl := h.uniq q j huse (.inr (hmaking j hj)) heq
      have ⟨x, hx⟩ := hmaking q hj
      rw [hco.unused_of_making hx] at hrun
      cases hrun
    · exact h.fresh j (hmaking j hj) e he
  · rcases List.mem_cons.mp hmem with heq | hmem
    · cases heq
    · exact h.gone j hj r y hmem
  · exact (h.bare j hj).imp_right fun ⟨x, hx⟩ => ⟨x, (hmove _ x (by nofun) (by nofun)).mpr hx⟩
  · refine h.child x j ?_
    rw [← hj]
    exact (Update.proj_update Pc.child (by rw [hpc]; rfl) x).symm
  · obtain ⟨r, p, h₁, h₂, h₃⟩ := h.born j hne hj
    exact ⟨r, p, h₁, List.mem_cons_of_mem _ h₂,
      h₃.imp_right fun ⟨hr, y, hy⟩ => ⟨hr, y, List.mem_cons_of_mem _ hy⟩⟩
  · by_cases hjq : j = q
    · subst hjq
      have hst : ((s.goto j (.at (.exit st))).note (.exit (s.proc j).pid st)).status j = some st := by
        simp [State.status, hrun, Pc.status, Point.status]
      rw [hst]
      change .exit (s.proc j).pid y ∈ .exit (s.proc j).pid st :: s.hist ↔ _
      rw [List.mem_cons, or_iff_left (hnot y), Event.exit.injEq, Option.some_inj]
      exact ⟨fun heq => heq.2.symm, fun heq => ⟨rfl, heq.symm⟩⟩
    · have hst : ((s.goto q (.at (.exit st))).note (.exit (s.proc q).pid st)).status j = s.status j := by
        simp [State.status, hjq]
      rw [hst, note_hist, List.mem_cons, or_iff_right]
      · exact h.exits j hj y
      · intro heq
        injection heq with heq
        exact hjq (h.uniq j q (.inl hj) huse heq)

end Records

end Xv6.Procs
