import Xv6.Kernel.Sleep.Files

/-! Wake-ups of pipes.

    A process that waits on `&pi->nread` or `&pi->nwrite` has found the pipe empty or full. The thread
    that changes this holds `pi->lock`, and owes the process a wake-up before it releases it:

    ```
      pipewrite    test ──► put ──► test ──► … ──► wakeup(&pi->nread) ──► release
                                     │
                                     └─ full, and killed ──► release
    ```

    The debt is paid by every slot that `wakeup` gets to, with one exception: a writer that has filled
    the pipe and finds itself killed returns without the wake-up. -/

namespace Xv6.Sleep

open Procs (Slot)
open State Function

variable {nc : Nat} {s t : State nc} {c : Fin nc} {q r : Slot} {u : Procs.State nc}

def Chan.pipe : Chan → Option PipeId
  | .nread i | .nwrite i => some i
  | _ => none

/-- What those who wait on the channel wait for has not come about. -/
def Chan.idle (s : State nc) : Chan → Prop
  | .nread i => (s.pipe i).empty = true ∧ (s.pipe i).writeopen = true
  | .nwrite i => (s.pipe i).full = true ∧ (s.pipe i).readopen = true
  | _ => True

def Call.fine : Call → Prop
  | .write _ _ _ i told => told ≤ i
  | _ => True

/-- What a thread can rely on. -/
def Pos.sure (s : State nc) : Pos → Prop
  | .enter k | .test k | .unlock k | .asleep k => k.fine
  | .nap k | .wakeup _ _ (.nap k) => k.fine ∧ k.chan.idle s
  | .put pi _ _ i told => told ≤ i ∧ (s.pipe pi).full = false
  | _ => True

/-- The thread will wake the process in slot `r` if it waits on the channel. -/
def Pos.owes (ch : Chan) (r : Slot) : Pos → Prop
  | .wakeup ch' i _ => ch' = ch ∧ i ≤ r
  | .put pi _ _ i told | .test (.write pi _ _ i told) => ch = .nread pi ∧ told < i
  | .copy pi _ _ i => ch = .nwrite pi ∧ 0 < i
  | _ => False

def Relies (s : State nc) : Prop := ∀ q, (s.pos q).sure s

/-- Who waits at a pipe has nothing to do there, or the holder of the lock owes it a wake-up. -/
def Wakes (s : State nc) : Prop :=
  ∀ r pi ch, Chan.pipe ch = some pi → s.procs.waiting r ch.num →
    ch.idle s ∨ ∃ h, (s.pos h).holds = some (.pipe pi) ∧ (s.pos h).owes ch r

/-- A killed writer finds the pipe full after it has put in bytes that it has told nobody about. -/
def State.silent (s : State nc) (c : Fin nc) : Bool :=
  match s.current c with
  | some q =>
    match s.pos q with
    | .test (.write pi _ n i told) => (i : Int) < n.toInt && (s.pipe pi).full && s.killed q && told < i
    | _ => false
  | none => false

/-- No writer leaves silently. -/
def Announced (s : State nc) : Act nc → Prop
  | .go c => s.silent c = false
  | _ => True

instance (s : State nc) (a : Act nc) : Decidable (Announced s a) :=
  match a with
  | .go c => inferInstanceAs (Decidable (s.silent c = false))
  | .call .. | .yield .. | .run .. | .sleep .. | .wakeup .. | .pipealloc .. | .dup .. | .close .. | .enter .. |
    .interrupt .. | .handle .. => inferInstanceAs (Decidable True)

/-- The same counters, and the same ends are open. -/
structure Pipe.Like (p p' : Pipe) : Prop where
  nread : p'.nread = p.nread
  nwrite : p'.nwrite = p.nwrite
  readopen : p'.readopen = p.readopen
  writeopen : p'.writeopen = p.writeopen

variable {p p' : Pipe}

theorem Pipe.Like.of_eq (h : p' = p) : p.Like p' := by
  subst h
  exact ⟨rfl, rfl, rfl, rfl⟩

theorem Pipe.Like.full (h : p.Like p') : p'.full = p.full := by
  unfold Pipe.full
  rw [h.nread, h.nwrite]

theorem Pipe.Like.empty (h : p.Like p') : p'.empty = p.empty := by
  unfold Pipe.empty
  rw [h.nread, h.nwrite]

variable {pi : PipeId}

theorem idle_congr {ch : Chan} (hch : ch.pipe = some pi) (h : (s.pipe pi).Like (t.pipe pi)) :
    ch.idle t ↔ ch.idle s := by
  cases ch <;> cases hch <;> simp only [Chan.idle, h.full, h.empty, h.readopen, h.writeopen]

theorem Call.lock_chan {k : Call} (h : k.chan.pipe = some pi) : k.lock = .pipe pi := by
  cases k <;> cases h <;> rfl

/-- What a thread can rely on is about the pipe whose lock it holds. -/
theorem sure_congr {k : Pos} (h : ∀ pi, k.holds = some (.pipe pi) → (s.pipe pi).Like (t.pipe pi)) (hk : k.sure s) :
    k.sure t := by
  have hidle : ∀ j : Call, (∀ pi, j.lock = .pipe pi → (s.pipe pi).Like (t.pipe pi)) → j.chan.idle s →
      j.chan.idle t := by
    intro j hj hi
    cases hch : j.chan.pipe with
    | some pi => exact (idle_congr hch (hj pi (Call.lock_chan hch))).mpr hi
    | none => cases j <;> first | exact trivial | cases hch
  cases k with
  | nap j => exact ⟨hk.1, hidle j (fun pi hl => h pi (congrArg some hl)) hk.2⟩
  | wakeup ch i j =>
    cases j with
    | nap j => exact ⟨hk.1, hidle j (fun pi hl => h pi (congrArg some hl)) hk.2⟩
    | ret => exact trivial
  | put pi src n i told => exact ⟨hk.1, (h pi rfl).full.trans hk.2⟩
  | _ => exact hk

theorem like_setPipe {i : PipeId} (ht : t.pipe = update s.pipe i p) (h : (s.pipe i).Like p)
    (j : PipeId) : (s.pipe j).Like (t.pipe j) := by
  rw [ht]
  by_cases hj : j = i
  · subst hj
    rwa [update_self]
  · rw [update_of_ne hj]
    exact .of_eq rfl

/-! ### What a thread can rely on -/

namespace Relies

variable {k : Pos}

/-- The thread of `q` goes on to `k`; other threads hold the locks of pipes that are as before. -/
theorem goto (h : Relies s) (hpos : t.pos = update s.pos q k)
    (hpipe : ∀ r pi, r ≠ q → (s.pos r).holds = some (.pipe pi) → (s.pipe pi).Like (t.pipe pi)) (hk : k.sure t) :
    Relies t := by
  intro r
  rw [hpos]
  by_cases hr : r = q
  · subst hr
    rwa [update_self]
  · rw [update_of_ne hr]
    exact sure_congr (fun pi => hpipe r pi hr) (h r)

/-- The pipes are as before. -/
theorem pass (h : Relies s) (hpos : t.pos = update s.pos q k) (hpipe : t.pipe = s.pipe)
    (hk : k.sure t) : Relies t :=
  h.goto hpos (fun _ pi _ _ => .of_eq (congrFun hpipe pi)) hk

/-- The thread changes a pipe that nobody else has locked. -/
theorem set (h : Relies s) {pi : PipeId} {p : Pipe} (hl : ∀ r, (s.pos r).holds = some (.pipe pi) → r = q)
    (hpos : t.pos = update s.pos q k) (hpipe : t.pipe = update s.pipe pi p) (hk : k.sure t) :
    Relies t := by
  refine h.goto hpos (fun r pj hr hpj => .of_eq ?_) hk
  rw [hpipe, update_of_ne]
  rintro rfl
  exact hr (hl r hpj)

theorem congr (h : Relies s) (hpos : t.pos = s.pos) (hpipe : t.pipe = s.pipe) : Relies t := by
  intro r
  rw [hpos]
  exact sure_congr (fun pi _ => .of_eq (congrFun hpipe pi)) (h r)

theorem go (h : Relies s) (hs : Sound s) (hk : s.pos q = k) (ht : Go s c q k t) : Relies t := by
  have hsure := h q
  rw [hk] at hsure
  have hsole : ∀ {pi : PipeId}, k.holds = some (.pipe pi) → ∀ r, (s.pos r).holds = some (.pipe pi) → r = q :=
    fun hl r hr => hs.sole hr (hk ▸ hl)
  cases ht with
  | relock | unlock => exact h.pass rfl rfl hsure
  | pause => exact h.pass rfl rfl hsure.1
  | close hfree => exact h.set (fun r hr => absurd hr (hs.nobody hfree r)) rfl rfl trivial
  | fail | writeDone | readSome | consoleRet | consoleMore | sleepDone | putFail | copyDone | ret =>
    exact h.pass rfl rfl trivial
  | @nap j hblocks halive hw =>
    refine h.pass rfl rfl ⟨hsure, ?_⟩
    cases j with
    | write => exact absurd rfl (hw _ _ _ _ _)
    | read pi room n =>
      simp only [Call.blocks, Bool.and_eq_true] at hblocks
      exact hblocks
    | _ => exact trivial
  | writeFull hfull hopen => exact h.pass rfl rfl ⟨Nat.le_refl _, hfull, hopen⟩
  | writeRoom hn hroom => exact h.pass rfl rfl ⟨hsure, hroom⟩
  | put => exact h.set (hsole rfl) rfl rfl (Nat.le_succ_of_le hsure.1)
  | take | takeLast => exact h.set (hsole rfl) rfl rfl trivial
  | @enter j | @wakeup _ _ j | @woken _ _ j => exact h.pass rfl rfl (by cases j <;> exact hsure)

theorem step (h : Relies s) (hs : Sound s) {a : Act nc} (ht : Step s a t) : Relies t := by
  cases ht with
  | under | fork | dup | drop | interrupt => exact h.congr rfl rfl
  | @pipealloc c q pi hq hpos hread hwrite hfree =>
    refine h.set (q := q) (k := s.pos q) (fun r hr => absurd hr (hs.nobody hfree r)) ?_ rfl ?_
    · rw [setFiles_pos, setPipe_pos, update_eq_self]
    · rw [hpos]
      trivial
  | close => exact h.pass rfl rfl trivial
  | pipewrite =>
    exact h.goto rfl (fun _ pj _ _ => like_setPipe rfl (by exact ⟨rfl, rfl, rfl, rfl⟩) pj) (Nat.le_refl 0)
  | @enter c q r hpos hpc hx hr =>
    refine h.pass rfl rfl ?_
    cases r with
    | pipewrite => exact absurd rfl (hr _ _ _ _ _)
    | _ => exact trivial
  | go hq hpc hgo => exact h.go hs rfl hgo
  | handle hk hh => cases hh <;> exact h.congr rfl rfl

end Relies

/-- What holds in every run. -/
structure Tidy (s : State nc) : Prop where
  sound : Sound s
  files : Files s
  relies : Relies s

theorem Tidy.step (h : Tidy s) {a : Act nc} (ht : Step s a t) : Tidy t :=
  ⟨h.sound.step ht, h.files.step h.sound ht, h.relies.step h.sound ht⟩

theorem tidy_boot : Tidy (boot nc) := ⟨sound_boot, files_boot, fun _ => trivial⟩

/-! ### Debts -/

namespace Wakes

variable {k : Pos} {l : Lock}

/-- The thread of `q` goes on to `k`; it alone has the lock `l` in this step. -/
theorem move (h : Wakes s) (hl : ∀ r, (s.pos r).holds = some l → r = q)
    (hpos : t.pos = update s.pos q k) (hpipe : ∀ pi, l ≠ .pipe pi → t.pipe pi = s.pipe pi)
    (hmine : ∀ l', (s.pos q).holds = some l' → l' = l)
    (hwait : ∀ r (ch : Chan) pi, ch.pipe = some pi → l ≠ .pipe pi → t.procs.waiting r ch.num →
      s.procs.waiting r ch.num)
    (hnew : ∀ r (ch : Chan) pi, ch.pipe = some pi → l = .pipe pi → t.procs.waiting r ch.num →
      (s.procs.waiting r ch.num → ch.idle s ∨ (s.pos q).owes ch r) →
        ch.idle t ∨ k.holds = some l ∧ k.owes ch r) : Wakes t := by
  intro r pi ch hch hw
  by_cases hlp : l = .pipe pi
  · have hold : s.procs.waiting r ch.num → ch.idle s ∨ (s.pos q).owes ch r := by
      intro hws
      rcases h r pi ch hch hws with hi | ⟨x, hx, ho⟩
      · exact .inl hi
      · obtain rfl := hl x (hlp ▸ hx)
        exact .inr ho
    refine (hnew r ch pi hch hlp hw hold).imp_right fun ⟨hk, ho⟩ => ⟨q, ?_, ?_⟩
    · rw [hpos, update_self, hk, hlp]
    · rwa [hpos, update_self]
  · rw [idle_congr hch (.of_eq (hpipe pi hlp))]
    refine (h r pi ch hch (hwait r ch pi hch hlp hw)).imp_right fun ⟨x, hx, ho⟩ => ?_
    have hxq : x ≠ q := by
      rintro rfl
      exact hlp (hmine _ hx).symm
    exact ⟨x, by rwa [hpos, update_of_ne hxq], by rwa [hpos, update_of_ne hxq]⟩

/-- The thread of `q` acquires the lock of its call. -/
theorem acquire (h : Wakes s) (hs : Sound s) {k : Call} (hfree : s.lock k.lock = none) (hq : (s.pos q).holds = none)
    (howes : ∀ ch r, ¬ (s.pos q).owes ch r) (hprocs : t.procs = s.procs)
    (hpos : t.pos = update s.pos q (.test k)) (hpipe : t.pipe = s.pipe) : Wakes t := by
  refine h.move (fun r hr => absurd hr (hs.nobody hfree r)) hpos (fun _ _ => by rw [hpipe])
    (fun l hl => by rw [hq] at hl; cases hl) (fun r ch pi _ _ hw => hprocs ▸ hw) fun r ch pi hch _ hw hold => ?_
  rw [hprocs] at hw
  refine .inl ((idle_congr hch (.of_eq (congrFun hpipe pi))).mpr ?_)
  exact (hold hw).resolve_right (howes ch r)

/-- The thread of `q` goes on with the lock `l`, or releases it. -/
theorem hold (h : Wakes s) (hs : Sound s) (hq : (s.pos q).holds = some l)
    (hprocs : t.procs = s.procs) (hpos : t.pos = update s.pos q k)
    (hpipe : ∀ pi, l ≠ .pipe pi → t.pipe pi = s.pipe pi)
    (hnew : ∀ r (ch : Chan) pi, ch.pipe = some pi → l = .pipe pi → s.procs.waiting r ch.num →
      (ch.idle s ∨ (s.pos q).owes ch r) → ch.idle t ∨ k.holds = some l ∧ k.owes ch r) : Wakes t := by
  refine h.move (fun r hr => hs.sole hr hq) hpos hpipe (fun l' hl' => Option.some.inj (hl'.symm.trans hq))
    (fun r ch pi _ _ hw => hprocs ▸ hw) fun r ch pi hch hl hw hold => ?_
  rw [hprocs] at hw
  exact hnew r ch pi hch hl hw (hold hw)

/-- The pipes are as before, and the thread owes what it has owed. -/
theorem pass (h : Wakes s) (hs : Sound s) (hq : (s.pos q).holds = some l)
    (hprocs : t.procs = s.procs) (hpos : t.pos = update s.pos q k) (hpipe : t.pipe = s.pipe)
    (howes : ∀ ch r, (s.pos q).owes ch r → k.holds = some l ∧ k.owes ch r) : Wakes t := by
  refine h.hold hs hq hprocs hpos (fun _ _ => by rw [hpipe]) fun r ch pi hch _ _ hold => ?_
  exact hold.imp (idle_congr hch (.of_eq (congrFun hpipe pi))).mpr (howes ch r)

variable {j : After} {wch : Chan}

/-- The thread begins to wake those who wait on `wch`, and owes nothing else. -/
theorem wake (h : Wakes s) (hs : Sound s) (hq : (s.pos q).holds = some j.lock)
    (hprocs : t.procs = s.procs) (hpos : t.pos = update s.pos q (.wakeup wch 0 j))
    (hpipe : t.pipe = s.pipe) (howes : ∀ ch r, (s.pos q).owes ch r → ch = wch) : Wakes t :=
  h.pass hs hq hprocs hpos hpipe fun ch r ho => ⟨rfl, (howes ch r ho).symm, Nat.zero_le _⟩

/-- A thread outside the calls begins one. -/
theorem outside (h : Wakes s) (hq : s.pos q = .out) (hprocs : t.procs = s.procs)
    (hpos : t.pos = update s.pos q k) (hpipe : ∀ pi, (s.pipe pi).Like (t.pipe pi)) : Wakes t := by
  intro r pi ch hch hw
  rw [hprocs] at hw
  refine (h r pi ch hch hw).imp (idle_congr hch (hpipe pi)).mpr fun ⟨x, hx, ho⟩ => ?_
  have hxq : x ≠ q := by
    rintro rfl
    rw [hq] at hx
    cases hx
  exact ⟨x, by rwa [hpos, update_of_ne hxq], by rwa [hpos, update_of_ne hxq]⟩

/-- Fewer processes wait. -/
theorem fewer (h : Wakes s) (hpos : t.pos = s.pos) (hpipe : t.pipe = s.pipe)
    (hw : ∀ r (ch : Chan) pi, ch.pipe = some pi → t.procs.waiting r ch.num → s.procs.waiting r ch.num) : Wakes t := by
  intro r pi ch hch hwt
  rw [hpos, idle_congr hch (.of_eq (congrFun hpipe pi))]
  exact h r pi ch hch (hw r ch pi hch hwt)

theorem pause (h : Wakes s) (hs : Sound s) (hr : Relies s) {k : Call} (hk : s.pos q = .nap k)
    (hu : Procs.step s.procs (.pause c (.sleep k.chan.num)) = some u) :
    Wakes ((s.under u).goto q (.unlock k)) := by
  have hsure := hr q
  rw [hk] at hsure
  have hw : ∀ r (ch : Chan), u.waiting r ch.num → s.procs.waiting r ch.num ∨ ch = k.chan := by
    intro r ch hw
    rcases (Procs.step_step hu).waiting hs.coherent hw with hw | ⟨c', p, hb, -, -⟩
    · exact .inl hw
    · injection hb with _ hb
      exact .inr (Chan.num_inj (Procs.Pause.sleep.inj hb)).symm
  refine h.move (fun r hr => hs.sole hr (by rw [hk]; rfl)) rfl (fun _ _ => rfl)
    (fun l hl => by rw [hk] at hl; exact (Option.some.inj hl).symm) (fun r ch pi hch hl hwt => ?_)
    fun r ch pi hch hl hwt hold => .inl ?_
  · refine (hw r ch hwt).resolve_right ?_
    rintro rfl
    exact hl (Call.lock_chan hch)
  · rcases hw r ch hwt with hws | rfl
    · rw [hk] at hold
      exact (hold hws).resolve_right id
    · exact hsure.2

theorem wakeup (h : Wakes s) (hs : Sound s) {i : Slot} (hk : s.pos q = .wakeup wch i j)
    (hu : Procs.step s.procs (.wakeup wch.num i) = some u) :
    Wakes ((s.under u).goto q (.wakeup wch (i + 1) j)) := by
  have hw : ∀ r (ch : Chan), u.waiting r ch.num → s.procs.waiting r ch.num := by
    intro r ch hw
    rcases (Procs.step_step hu).waiting hs.coherent hw with hw | ⟨c', p, hb, -, -⟩
    · exact hw
    · cases hb
  refine h.move (fun r hr => hs.sole hr (by rw [hk]; rfl)) rfl (fun _ _ => rfl)
    (fun l hl => by rw [hk] at hl; exact (Option.some.inj hl).symm) (fun r ch pi _ _ hwt => hw r ch hwt)
    fun r ch pi hch hl hwt hold => ?_
  rw [hk] at hold
  refine (hold (hw r ch hwt)).imp id fun ⟨hch', hle⟩ => ⟨rfl, hch', ?_⟩
  subst hch'
  refine Nat.lt_of_le_of_ne hle fun heq => ?_
  obtain rfl : i = r := Fin.ext heq
  exact Procs.wakeup_wakes hs.coherent hs.napping hu hwt

variable {i : Nat}

theorem woken (h : Wakes s) (hs : Sound s) (hk : s.pos q = .wakeup wch i j)
    (hi : ¬ i < NPROC) : Wakes (s.goto q j.pos) := by
  refine h.pass hs (by rw [hk]; rfl) rfl rfl rfl fun ch r ho => ?_
  rw [hk] at ho
  exact absurd (Nat.lt_of_le_of_lt ho.2 r.isLt) hi

variable {pi : PipeId} {n : Int32}

section Pipes

variable (h : Wakes s) (hs : Sound s)

include h hs

theorem put (hr : Relies s) {src : List UInt8} {told : Nat}
    {b : UInt8} (hk : s.pos q = .put pi src n i told) :
    Wakes ((s.setPipe pi ((s.pipe pi).put q b)).goto q (.test (.write pi src n (i + 1) told))) := by
  obtain ⟨hle, hroom⟩ : told ≤ i ∧ (s.pipe pi).full = false := by
    have hsure := hr q
    rwa [hk] at hsure
  refine h.hold hs (by rw [hk]; rfl) rfl rfl (fun pj hpj => ?_)
    fun r ch pj hch hl hw hold => .inr ⟨rfl, ?_, Nat.lt_succ_of_le hle⟩
  · have hne : pj ≠ pi := by
      rintro rfl
      exact hpj rfl
    simp [hne]
  · obtain rfl := Lock.pipe.inj hl
    rw [hk] at hold
    cases ch with
    | nread pj => cases hch; rfl
    | nwrite pj =>
      cases hch
      rcases hold with ⟨hfull, -⟩ | ⟨ho, -⟩
      · rw [hroom] at hfull
        cases hfull
      · exact ho
    | _ => cases hch

/-- A reader has taken a byte. -/
theorem take {room : Nat}
    (hk : s.pos q = .copy pi room n i) (hne : (s.pipe pi).empty = false)
    (hholds : k.holds = some (.pipe pi)) (howes : ∀ r, k.owes (.nwrite pi) r) :
    Wakes ((s.setPipe pi (s.pipe pi).take).goto q k) := by
  refine h.hold hs (by rw [hk]; rfl) rfl rfl (fun pj hpj => ?_)
    fun r ch pj hch hl hw hold => .inr ⟨hholds, ?_⟩
  · have hne : pj ≠ pi := by
      rintro rfl
      exact hpj rfl
    simp [hne]
  · obtain rfl := Lock.pipe.inj hl
    rw [hk] at hold
    cases ch with
    | nwrite pj => cases hch; exact howes r
    | nread pj =>
      cases hch
      rcases hold with ⟨hempty, -⟩ | ⟨ho, -⟩
      · rw [hne] at hempty
        cases hempty
      · cases ho
    | _ => cases hch

/-- `pipeclose` owes a wake-up to all who wait at the other end. -/
theorem close {x : PipeId × End} (hk : s.pos q = .close x)
    (hfree : s.lock (.pipe x.1) = none) :
    Wakes (((s.locked c (.pipe x.1)).setPipe x.1 ((s.pipe x.1).shut x.2)).goto q
      (.wakeup (closeChan x) 0 (.ret (.pipe x.1) 0))) := by
  refine h.move (fun r hr => absurd hr (hs.nobody hfree r)) rfl (fun pj hpj => ?_)
    (fun l hl => by rw [hk] at hl; cases hl) (fun _ _ _ _ _ hw => hw) fun r ch pj hch hl hw hold => ?_
  · have hne : pj ≠ x.1 := by
      rintro rfl
      exact hpj rfl
    simp [hne]
  · obtain ⟨pi, e⟩ := x
    obtain rfl : pi = pj := Lock.pipe.inj hl
    rw [hk] at hold
    have hidle := (hold hw).resolve_right id
    cases ch with
    | nread pj =>
      cases hch
      cases e with
      | read => exact .inl (by simpa [Chan.idle, Pipe.shut, Pipe.empty] using hidle)
      | write => exact .inr ⟨rfl, rfl, Nat.zero_le _⟩
    | nwrite pj =>
      cases hch
      cases e with
      | read => exact .inr ⟨rfl, rfl, Nat.zero_le _⟩
      | write => exact .inl (by simpa [Chan.idle, Pipe.shut, Pipe.full] using hidle)
    | _ => cases hch

theorem fail (hf : Files s) (hq : s.current c = some q) {k : Call} (hk : s.pos q = .test k)
    (hblocks : k.blocks s = true) (hwhy : k.hopeless s q) (hn : k.unfinished) (hok : s.silent c = false) :
    Wakes (s.goto q (.ret k.lock (-1))) := by
  refine h.hold hs (by rw [hk]; rfl) rfl rfl (fun _ _ => rfl) fun r ch pi hch hl hw hold => .inl ?_
  rw [hk] at hold
  refine hold.resolve_right fun ho => ?_
  cases k with
  | write pj src n i told =>
    obtain ⟨rfl, hlt⟩ := ho
    rcases hwhy with hclosed | hkilled
    · -- a reader that waits has the read end open
      obtain ⟨j, hj, hjch⟩ := hs.of_waiting hw nofun
      have hfile : (s.pos r).file = some (pj, .read) := by
        cases j <;> cases hjch
        rcases hj with hj | hj <;> rw [hj] <;> rfl
      have hopen : (s.pipe pj).readopen = true := hf.opened r _ (hf.used r _ hfile)
      rw [hclosed] at hopen
      cases hopen
    · have hsilent : s.silent c = true := by
        simp only [State.silent, hq, hk, Bool.and_eq_true, decide_eq_true_eq]
        exact ⟨⟨⟨hn, hblocks⟩, hkilled⟩, hlt⟩
      rw [hok] at hsilent
      cases hsilent
  | _ => exact ho

theorem go (hf : Files s) (hr : Relies s) (hq : s.current c = some q)
    (hok : s.silent c = false) (hk : s.pos q = k) (ht : Go s c q k t) : Wakes t := by
  have hno : (∀ ch r, ¬ k.owes ch r) → ∀ {k' : Pos} {l : Lock} (ch : Chan) (r : Slot), (s.pos q).owes ch r →
      k'.holds = some l ∧ k'.owes ch r := fun hn _ _ ch r ho => absurd (hk ▸ ho) (hn ch r)
  cases ht with
  | @enter j hfree =>
    have hlock : s.lock (j.start s.ticks).lock = none := by cases j <;> exact hfree
    exact h.acquire hs hlock (by rw [hk]; rfl) (fun ch r ho => by rw [hk] at ho; exact ho) rfl rfl rfl
  | relock hfree =>
    exact h.acquire hs hfree (by rw [hk]; rfl) (fun ch r ho => by rw [hk] at ho; exact ho) rfl rfl rfl
  | close hfree => exact h.close hs hk hfree
  | fail hblocks hwhy hn => exact h.fail hs hf hq hk hblocks hwhy hn hok
  | @nap j hblocks halive hw =>
    refine h.pass hs (by rw [hk]; rfl) rfl rfl rfl (hno fun ch r ho => ?_)
    cases j with
    | write => exact hw _ _ _ _ _ rfl
    | _ => exact ho
  | writeFull | writeDone | putFail | copyDone =>
    refine h.wake hs (by rw [hk]; rfl) rfl rfl rfl fun ch r ho => ?_
    rw [hk] at ho
    exact ho.1
  | writeRoom =>
    refine h.pass hs (by rw [hk]; rfl) rfl rfl rfl fun ch r ho => ?_
    rw [hk] at ho
    exact ⟨rfl, ho⟩
  | readSome | consoleRet | consoleMore | sleepDone | unlock | ret =>
    exact h.pass hs (by rw [hk]; rfl) rfl rfl rfl (hno fun _ _ => id)
  | pause hu => exact h.pause hs hr hk hu
  | put => exact h.put hs hr hk
  | take hne => exact h.take hs hk hne rfl fun _ => ⟨rfl, Nat.succ_pos _⟩
  | takeLast hne => exact h.take hs hk hne rfl fun _ => ⟨rfl, Nat.zero_le _⟩
  | wakeup hu => exact h.wakeup hs hk hu
  | woken hi => exact h.woken hs hk hi

theorem pipealloc (hf : Files s) {l : List (PipeId × End)}
    (hclosed : ∀ e, (s.pipe pi).isOpen e = false) :
    Wakes ((s.setPipe pi (s.pipe pi).alloc).setFiles q l) := by
  intro r pj ch hch hw
  -- nobody waits at a pipe that is closed
  have hne : pj ≠ pi := by
    rintro rfl
    obtain ⟨k, hk, hkch⟩ := hs.of_waiting hw (by rintro m rfl; cases hch)
    have hfile : ∃ e, (s.pos r).file = some (pj, e) := by
      subst hkch
      cases k <;> cases hch <;> rcases hk with hk | hk <;> rw [hk] <;> exact ⟨_, rfl⟩
    obtain ⟨e, he⟩ := hfile
    have hopen := hf.opened r _ (hf.used r _ he)
    rw [hclosed] at hopen
    cases hopen
  have hsame : ((s.setPipe pi (s.pipe pi).alloc).setFiles q l).pipe pj = s.pipe pj := by simp [hne]
  rw [idle_congr hch (.of_eq hsame)]
  exact h r pj ch hch hw

theorem step (hf : Files s) (hr : Relies s) {a : Act nc} (hok : Announced s a)
    (ht : Step s a t) : Wakes t := by
  have hpipe : ∀ {ch : Chan} {pi : PipeId}, ch.pipe = some pi → ∀ m, ch ≠ .other m := by
    rintro ch pi hch m rfl
    cases hch
  cases ht with
  | under hl hu | fork hl hpc hu => exact h.fewer rfl rfl fun r ch pi hch hw => hl.waiting hs hu (hpipe hch) hw
  | pipealloc hq hpos hread hwrite => exact h.pipealloc hs hf fun e => by cases e; exacts [hread, hwrite]
  | dup | drop | interrupt => exact h.fewer rfl rfl fun _ _ _ _ hw => hw
  | close hpos | enter hpos => exact h.outside hpos rfl rfl fun _ => .of_eq rfl
  | pipewrite hpos => exact h.outside hpos rfl rfl (like_setPipe rfl (by exact ⟨rfl, rfl, rfl, rfl⟩))
  | go hq hpc hgo => exact h.go hs hf hr hq hok rfl hgo
  | handle hk hh =>
    cases hh with
    | enter | uart | clock | woken | ret => exact h.fewer rfl rfl fun _ _ _ _ hw => hw
    | wakeup hu =>
      refine h.fewer rfl rfl fun r ch pi hch hw => ?_
      rcases (Procs.step_step hu).waiting hs.coherent hw with hw | ⟨c', p, hb, -, -⟩
      · exact hw
      · cases hb

end Pipes

end Wakes

theorem wakes_boot : Wakes (boot nc) := by
  intro r pi ch _ hw
  have hn := hw.1
  by_cases hr : r = Procs.initproc <;> simp [boot, Procs.boot, hr, Procs.Pc.nap] at hn

/-- A process that sleeps on a channel waits on it. -/
theorem Sound.waiting_of_chan (h : Sound s) {n : Nat} (hst : (s.procs.proc r).state = .sleeping)
    (hch : (s.procs.proc r).chan = some (.other n)) : s.procs.waiting r n := by
  obtain ⟨x, ch, hx, hxch, hch'⟩ := h.napping r hst
  rw [hch] at hch'
  cases hch'
  refine ⟨?_, .inr hst⟩
  rcases hx with hx | hx <;> rw [hx] <;> cases x with
    | resume w p => cases w <;> cases hxch; rfl
    | _ => cases hxch

/-- No wake-up of a pipe is lost: when `pi->lock` is free, who sleeps on `&pi->nread` has nothing to read,
    and who sleeps on `&pi->nwrite` has no room to write. -/
theorem pipe_wakeup_not_lost {as : List (Act nc)} (hrun : Run Announced (boot nc) as s) (pi : PipeId)
    (hfree : s.lock (.pipe pi) = none) (r : Slot) (hst : (s.procs.proc r).state = .sleeping) :
    ((s.procs.proc r).chan = some (.other (Chan.nread pi).num) →
      (s.pipe pi).nread = (s.pipe pi).nwrite ∧ (s.pipe pi).writeopen = true) ∧
    ((s.procs.proc r).chan = some (.other (Chan.nwrite pi).num) →
      (s.pipe pi).nwrite = (s.pipe pi).nread + 512 ∧ (s.pipe pi).readopen = true) := by
  have hinv : Tidy s ∧ Wakes s :=
    System.Run.step_invariant (I := fun s => Tidy s ∧ Wakes s)
      (fun _ _ _ h hok ht => ⟨h.1.step (step_step ht),
        h.2.step h.1.sound h.1.files h.1.relies hok (step_step ht)⟩) hrun ⟨tidy_boot, wakes_boot⟩
  obtain ⟨⟨hs, -, -⟩, hw⟩ := hinv
  have hidle : ∀ ch : Chan, ch.pipe = some pi → (s.procs.proc r).chan = some (.other ch.num) → ch.idle s := by
    intro ch hpi hch
    rcases hw r pi ch hpi (hs.waiting_of_chan hst hch) with hi | ⟨x, hx, -⟩
    · exact hi
    · exact absurd hx (hs.nobody hfree x)
  exact ⟨fun hch => (hidle _ rfl hch).imp_left of_decide_eq_true,
    fun hch => (hidle _ rfl hch).imp_left of_decide_eq_true⟩

theorem pipe_wakeup_not_lost_empty : ∃ s : State 2, (s.procs.proc 1).state = .sleeping ∧
    (s.procs.proc 1).chan = some (.other (Chan.nread 0).num) ∧
    (s.pipe 0).nread = (s.pipe 0).nwrite ∧ (s.pipe 0).writeopen = true := by
  have hrun := System.run_exec (System.ofStep step) Announced (boot 2) (forkRun ++ readRun ++ napRun)
    (by decide +kernel)
  exact ⟨_, by decide +kernel, by decide +kernel,
    (pipe_wakeup_not_lost hrun 0 (by decide +kernel) 1 (by decide +kernel)).1 (by decide +kernel)⟩

/-- While the child sleeps in `piperead`, a second child writes 513 bytes and is killed meanwhile. -/
def silentRun : List (Act 2) :=
  forkRun ++ readRun ++ napRun ++ .call 0 .fork :: List.replicate 9 (.run 0 true) ++ List.replicate 3 (.run 1 true) ++
    [.enter 1 (.pipewrite 0 (List.replicate 512 7) 513), .go 1] ++ .call 0 (.kill 3) :: List.replicate 6 (.run 0 true) ++
    List.replicate 1026 (.go 1)

/-- The second child fills the pipe and returns; the first one sleeps on. -/
theorem pipe_wakeup_lost_killed : ∃ s : State 2, Run (fun _ _ => True) (boot 2) silentRun s ∧
    s.lock (.pipe 0) = none ∧ (s.procs.proc 1).state = .sleeping ∧
    (s.procs.proc 1).chan = some (.other (Chan.nread 0).num) ∧ (s.pipe 0).nwrite = (s.pipe 0).nread + 512 := by
  have h : ((System.ofStep step).exec (fun _ _ => True) (boot 2) silentRun).any (fun s =>
      s.lock (.pipe 0) = none ∧ (s.procs.proc 1).state = .sleeping ∧
      (s.procs.proc 1).chan = some (.other (Chan.nread 0).num) ∧ (s.pipe 0).nwrite = (s.pipe 0).nread + 512) = true := by
    decide +kernel
  obtain ⟨s, hs, h⟩ := (Option.any_eq_true ..).mp h
  exact ⟨s, System.run_of_exec hs, of_decide_eq_true h⟩

end Xv6.Sleep
