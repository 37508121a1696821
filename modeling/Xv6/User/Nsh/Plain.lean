import Xv6.User.Nsh.Words

/-! Plain commands of nsh: how a line of words and blanks becomes the arguments of `exec` (`nsh.c`).

    ```
    buf      ␣  ␣  l  s  ␣  ␣  -  l  \0
    after    0  ␣  l  s  0  ␣  -  l  \0
                   │           └─ line[1]
                   └───────────── line[0]
    ```

    Only the first blank after a word is overwritten; it ends the word. The command is run where the line ends
    in a word, so a blank at its end is enough to lose it. -/

namespace Xv6.Nsh
open Ulib Function

/-- Words, each with the number of blanks before it. -/
abbrev Spaced : Type := List (Nat × Str)

def Spaced.text (l : Spaced) : List UInt8 := l.flatMap fun x => List.replicate x.1 blank ++ x.2

def Spaced.words (l : Spaced) : List Str := l.map Prod.snd

variable {W : World} {s t : State} {w : Str} {ws : List Str} {l l' : List UInt8} {k : Nat}

/-! ### Blanks -/

/-- `l` is what is left of the line. -/
structure Left (s : State) (l : List UInt8) : Prop where
  text : bytes s.buf s.i l.length = l
  zero : s.buf (s.i + l.length) = 0
  room : s.i + l.length + 1 < BUFSIZE

theorem Left.after (h : Left s (l ++ l')) (hi : t.i = s.i + l.length) (hbuf : ∀ a, t.i ≤ a → t.buf a = s.buf a) :
    Left t l' := by
  have hroom := h.room
  have hzero := h.zero
  rw [List.length_append] at hroom hzero
  refine ⟨?_, ?_, by omega⟩
  · rw [bytes_congr fun a _ => hbuf _ (by omega), hi]
    exact (bytes_append h.text).2.2
  · rw [hbuf _ (by omega), hi, Nat.add_assoc, hzero]

theorem Left.blank (h : Left s (List.replicate (k + 1) blank ++ l)) : s.buf s.i = blank := by
  have htext := h.text
  rw [List.replicate_succ, List.cons_append] at htext
  exact (List.cons_eq_cons.mp htext).1

/-- A round for a blank. -/
theorem Left.round (h : Left s (List.replicate (k + 1) Nsh.blank ++ l)) (hspace : onSpace W s = .ok t) :
    Runs W s { t with i := t.i + 1 } := by
  have hroom := h.room
  refine .round (by omega) ?_ (step_blank h.blank hspace)
  rw [h.blank]
  decide

/-- Blanks after a blank are skipped. -/
theorem runs_blanks (h : Left s (List.replicate k blank ++ l)) (hprev : s.prev = .space) :
    Runs W s { s with i := s.i + k } := by
  induction k generalizing s with
  | zero => exact Runs.refl s
  | succ k ih =>
    have hround := h.round (W := W) (if_pos (.inl hprev))
    refine hround.trans ?_
    rw [Nat.add_comm k, ← Nat.add_assoc]
    refine ih ?_ hprev
    rw [List.replicate_succ, List.cons_append] at h
    exact h.after (l := [blank]) rfl fun _ _ => rfl

/-! ### Words -/

/-- Before the blanks of a word: `line` has the words so far, once the character here has ended the last. -/
structure Mid (s : State) (ws : List Str) (l : List UInt8) : Prop where
  left : Left s l
  holds : Holds (update s.buf s.i 0) s.line (s.i + 1) 0 ws
  n : s.n = ws.length
  prev : s.prev = if ws = [] then .start else .char
  flag : s.flag = .start
  out : s.outInPipe = false
  events : s.events = []

/-- The rounds for the blanks before a word. -/
theorem Mid.blanks (h : Mid s ws (List.replicate k blank ++ l)) (hk : ws ≠ [] → 0 < k) :
    ∃ buf prev, Runs W s { s with buf := buf, prev := prev, i := s.i + k } ∧ prev ≠ .char ∧
      (∀ a, s.i + k ≤ a → buf a = s.buf a) ∧ Holds buf s.line (s.i + k) 0 ws := by
  have hroom := h.left.room
  rw [List.length_append, List.length_replicate] at hroom
  cases k with
  | zero =>
    obtain rfl : ws = [] := by_contra fun hne => absurd (hk hne) (Nat.lt_irrefl 0)
    exact ⟨s.buf, s.prev, Runs.refl s, by rw [h.prev]; simp, fun _ _ => rfl, h.holds⟩
  | succ k =>
    have hspace : onSpace W s = .ok { s with prev := .space, buf := update s.buf s.i 0 } := by
      have hprev := h.prev
      rw [onSpace, if_neg (by rw [hprev]; split <;> simp)]
      simp only [h.flag]
    have hround := h.left.round hspace
    refine ⟨update s.buf s.i 0, .space, hround.trans ?_, by simp, fun a ha => update_of_ne (by omega) _ _,
      h.holds.mono (fun _ _ => rfl) (by omega) (by omega)⟩
    have hleft := h.left
    rw [List.replicate_succ, List.cons_append] at hleft
    rw [Nat.add_comm k, ← Nat.add_assoc]
    exact runs_blanks
      (hleft.after (l := [blank]) rfl fun a ha => update_of_ne (Nat.ne_of_gt ha) _ _) rfl

/-- The rounds for a word and the blanks before it. -/
theorem Mid.word (h : Mid s ws (List.replicate k blank ++ w ++ l)) (hk : ws ≠ [] → 0 < k) (hw : Plain w)
    (hlt : ws.length < MAXARG) : ∃ t, Runs W s t ∧ Mid t (ws ++ [w]) l := by
  have hleft := h.left
  rw [List.append_assoc] at h
  obtain ⟨buf, prev, hrun, hprev, hbuf, hholds⟩ := h.blanks hk
  have hroom := hleft.room
  simp only [List.length_append, List.length_replicate] at hroom
  have hleft' : Left { s with buf := buf, prev := prev, i := s.i + k } (w ++ l) :=
    h.left.after (by simp) hbuf
  have hword : bytes buf (s.i + k) w.length = w := (bytes_append hleft'.text).2.1
  refine ⟨_, hrun.trans (runs_word hprev hword hw (by show s.i + k + w.length ≤ _; omega)
    (by show s.n < _; rw [h.n]; exact hlt)), ?_, ?_, ?_, ?_, h.flag, h.out, h.events⟩
  · exact hleft'.after rfl fun _ _ => rfl
  · have hends : Ends (update buf (s.i + k + w.length) 0) (s.i + k + w.length + 1) (s.i + k) w :=
      ⟨by rwa [bytes_update (by omega)], hw.zero, update_self _ _ _, by omega, by omega⟩
    have hpush := (hholds.mono (fun a ha => update_of_ne (show a ≠ s.i + k + w.length by omega) 0 buf)
      (Nat.le_add_right _ (w.length + 1)) (by omega)).push hends
    rw [Nat.zero_add, ← h.n] at hpush
    exact hpush
  · rw [h.n, List.length_append]
    rfl
  · exact (if_neg (by simp)).symm

/-- The round after the blanks before a word that `line` has no room for. -/
theorem Mid.full (h : Mid s ws (List.replicate k blank ++ w ++ l)) (hk : ws ≠ [] → 0 < k) (hw : Plain w)
    (hfull : MAXARG ≤ ws.length) :
    ∃ t, Runs W s t ∧ t.i < BUFSIZE ∧ t.buf t.i ≠ 0 ∧ step W t = .error "line" := by
  rw [List.append_assoc] at h
  obtain ⟨buf, prev, hrun, hprev, hbuf, -⟩ := h.blanks (W := W) hk
  have hleft : Left { s with buf := buf, prev := prev, i := s.i + k } (w ++ l) := h.left.after (by simp) hbuf
  obtain ⟨c, w, rfl⟩ := List.exists_cons_of_ne_nil hw.1
  have hc : buf (s.i + k) = c := (List.cons_eq_cons.mp hleft.text).1
  have hroom := hleft.room
  refine ⟨_, hrun, by omega, ?_, ?_⟩
  · show buf (s.i + k) ≠ 0
    rintro h0
    exact hw.2 c (by simp) (by rw [← hc, h0]; simp)
  · have hchar : onChar { s with buf := buf, prev := prev, i := s.i + k } = .error "line" := by
      rw [onChar, if_neg hprev, setLine, if_neg (by rw [h.n]; omega)]
      rfl
    rw [step_eq (hw.2 c (by simp)) hc, hchar]
    rfl

/-- There is a blank before every word but the first. -/
def Spaced.Gaps (x : Spaced) : Prop := ∀ y ∈ x.tail, 0 < y.1

instance (x : Spaced) : Decidable x.Gaps := inferInstanceAs (Decidable (∀ y ∈ x.tail, 0 < y.1))

variable {x : Spaced}

theorem Spaced.text_cons (y : Nat × Str) (x : Spaced) :
    Spaced.text (y :: x) = List.replicate y.1 blank ++ y.2 ++ x.text := rfl

theorem Spaced.text_append (x y : Spaced) : Spaced.text (x ++ y) = x.text ++ y.text := List.flatMap_append

/-- The rounds for the words of a line. -/
theorem Mid.line (h : Mid s ws (x.text ++ l)) (hfirst : ∀ y ∈ x.head?, ws ≠ [] → 0 < y.1) (hgaps : x.Gaps)
    (hx : ∀ w ∈ x.words, Plain w) (hle : ws.length + x.length ≤ MAXARG) :
    ∃ t, Runs W s t ∧ Mid t (ws ++ x.words) l := by
  induction x generalizing s ws with
  | nil =>
    rw [Spaced.words, List.map_nil, List.append_nil]
    exact ⟨s, Runs.refl s, h⟩
  | cons y x ih =>
    rw [List.length_cons] at hle
    rw [Spaced.text_cons, List.append_assoc] at h
    have hx : Plain y.2 ∧ ∀ w ∈ Spaced.words x, Plain w := List.forall_mem_cons.mp hx
    obtain ⟨t, hrun, hmid⟩ := Mid.word (W := W) h (hfirst y rfl) hx.1 (by omega)
    have hgaps' : ∀ z ∈ x, 0 < z.1 := hgaps
    obtain ⟨u, hrun', hmid'⟩ := ih hmid (fun z hz _ => hgaps' z (List.mem_of_mem_head? hz))
      (fun z hz => hgaps' z (List.mem_of_mem_tail hz)) hx.2 (by rw [List.length_append, List.length_singleton]; omega)
    refine ⟨u, hrun.trans hrun', ?_⟩
    rw [List.append_assoc] at hmid'
    exact hmid'

/-! ### Lines

    What comes of a line of words `x` with `k` blanks after them. -/

variable {input : List UInt8}

/-- The scanner has words and blanks before it. -/
structure Ready (input : List UInt8) (x : Spaced) (k : Nat) : Prop where
  mid : Mid (initial (gets BUFSIZE input).1) [] (x.text ++ List.replicate k blank)
  gaps : x.Gaps
  words : ∀ w ∈ x.words, Plain w

theorem Ready.scan (h : Ready input x k) (hle : x.length ≤ MAXARG) :
    ∃ t, Runs W (initial (gets BUFSIZE input).1) t ∧ Mid t x.words (List.replicate k blank) := by
  have := h.mid.line (W := W) (fun _ _ hne => absurd rfl hne) h.gaps h.words (by simpa using hle)
  rwa [List.nil_append] at this

/-- More words than `line` has room for. -/
theorem Ready.many (h : Ready input x k) (hlt : MAXARG < x.length) : Settles W input (.error "line") := by
  have hsplit := List.take_append_drop MAXARG x
  obtain ⟨y, rest, hdrop⟩ := List.exists_cons_of_ne_nil (show x.drop MAXARG ≠ [] by simpa using hlt)
  rw [hdrop] at hsplit
  have htext : x.text ++ List.replicate k blank = Spaced.text (x.take MAXARG) ++
      (List.replicate y.1 blank ++ y.2 ++ (Spaced.text rest ++ List.replicate k blank)) := by
    conv_lhs => rw [← hsplit]
    rw [Spaced.text_append, Spaced.text_cons]
    simp only [List.append_assoc]
  have hmid := h.mid
  rw [htext] at hmid
  have htail : ∀ z ∈ (x.take MAXARG).tail ++ y :: rest, 0 < z.1 := by
    rw [← List.tail_append_of_ne_nil (by cases x <;> simp_all [MAXARG]), hsplit]
    exact h.gaps
  obtain ⟨t, hrun, ht⟩ := hmid.line (fun _ _ hne => absurd rfl hne)
    (fun z hz => htail z (List.mem_append_left _ hz))
    (fun w hw => h.words w (List.map_subset _ (List.take_subset _ _) hw))
    (by rw [List.length_nil, List.length_take]; omega)
  obtain ⟨u, hrun', hi, hc, hstep⟩ := ht.full (W := W) (fun _ => htail y (by simp))
    (h.words y.2 (List.mem_map_of_mem (by rw [← hsplit]; simp))) (by simp [Spaced.words]; omega)
  exact (hrun.trans hrun').fails hi hc hstep

/-- Without words, or with a blank at the end, nothing is run. -/
theorem Ready.lost (h : Ready input x k) (hle : x.length ≤ MAXARG) (hk : x ≠ [] → 0 < k) :
    Settles W input (.ok []) := by
  obtain ⟨t, hrun, hmid⟩ := h.scan (W := W) hle
  rw [← List.append_nil (List.replicate k blank)] at hmid
  obtain ⟨buf, prev, hrun', hprev, hbuf, -⟩ := hmid.blanks (W := W) (by simpa [Spaced.words] using hk)
  have hroom := hmid.left.room
  simp only [List.append_nil, List.length_replicate] at hroom
  have hzero := hmid.left.zero
  rw [List.append_nil, List.length_replicate] at hzero
  have hset := (hrun.trans hrun').settles (by show t.i + k < _; omega)
    ((hbuf _ (Nat.le_refl _)).trans hzero)
  rwa [finish, if_neg fun hp => hprev hp.1, if_neg (by simp [hmid.out]), Except.map, hmid.events] at hset

/-- Where the line ends in a word, the command is run if its arguments end in a null pointer. -/
theorem Ready.run (h : Ready input x 0) (hle : x.length ≤ MAXARG) (hne : x ≠ []) :
    Settles W input (if x.length < MAXARG then
      .ok [.exec x.words W.stdin, .output none (W.prog x.words W.stdin)] else .error "line") := by
  obtain ⟨t, hrun, hend⟩ := h.scan (W := W) hle
  have hwords : x.words ≠ [] := by simpa [Spaced.words] using hne
  have hlen : x.words.length = x.length := List.length_map _
  have hstop : t.buf t.i = 0 := hend.left.zero
  have hholds := hend.holds
  rw [← hstop, update_eq_self] at hholds
  have hroom := hend.left.room
  have hset := hrun.settles (by simp at hroom; omega) hstop
  rw [finish, if_pos ⟨hend.prev.trans (if_neg hwords), hend.flag⟩] at hset
  split
  · rename_i hlt
    rwa [execInto_eq hholds (by omega), hend.events] at hset
  · rwa [execInto, argv, argvFrom_full hholds (by omega)] at hset

/-! ### From the input to the words -/

/-- Every line without symbols is words and blanks. -/
theorem exists_spaced {e : List UInt8} (he : ∀ c ∈ e, c ∉ [0, newline, carriage, bar, less, greater]) :
    ∃ (x : Spaced) (k : Nat), e = x.text ++ List.replicate k blank ∧ x.Gaps ∧ ∀ w ∈ x.words, Plain w := by
  induction e with
  | nil => exact ⟨[], 0, rfl, by simp [Spaced.Gaps], by simp [Spaced.words]⟩
  | cons c e ih =>
    obtain ⟨hc, he⟩ := List.forall_mem_cons.mp he
    obtain ⟨x, k, rfl, hgaps, hx⟩ := ih he
    by_cases hb : c = blank
    · subst hb
      cases x with
      | nil => exact ⟨[], k + 1, rfl, hgaps, hx⟩
      | cons y x => exact ⟨(y.1 + 1, y.2) :: x, k, rfl, hgaps, hx⟩
    · have hplain : c ∉ [0, newline, carriage, blank, bar, less, greater] := by
        simp only [List.mem_cons, List.not_mem_nil, or_false, not_or] at hc ⊢
        tauto
      rcases x with _ | ⟨⟨_ | g, w⟩, x⟩
      · exact ⟨[(0, [c])], k, rfl, by simp [Spaced.Gaps], by simpa [Spaced.words, Plain] using hplain⟩
      · obtain ⟨hw, hx⟩ := List.forall_mem_cons.mp hx
        exact ⟨(0, c :: w) :: x, k, rfl, hgaps,
          List.forall_mem_cons.mpr ⟨⟨by simp, List.forall_mem_cons.mpr ⟨hplain, hw.2⟩⟩, hx⟩⟩
      · exact ⟨(0, [c]) :: (g + 1, w) :: x, k, rfl, List.forall_mem_cons.mpr ⟨Nat.succ_pos g, hgaps⟩,
          List.forall_mem_cons.mpr ⟨⟨by simp, by simpa using hplain⟩, hx⟩⟩

theorem mid_initial {e : List UInt8} (he : scanned input = e) :
    Mid (initial (gets BUFSIZE input).1) [] e := by
  obtain ⟨htext, hzero⟩ := initial_scanned input
  rw [he] at htext hzero
  refine ⟨⟨htext, ?_, ?_⟩, fun _ _ => rfl, rfl, rfl, rfl, rfl, rfl⟩
  · rwa [show (initial (gets BUFSIZE input).1).i = 0 from rfl, Nat.zero_add]
  · have hle := length_scanned input
    show 0 + e.length + 1 < BUFSIZE
    rw [← he]
    omega

/-- A word of the input. -/
def Word (w : Str) : Prop := w ≠ [] ∧ ∀ c ∈ w, c ∉ [newline, blank, bar, less, greater]

instance (w : Str) : Decidable (Word w) := inferInstanceAs (Decidable (_ ∧ _))

theorem Spaced.mem_text {c : UInt8} (hc : c ∈ x.text ++ List.replicate k blank) : c = blank ∨ ∃ w ∈ x.words, c ∈ w := by
  rcases List.mem_append.mp hc with hc | hc
  · obtain ⟨y, hy, hc⟩ := List.mem_flatMap.mp hc
    rcases List.mem_append.mp hc with hc | hc
    · exact .inl (List.eq_of_mem_replicate hc)
    · exact .inr ⟨y.2, List.mem_map_of_mem hy, hc⟩
  · exact .inl (List.eq_of_mem_replicate hc)

theorem Spaced.notMem_text {c : UInt8} (hc : c ≠ blank) (hx : ∀ w ∈ x.words, c ∉ w) :
    c ∉ x.text ++ List.replicate k blank := by
  intro h
  rcases Spaced.mem_text h with h | ⟨w, hw, h⟩
  · exact hc h
  · exact hx w hw h

/-- A line without zeroes and carriage returns. -/
theorem ready_line (more : List UInt8) (hgaps : x.Gaps) (hx : ∀ w ∈ x.words, Word w)
    (hlen : (x.text ++ List.replicate k blank).length ≤ 78) (hclean : ∀ w ∈ x.words, 0 ∉ w ∧ carriage ∉ w) :
    Ready (x.text ++ List.replicate k blank ++ newline :: more) x k := by
  have hnl : ∀ w ∈ x.words, newline ∉ w := fun w hw h => (hx w hw).2 _ h (by simp)
  refine ⟨mid_initial (scanned_line ⟨Spaced.notMem_text (by decide) hnl, Spaced.notMem_text (by decide)
    fun w hw => (hclean w hw).2⟩ (Spaced.notMem_text (by decide) fun w hw => (hclean w hw).1)
    (by rw [BUFSIZE]; omega) more), hgaps, fun w hw => ⟨(hx w hw).1, fun c hc => ?_⟩⟩
  have h0 : c ≠ 0 := fun h => (hclean w hw).1 (h ▸ hc)
  have hcr : c ≠ carriage := fun h => (hclean w hw).2 (h ▸ hc)
  have hword := (hx w hw).2 c hc
  simp only [List.mem_cons, List.not_mem_nil, or_false, not_or] at hword ⊢
  tauto

/-- What is scanned of a line is words and blanks too. -/
theorem exists_ready (more : List UInt8) (hx : ∀ w ∈ x.words, Word w) :
    ∃ x' k', Ready (x.text ++ List.replicate k blank ++ newline :: more) x' k' := by
  obtain ⟨x', k', heq, hgaps, hx'⟩ := exists_spaced
    fun c hc => by
      obtain ⟨hmem, h0, hcr⟩ := scanned_clean hc
      simp only [List.mem_cons, List.not_mem_nil, or_false, not_or]
      rcases Spaced.mem_text hmem with rfl | ⟨w, hw, hcw⟩
      · decide
      · have hword := (hx w hw).2 c hcw
        simp only [List.mem_cons, List.not_mem_nil, or_false, not_or] at hword
        tauto
  exact ⟨x', k', mid_initial heq, hgaps, hx'⟩

/-- A line of words becomes one call of `exec`, with these words and a null pointer as the arguments, exactly
    if it ends in a word, has fewer words than `line` has pointers, and no word holds a zero or a carriage
    return. -/
theorem plain_command (W : World) (x : Spaced) (k : Nat) (more : List UInt8) (hne : x ≠ []) (hgaps : x.Gaps)
    (hx : ∀ w ∈ x.words, Word w) (hlen : (x.text ++ List.replicate k blank).length ≤ 78) :
    Settles W (x.text ++ List.replicate k blank ++ newline :: more)
      (.ok [.exec x.words W.stdin, .output none (W.prog x.words W.stdin)]) ↔
    k = 0 ∧ x.length < MAXARG ∧ ∀ w ∈ x.words, 0 ∉ w ∧ carriage ∉ w := by
  have hready := ready_line more hgaps hx hlen
  constructor
  · intro hset
    obtain ⟨x', k', h'⟩ := exists_ready more hx
    -- what nsh has scanned is the line itself, or the words differ
    have hsame : x'.length < MAXARG ∧ x.words = x'.words := by
      by_cases hmany : MAXARG < x'.length
      · cases hset.unique (h'.many hmany)
      by_cases hlost : x' ≠ [] → 0 < k'
      · cases hset.unique (h'.lost (by omega) hlost)
      obtain ⟨hne', hk'⟩ := Classical.not_imp.mp hlost
      obtain rfl : k' = 0 := by omega
      have heq := hset.unique (h'.run (by omega) hne')
      split at heq
      · rename_i hlt
        simp only [Except.ok.injEq, List.cons.injEq, Event.exec.injEq] at heq
        exact ⟨hlt, heq.1.1⟩
      · cases heq
    have hlength : x.length = x'.length := by simpa [Spaced.words] using congrArg List.length hsame.2
    have hclean : ∀ w ∈ x.words, 0 ∉ w ∧ carriage ∉ w := fun w hw => by
      have hw' := h'.words w (hsame.2 ▸ hw)
      exact ⟨hw'.zero, fun hc => hw'.2 _ hc (by simp)⟩
    refine ⟨by_contra fun hk => ?_, by omega, hclean⟩
    cases hset.unique ((hready hclean).lost (by omega) fun _ => Nat.pos_of_ne_zero hk)
  · rintro ⟨rfl, hlt, hclean⟩
    have hrun := (hready hclean).run (W := W) (Nat.le_of_lt hlt) hne
    rwa [if_pos hlt] at hrun

/-- Programs that write nothing. -/
def silent : World := ⟨fun _ _ => [], fun _ => [], []⟩

/-- The line `"  ls   -l"`. -/
theorem plain_command_two : Settles silent ([32, 32, 108, 115, 32, 32, 32, 45, 108] ++ newline :: [])
    (.ok [.exec [[108, 115], [45, 108]] [], .output none []]) :=
  (plain_command silent [(2, [108, 115]), (3, [45, 108])] 0 [] (by decide) (by decide) (by decide +kernel)
    (by decide)).mpr ⟨rfl, by decide, by decide⟩

/-- The line `"ls "`: the command is not run. -/
theorem plain_command_lost : runLine silent 100 ([108, 115, 32] ++ [newline]) = .ok [] := by decide +kernel

end Xv6.Nsh
