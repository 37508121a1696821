import Xv6.User.Nsh.Scanner

/-! What the scanner of nsh does with words. -/

namespace Xv6.Nsh
open Ulib Function

/-- A word of a command or a file name. -/
def Plain (w : Str) : Prop := w ≠ [] ∧ ∀ c ∈ w, c ∉ [0, newline, carriage, blank, bar, less, greater]

instance (w : Str) : Decidable (Plain w) := inferInstanceAs (Decidable (_ ∧ _))

variable {W : World} {s t u : State} {buf buf' : Mem} {line line' : Nat → Option Nat} {w : Str} {ws : List Str}
  {c : UInt8} {i j k m n ptr : Nat}

theorem Plain.zero (hw : Plain w) : 0 ∉ w := fun h => hw.2 0 h (by simp)

/-! ### Rounds -/

/-- The loop gets from `s` to `t`. -/
def Runs (W : World) (s t : State) : Prop := ∃ k, ∀ fuel, scan W (fuel + k) s = scan W fuel t

theorem Runs.refl (s : State) : Runs W s s := ⟨0, fun _ => rfl⟩

theorem Runs.trans (h : Runs W s t) (h' : Runs W t u) : Runs W s u := by
  obtain ⟨k, hk⟩ := h
  obtain ⟨k', hk'⟩ := h'
  refine ⟨k' + k, fun fuel => ?_⟩
  rw [← Nat.add_assoc, hk, hk']

theorem Runs.round (hi : s.i < BUFSIZE) (hc : s.buf s.i ≠ 0) (h : step W s = .ok t) : Runs W s t := by
  refine ⟨1, fun fuel => ?_⟩
  rw [scan, if_neg (by omega), if_neg hc, h]
  rfl

theorem step_eq (hc : c ∉ [0, newline, carriage, blank, bar, less, greater]) (hs : s.buf s.i = c) :
    step W s = (onChar s).map fun t => { t with i := t.i + 1 } := by
  simp only [List.mem_cons, List.not_mem_nil, or_false, not_or] at hc
  rw [step, hs, if_neg hc.2.2.2.1, if_neg hc.2.1, if_neg hc.2.2.2.2.1, if_neg hc.2.2.2.2.2.1, if_neg hc.2.2.2.2.2.2]
  cases onChar s <;> rfl

theorem step_char (hc : c ∉ [0, newline, carriage, blank, bar, less, greater]) (hs : s.buf s.i = c)
    (h : onChar s = .ok t) : step W s = .ok { t with i := t.i + 1 } := by
  rw [step_eq hc hs, h]
  rfl

theorem step_blank (hs : s.buf s.i = blank) (h : onSpace W s = .ok t) : step W s = .ok { t with i := t.i + 1 } := by
  rw [step, hs, if_pos rfl, h]
  rfl

/-! ### Words -/

/-- The rounds for the characters of a word after the first. -/
theorem runs_chars (hprev : s.prev = .char) (hw : bytes s.buf s.i w.length = w)
    (hplain : ∀ c ∈ w, c ∉ [0, newline, carriage, blank, bar, less, greater]) (hroom : s.i + w.length ≤ BUFSIZE) :
    Runs W s { s with i := s.i + w.length } := by
  induction w generalizing s with
  | nil => exact Runs.refl s
  | cons c w ih =>
    obtain ⟨hc, hw⟩ := List.cons_eq_cons.mp hw
    rw [List.length_cons] at hroom ⊢
    have hplain' := List.forall_mem_cons.mp hplain
    have hround : Runs W s { s with i := s.i + 1 } :=
      .round (by omega) (by rintro h0; rw [h0] at hc; exact hplain'.1 (hc ▸ by simp)) (step_char hplain'.1 hc (if_pos hprev))
    refine hround.trans ?_
    have hrest := ih (s := { s with i := s.i + 1 }) hprev hw hplain'.2 (by show s.i + 1 + w.length ≤ BUFSIZE; omega)
    rwa [show s.i + (w.length + 1) = s.i + 1 + w.length by omega]

/-- The rounds for a word put a pointer to it in `line`. -/
theorem runs_word (hprev : s.prev ≠ .char) (hw : bytes s.buf s.i w.length = w) (hplain : Plain w)
    (hroom : s.i + w.length ≤ BUFSIZE) (hn : s.n < MAXARG) :
    Runs W s { s with line := update s.line s.n (some s.i), n := s.n + 1, prev := .char, i := s.i + w.length } := by
  obtain ⟨c, w, rfl⟩ := List.exists_cons_of_ne_nil hplain.1
  obtain ⟨hc, hw⟩ := List.cons_eq_cons.mp hw
  rw [List.length_cons] at hroom ⊢
  have hplain' := List.forall_mem_cons.mp hplain.2
  have hchar : onChar s = .ok { s with line := update s.line s.n (some s.i), n := s.n + 1, prev := .char } := by
    rw [onChar, if_neg hprev, setLine, if_pos hn]
    rfl
  refine (Runs.round (by omega) ?_ (step_char hplain'.1 hc hchar)).trans ?_
  · intro h0
    rw [h0] at hc
    exact hplain'.1 (hc ▸ by simp)
  · rw [show s.i + (w.length + 1) = s.i + 1 + w.length by omega]
    exact runs_chars rfl hw hplain'.2 (by show s.i + 1 + w.length ≤ BUFSIZE; omega)

/-! ### Arguments -/

/-- The word `w` is at `ptr`, and it ends before `i`. -/
structure Ends (buf : Mem) (i ptr : Nat) (w : Str) : Prop where
  bytes : bytes buf ptr w.length = w
  zero : 0 ∉ w
  stop : buf (ptr + w.length) = 0
  before : ptr + w.length < i
  room : i ≤ BUFSIZE

/-- The pointers from `line[k]` on are to the words `ws`, and a null pointer follows. -/
def Holds (buf : Mem) (line : Nat → Option Nat) (i : Nat) : Nat → List Str → Prop
  | k, [] => ∀ j, k ≤ j → line j = none
  | k, w :: ws => (∃ ptr, line k = some ptr ∧ Ends buf i ptr w) ∧ Holds buf line i (k + 1) ws

theorem Ends.str (h : Ends buf i ptr w) : str buf ptr (BUFSIZE - ptr) = w := by
  have hbefore := h.before
  have hroom := h.room
  exact str_eq h.bytes h.zero h.stop (by omega)

/-- A word does not change with what is written from `i` on. -/
theorem Ends.mono (h : Ends buf i ptr w) (hbuf : ∀ a, a < i → buf' a = buf a) (hi : i ≤ j) (hj : j ≤ BUFSIZE) :
    Ends buf' j ptr w := by
  have hbefore := h.before
  refine ⟨?_, h.zero, ?_, by omega, hj⟩
  · rw [← bytes_congr fun a ha => (hbuf _ (by omega)).symm]
    exact h.bytes
  · rw [hbuf _ h.before, h.stop]

theorem Holds.mono (h : Holds buf line i k ws) (hbuf : ∀ a, a < i → buf' a = buf a) (hi : i ≤ j) (hj : j ≤ BUFSIZE) :
    Holds buf' line j k ws := by
  induction ws generalizing k with
  | nil => exact h
  | cons w ws ih =>
    obtain ⟨⟨ptr, hptr, hends⟩, hrest⟩ := h
    exact ⟨⟨ptr, hptr, hends.mono hbuf hi hj⟩, ih hrest⟩

theorem Holds.push (h : Holds buf line i k ws) (hw : Ends buf i ptr w) :
    Holds buf (update line (k + ws.length) (some ptr)) i k (ws ++ [w]) := by
  induction ws generalizing k with
  | nil => exact ⟨⟨ptr, update_self _ _ _, hw⟩, fun j hj => (update_of_ne (by simp; omega) _ _).trans (h j (by omega))⟩
  | cons x ws ih =>
    obtain ⟨⟨ptr', hptr, hends⟩, hrest⟩ := h
    refine ⟨⟨ptr', (update_of_ne (by simp) _ _).trans hptr, hends⟩, ?_⟩
    rw [List.length_cons, show k + (ws.length + 1) = k + 1 + ws.length by omega]
    exact ih hrest

theorem argvFrom_eq (h : Holds s.buf s.line i k ws) (hm : ws.length < m) : argvFrom s m k = .ok ws := by
  induction ws generalizing k m with
  | nil =>
    obtain ⟨m, rfl⟩ : ∃ m', m = m' + 1 := ⟨m - 1, by omega⟩
    rw [argvFrom, h k (Nat.le_refl k)]
  | cons w ws ih =>
    rw [List.length_cons] at hm
    obtain ⟨m, rfl⟩ : ∃ m', m = m' + 1 := ⟨m - 1, by omega⟩
    obtain ⟨⟨ptr, hptr, hends⟩, hrest⟩ := h
    rw [argvFrom, hptr]
    simp only
    rw [ih hrest (by omega), hends.str]
    rfl

theorem execInto_eq (h : Holds s.buf s.line i 0 ws) (hm : ws.length < MAXARG) (input : List UInt8) :
    execInto W input s = .ok { s with p := W.prog ws input, events := s.events ++ [.exec ws input] } := by
  rw [execInto, argv, argvFrom_eq h hm]
  rfl

/-- A full `line` has no null pointer at its end. -/
theorem argvFrom_full (h : Holds s.buf s.line i k ws) (hm : m ≤ ws.length) : argvFrom s m k = .error "line" := by
  induction ws generalizing k m with
  | nil =>
    obtain rfl : m = 0 := Nat.le_zero.mp hm
    rfl
  | cons w ws ih =>
    cases m with
    | zero => rfl
    | succ m =>
      obtain ⟨⟨ptr, hptr, -⟩, hrest⟩ := h
      rw [List.length_cons] at hm
      rw [argvFrom, hptr]
      rw [ih hrest (by omega)]
      rfl

/-! ### The start and the end of a line -/

/-- With enough fuel `r` is what comes of the first line of `input`. -/
def Settles (W : World) (input : List UInt8) (r : Except String (List Event)) : Prop :=
  ∃ k, ∀ fuel, k ≤ fuel → runLine W fuel input = r

variable {input : List UInt8} {r r' : Except String (List Event)} {msg : String}

theorem Settles.unique (h : Settles W input r) (h' : Settles W input r') : r = r' := by
  obtain ⟨k, hk⟩ := h
  obtain ⟨k', hk'⟩ := h'
  exact (hk _ (Nat.le_max_left k k')).symm.trans (hk' _ (Nat.le_max_right k k'))

theorem Runs.settles (hrun : Runs W (initial (gets BUFSIZE input).1) s) (hi : s.i < BUFSIZE) (hstop : s.buf s.i = 0) :
    Settles W input ((finish W s).map State.events) := by
  obtain ⟨k, hk⟩ := hrun
  refine ⟨k + 1, fun fuel hfuel => ?_⟩
  obtain ⟨d, rfl⟩ : ∃ d, fuel = d + 1 + k := ⟨fuel - (k + 1), by omega⟩
  rw [runLine, hk, scan, if_neg (by omega), if_pos hstop]
  show finish W s >>= _ = _
  cases finish W s <;> rfl

theorem Runs.fails (hrun : Runs W (initial (gets BUFSIZE input).1) s) (hi : s.i < BUFSIZE) (hc : s.buf s.i ≠ 0)
    (hstep : step W s = .error msg) : Settles W input (.error msg) := by
  obtain ⟨k, hk⟩ := hrun
  refine ⟨k + 1, fun fuel hfuel => ?_⟩
  obtain ⟨d, rfl⟩ : ∃ d, fuel = d + 1 + k := ⟨fuel - (k + 1), by omega⟩
  rw [runLine, hk, scan, if_neg (by omega), if_neg hc, hstep]
  rfl

theorem getsLoop_line {l : List UInt8} {n : Nat} (hl : newline ∉ l ∧ carriage ∉ l) (hn : l.length < n) (more : List UInt8) :
    (getsLoop n (l ++ newline :: more)).1 = l ++ [newline] := by
  induction l generalizing n with
  | nil =>
    obtain ⟨n, rfl⟩ : ∃ k, n = k + 1 := ⟨n - 1, by omega⟩
    rw [List.nil_append, getsLoop, if_pos (.inl rfl)]
    rfl
  | cons c l ih =>
    rw [List.length_cons] at hn
    obtain ⟨n, rfl⟩ : ∃ k, n = k + 1 := ⟨n - 1, by omega⟩
    rw [List.mem_cons, List.mem_cons, not_or, not_or] at hl
    rw [List.cons_append, getsLoop, if_neg (by
      rintro (h | h)
      · exact hl.1.1 h.symm
      · exact hl.2.1 h.symm)]
    rw [ih ⟨hl.1.2, hl.2.2⟩ (by omega)]
    rfl

/-- `gets` stops at the first newline or carriage return. -/
theorem getsLoop_dropLast (n : Nat) (input : List UInt8) :
    ∀ c ∈ (getsLoop n input).1.dropLast, c ≠ newline ∧ c ≠ carriage := by
  fun_induction getsLoop n input with
  | case1 | case2 => simp
  | case3 => simp
  | case4 n c input h ih =>
    rw [not_or] at h
    intro d hd
    cases hrest : (getsLoop n input).1 with
    | nil => simp [hrest] at hd
    | cons e es =>
      rw [hrest, List.dropLast_cons_cons, List.mem_cons] at hd
      rcases hd with rfl | hd
      · exact h
      · exact ih d (hrest ▸ hd)

theorem mem_dropLast_mono {l l' : List UInt8} (h : l <+: l') (hc : c ∈ l.dropLast) : c ∈ l'.dropLast := by
  obtain ⟨r, rfl⟩ := h
  by_cases hr : r = []
  · rwa [hr, List.append_nil]
  · rw [List.dropLast_append_of_ne_nil hr, List.mem_append]
    exact .inl (List.dropLast_subset _ hc)

/-- What the scanner looks at: the line up to its first zero, without the last character. -/
def scanned (input : List UInt8) : List UInt8 := (cstring (gets BUFSIZE input).1).dropLast

theorem length_getsLoop (n : Nat) (input : List UInt8) : (getsLoop n input).1.length ≤ n := by
  fun_induction getsLoop n input with
  | case1 | case2 => simp
  | case3 => simp
  | case4 n c input h ih => exact Nat.succ_le_succ ih

theorem length_scanned (input : List UInt8) : (scanned input).length + 1 < BUFSIZE := by
  have hgets := length_getsLoop (BUFSIZE - 1) input
  have hstr := (List.takeWhile_prefix (· ≠ 0) (l := (getsLoop (BUFSIZE - 1) input).1)).length_le
  rw [scanned, List.length_dropLast, cstring, gets]
  rw [BUFSIZE] at hgets hstr ⊢
  omega

/-- It is in the buffer, and a zero follows. -/
theorem initial_scanned (input : List UInt8) :
    bytes (initial (gets BUFSIZE input).1).buf 0 (scanned input).length = scanned input ∧
    (initial (gets BUFSIZE input).1).buf (scanned input).length = 0 := by
  have hlen : (cstring (gets BUFSIZE input).1).length - 1 = (scanned input).length := by
    rw [scanned, List.length_dropLast]
  obtain ⟨rest, hrest⟩ : scanned input <+: (gets BUFSIZE input).1 :=
    (List.dropLast_prefix _).trans (List.takeWhile_prefix _)
  have hstore := bytes_store (fun _ => 0) 0 (gets BUFSIZE input).1
  constructor
  · show bytes (update (store _ 0 _) ((cstring _).length - 1) 0) 0 _ = _
    rw [hlen, bytes_update (by omega)]
    exact (bytes_append (hstore.trans hrest.symm)).2.1
  · show update (store _ 0 _) ((cstring _).length - 1) 0 _ = 0
    rw [hlen, update_self]

/-- A line without zeroes and carriage returns is scanned as it is. -/
theorem scanned_line {l : List UInt8} (hl : newline ∉ l ∧ carriage ∉ l) (h0 : 0 ∉ l) (hlen : l.length + 1 < BUFSIZE)
    (more : List UInt8) : scanned (l ++ newline :: more) = l := by
  rw [scanned, gets, getsLoop_line hl (Nat.lt_sub_of_add_lt hlen), cstring_eq, List.dropLast_concat]
  rw [List.mem_append, not_or]
  exact ⟨h0, by decide⟩

/-- There is no zero and no carriage return in what is scanned, and nothing of a later line. -/
theorem scanned_clean {l more : List UInt8} (hc : c ∈ scanned (l ++ newline :: more)) :
    c ∈ l ∧ c ≠ 0 ∧ c ≠ carriage := by
  have hgets := getsLoop_append (BUFSIZE - 1) (l ++ newline :: more)
  have hstr : cstring (gets BUFSIZE (l ++ newline :: more)).1 <+: (gets BUFSIZE (l ++ newline :: more)).1 :=
    List.takeWhile_prefix _
  have hdrop : ∀ d ∈ scanned (l ++ newline :: more), d ≠ newline ∧ d ≠ carriage := fun d hd =>
    getsLoop_dropLast _ _ d (mem_dropLast_mono hstr hd)
  have hpre : scanned (l ++ newline :: more) <+: l ++ newline :: more :=
    ((List.dropLast_prefix _).trans hstr).trans ⟨_, hgets⟩
  refine ⟨?_, ?_, (hdrop c hc).2⟩
  · have hpre' : scanned (l ++ newline :: more) <+: l := by
      refine List.prefix_of_prefix_length_le hpre (List.prefix_append _ _) (not_lt.mp fun hlt => ?_)
      have hat : (scanned (l ++ newline :: more))[l.length] = newline := by
        rw [hpre.getElem hlt, List.getElem_append_right (Nat.le_refl _)]
        simp
      exact (hdrop _ (List.getElem_mem hlt)).1 hat
    exact hpre'.subset hc
  · have := List.mem_takeWhile_imp (List.dropLast_subset _ hc)
    simpa using this

end Xv6.Nsh
