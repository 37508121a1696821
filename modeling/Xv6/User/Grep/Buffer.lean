import Xv6.User.Grep.Matcher

/-! The input buffer of grep (`grep.c`).

    ```
    0                       m                    1023
    | start of a line …     | what read returns … |
    | line 0 | line 0 | …   | start of a line …  0 |
                            p
    ```

    The bytes after the last newline are moved to the start of the buffer, and the next `read` goes on
    after them. -/

namespace Xv6.Grep
open Ulib Function

def newline : UInt8 := 10

/-- `sizeof(buf)`. -/
def BUFSIZE : Nat := 1024

/-! ### The loops -/

/-- The inner loop; every round moves `p` on in the buffer. -/
def lineLoop (pattern : Str) : Nat → Nat → Mem → List UInt8 → Nat × Mem × List UInt8
  | 0, p, buf, out => (p, buf, out)
  | fuel + 1, p, buf, out =>
    match strchr buf newline p (BUFSIZE - p) with
    | none => (p, buf, out)
    | some q =>
      let buf := update buf q 0
      if matchRe pattern (str buf p (BUFSIZE - p)) then
        let buf := update buf q newline
        lineLoop pattern fuel (q + 1) buf (out ++ bytes buf p (q + 1 - p))
      else lineLoop pattern fuel (q + 1) buf out

/-- The outer loop, with `input` not read yet and `out` written. Read number `i` returns `chunk i + 1`
    bytes if there are so many of them and they fit. -/
def grepLoop (pattern : Str) (chunk : Nat → Nat) :
    Nat → Nat → Nat → Mem → List UInt8 → List UInt8 → Option (List UInt8)
  | 0, _, _, _, _, _ => none
  | fuel + 1, i, m, buf, input, out =>
    let n := min (chunk i + 1) (min (BUFSIZE - m - 1) input.length)
    if n = 0 then some out
    else
      let buf := store buf m (input.take n)
      let m := m + n
      let buf := update buf m 0
      let (p, buf, out) := lineLoop pattern BUFSIZE 0 buf out
      if 0 < m then grepLoop pattern chunk fuel (i + 1) (m - p) (memmove buf 0 p (m - p)) (input.drop n) out
      else grepLoop pattern chunk fuel (i + 1) m buf (input.drop n) out

/-- What `grep` writes. -/
def grep (pattern : Str) (chunk : Nat → Nat) (fuel : Nat) (buf : Mem) (input : List UInt8) : Option (List UInt8) :=
  grepLoop pattern chunk fuel 0 0 buf input []

/-! ### Lines -/

/-- The lines that end in a newline, without it. -/
def lines (input : List UInt8) : List Str := (input.splitOn newline).dropLast

/-- The lines that match. -/
def selected (pattern : Str) (ls : List Str) : List UInt8 := (ls.filter (matchRe pattern)).flatMap (· ++ [newline])

variable {pattern l t : Str} {ls : List Str} {buf : Mem} {p m fuel : Nat} {input out : List UInt8}

theorem lines_nil (h : newline ∉ t) : lines t = [] := by
  have hp : ∀ x ∈ t, (x == newline) = false := fun x hx => beq_false_of_ne fun he => h (he ▸ hx)
  rw [lines, List.splitOn, List.splitOnP_eq_singleton hp, List.dropLast_singleton]

theorem lines_cons (h : newline ∉ l) (t : List UInt8) : lines (l ++ newline :: t) = l :: lines t := by
  have hp : ∀ x ∈ l, (x == newline) = false := fun x hx => beq_false_of_ne fun he => h (he ▸ hx)
  rw [lines, List.splitOn, List.splitOnP_append_cons_of_forall_mem hp newline (beq_self_eq_true _),
    List.dropLast_cons_of_ne_nil (List.splitOnP_ne_nil _ _)]
  rfl

theorem lines_append (h : ∀ l ∈ ls, newline ∉ l) (t : List UInt8) :
    lines (ls.flatMap (· ++ [newline]) ++ t) = ls ++ lines t := by
  induction ls with
  | nil => rfl
  | cons l ls ih =>
    rw [List.forall_mem_cons] at h
    rw [List.flatMap_cons, List.append_assoc, List.append_assoc, List.singleton_append, lines_cons h.1, ih h.2]
    rfl

theorem selected_append (ls ls' : List Str) :
    selected pattern (ls ++ ls') = selected pattern ls ++ selected pattern ls' := by
  rw [selected, List.filter_append, List.flatMap_append]
  rfl

/-! ### The inner loop -/

/-- A round handles the first line `l` in the buffer, and leaves the bytes after it alone. -/
theorem lineLoop_round (pattern : Str) (fuel : Nat) (out : List UInt8)
    (hs : bytes buf p (l.length + 1) = l ++ [newline]) (h0 : 0 ∉ l) (hnl : newline ∉ l) (hp : p + l.length < BUFSIZE) :
    ∃ buf' : Mem, (∀ a, p + l.length < a → buf' a = buf a) ∧
      lineLoop pattern (fuel + 1) p buf out =
        lineLoop pattern fuel (p + l.length + 1) buf' (out ++ selected pattern [l]) := by
  have hq : strchr buf newline p (BUFSIZE - p) = some (p + l.length) :=
    strchr_some hs (by simpa [h0] using (by decide : (0 : UInt8) ≠ newline)) hnl (by omega)
  have hl : bytes buf p l.length = l := (bytes_append hs).2.1
  have hstr : str (update buf (p + l.length) 0) p (BUFSIZE - p) = l :=
    str_eq (by rwa [bytes_update (by omega)]) h0 (update_self _ _ _) (by omega)
  rw [lineLoop, hq]
  simp only [hstr]
  split
  · rename_i hm
    refine ⟨update (update buf (p + l.length) 0) (p + l.length) newline, fun a ha => ?_, ?_⟩
    · rw [update_of_ne (by omega), update_of_ne (by omega)]
    · have hbytes : bytes (update (update buf (p + l.length) 0) (p + l.length) newline) p (l.length + 1) =
          l ++ [newline] := by
        rw [bytes_add, bytes_update (by omega), bytes_update (by omega), hl, bytes, bytes, update_self]
      rw [show p + l.length + 1 - p = l.length + 1 by omega, hbytes]
      simp [selected, hm]
  · rename_i hm
    refine ⟨update buf (p + l.length) 0, fun a ha => update_of_ne (by omega) _ _, ?_⟩
    simp [selected, hm]

/-- The loop handles the lines `ls` of the string `s` in the buffer, and ends at what is after them. -/
theorem lineLoop_run (pattern : Str) (out : List UInt8) {s : Str} (hs : bytes buf p s.length = s) (h0 : 0 ∉ s)
    (hend : buf (p + s.length) = 0) (hp : p + s.length < BUFSIZE) (hfuel : s.length < fuel) :
    ∃ ls t buf', s = ls.flatMap (· ++ [newline]) ++ t ∧ (∀ l ∈ ls, newline ∉ l) ∧ newline ∉ t ∧
      lineLoop pattern fuel p buf out = (p + (s.length - t.length), buf', out ++ selected pattern ls) ∧
      bytes buf' (p + (s.length - t.length)) t.length = t := by
  induction fuel generalizing s p buf out with
  | zero => omega
  | succ fuel ih =>
    by_cases hnl : newline ∈ s
    · obtain ⟨l, r, rfl, hl⟩ := List.eq_append_cons_of_mem hnl
      rw [List.append_cons] at hs h0
      rw [List.mem_append, not_or] at h0
      simp only [List.length_append, List.length_cons] at hend hp hfuel
      obtain ⟨-, hline, hr⟩ := bytes_append hs
      rw [List.length_append, List.length_singleton] at hline hr
      obtain ⟨buf', hafter, hround⟩ := lineLoop_round pattern fuel out hline
        (fun h => h0.1 (List.mem_append_left _ h)) hl (by omega)
      have hr : bytes buf' (p + l.length + 1) r.length = r := by
        rw [← Nat.add_assoc] at hr
        exact (bytes_congr fun i _ => hafter _ (by omega)).trans hr
      obtain ⟨ls, t, buf'', hr', hls, ht, hrun, hbytes⟩ := ih (out ++ selected pattern [l]) hr h0.2
        (by rw [hafter _ (by omega), ← hend]; congr 1; omega) (by omega) (by omega)
      have hlen : t.length ≤ r.length := by rw [hr', List.length_append]; omega
      have hpos : p + ((l ++ newline :: r).length - t.length) = p + l.length + 1 + (r.length - t.length) := by
        rw [List.length_append, List.length_cons]; omega
      refine ⟨l :: ls, t, buf'', ?_, List.forall_mem_cons.mpr ⟨hl, hls⟩, ht, ?_, ?_⟩
      · rw [hr', List.flatMap_cons]
        simp
      · rw [hround, hrun, hpos, List.append_assoc, ← selected_append, List.singleton_append]
      · rwa [hpos]
    · refine ⟨[], s, buf, rfl, by simp, hnl, ?_, by simpa using hs⟩
      rw [lineLoop, strchr_none hs hnl hend]
      simp [selected]

/-! ### The outer loop -/

/-- The read fills the buffer after the start `t` of a line. -/
theorem bytes_read (ht : bytes buf 0 t.length = t) (xs : List UInt8) :
    bytes (update (store buf t.length xs) (t ++ xs).length 0) 0 (t ++ xs).length = t ++ xs := by
  rw [bytes_update (by omega), List.length_append, bytes_add, Nat.zero_add, bytes_store]
  congr 1
  exact (bytes_congr fun i hi => if_neg (by omega)).trans ht

/-- A full buffer holds the start of a line that no newline ends. -/
theorem lines_of_full (hnl : newline ∉ t) (hshort : ∀ l ∈ lines (t ++ input), l.length ≤ 1022)
    (hstop : BUFSIZE ≤ t.length + 1 ∨ input = []) : lines (t ++ input) = [] := by
  refine lines_nil fun hmem => ?_
  rcases List.mem_append.mp hmem with h | h
  · exact hnl h
  · obtain ⟨a, b, rfl, ha⟩ := List.eq_append_cons_of_mem h
    have hfull : BUFSIZE ≤ t.length + 1 := hstop.resolve_right (by simp)
    have hlong := hshort (t ++ a) (by
      rw [← List.append_assoc, lines_cons (by simp [hnl, ha])]
      exact List.mem_cons_self)
    rw [List.length_append] at hlong
    have : BUFSIZE = 1024 := rfl
    omega

theorem grepLoop_run {chunk : Nat → Nat} {i : Nat} (ht : bytes buf 0 t.length = t) (hnl : newline ∉ t)
    (hlen : t.length < BUFSIZE) (h0 : 0 ∉ t ++ input) (hshort : ∀ l ∈ lines (t ++ input), l.length ≤ 1022)
    (hfuel : input.length < fuel) :
    grepLoop pattern chunk fuel i t.length buf input out = some (out ++ selected pattern (lines (t ++ input))) := by
  induction fuel generalizing t buf input out i with
  | zero => omega
  | succ fuel ih =>
    simp only [grepLoop]
    generalize hn : min (chunk i + 1) (min (BUFSIZE - t.length - 1) input.length) = n
    split
    · rename_i hzero
      have hstop : BUFSIZE ≤ t.length + 1 ∨ input = [] := by
        rw [← List.length_eq_zero_iff]
        omega
      rw [lines_of_full hnl hshort hstop]
      simp [selected]
    · rename_i hpos
      have hchunk : (input.take n).length = n := List.length_take_of_le (by omega)
      have hm : (t ++ input.take n).length = t.length + n := by rw [List.length_append, hchunk]
      have hfull : (t ++ input.take n).length < BUFSIZE := by omega
      have hinput : t ++ input = t ++ input.take n ++ input.drop n := by
        rw [List.append_assoc, List.take_append_drop]
      rw [hinput, List.mem_append, not_or] at h0
      obtain ⟨ls, t', buf', hs, hls, ht', hrun, hbytes⟩ := lineLoop_run pattern out
        (bytes_read ht (input.take n)) h0.1 (by rw [Nat.zero_add, update_self]) (by omega) hfull
      rw [hm] at hrun hbytes
      have hle : t'.length ≤ t.length + n := by rw [← hm, hs, List.length_append]; omega
      have hsplit : lines (t ++ input) = ls ++ lines (t' ++ input.drop n) := by
        rw [hinput, hs, List.append_assoc, lines_append hls]
      rw [hsplit] at hshort
      rw [hrun]
      simp only [Nat.zero_add]
      rw [if_pos (by omega), show t.length + n - (t.length + n - t'.length) = t'.length by omega]
      have hint : t'.length < 2 ^ 31 := by
        have : BUFSIZE = 1024 := rfl
        omega
      rw [ih (by rw [bytes_memmove hint]; rwa [Nat.zero_add] at hbytes) ht' (by omega) ?_
        (fun l hl => hshort l (List.mem_append_right _ hl)) (by rw [List.length_drop]; omega)]
      · rw [hsplit, selected_append, List.append_assoc]
      · rw [List.mem_append, not_or]
        refine ⟨fun h => h0.1 ?_, h0.2⟩
        rw [hs]
        exact List.mem_append_right _ h

/-- However the reads cut the input, the lines that match are written, each of them once and in order. -/
theorem grep_lines (pattern : Str) (chunk : Nat → Nat) (fuel : Nat) (buf : Mem) (input : List UInt8)
    (hnul : 0 ∉ input) (hshort : ∀ l ∈ lines input, l.length ≤ 1022) (hfuel : input.length < fuel) :
    grep pattern chunk fuel buf input = some (((lines input).filter (matchRe pattern)).flatMap (· ++ [newline])) :=
  grepLoop_run rfl List.not_mem_nil (by decide) hnul hshort hfuel

/-- `grep b` reads `"a\nbc\n"` one byte at a time. -/
theorem grep_lines_small : (∀ l ∈ lines [97, 10, 98, 99, 10], l.length ≤ 1022) ∧
    grep [98] (fun _ => 0) 6 (fun _ => 0) [97, 10, 98, 99, 10] = some [98, 99, 10] :=
  ⟨by decide, grep_lines [98] (fun _ => 0) 6 (fun _ => 0) [97, 10, 98, 99, 10] (by decide) (by decide) (by decide)⟩

end Xv6.Grep
