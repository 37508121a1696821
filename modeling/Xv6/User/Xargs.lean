import Mathlib.Data.List.Induction
import Mathlib.Data.List.Nodup
import Xv6.User.Ulib

/-! The arguments that xargs passes to `exec` (`xargs.c`, the loop of `sys_exec`).

    ```
            init          words of the line
    args  | p₀ | … | pₖ | q₀ | q₁ | … | qₘ | ? | …
                     ▲    └── freed when the child has exited ──┘
                    orig
    ```

    The array is reused for each line, and nothing sets the pointer after the last word to zero. It is what
    the array held at the start, or a pointer to a freed string of a longer line. -/

namespace Xv6.Xargs
open Ulib Function

def MAXARG : Nat := 32
def MAXSTR : Nat := 64

/-- `sizeof buf`. -/
def BUFSIZE : Nat := 512

/-- `' '` and `'\n'`. -/
def blank : UInt8 := 32
def newline : UInt8 := 10

/-- The blocks in use, each with its string. -/
abbrev Heap : Type := List (Nat × Str)

/-- What xargs runs in: `malloc` returns a block that is not in use, and `execs` says for which arguments
    `exec` does not return. An argument is `none` where its pointer is not to a block in use. -/
structure Env where
  malloc : Heap → Nat
  fresh : ∀ h, malloc h ∉ h.map Prod.fst
  execs : List (Option Str) → Bool

/-- The variables of `main`; `bufPtr` is relative to `buf`. -/
structure State where
  buf : Mem
  bufPtr : Nat
  args : Nat → Option Nat
  n : Nat
  heap : Heap

/-- The arguments of a call of `exec`, or `none` where there are too many of them. -/
abbrev Event : Type := Option (List (Option Str))

/-- The loop of `sys_exec` from `argv[k]` on, with `m` pointers left in its array. -/
def fetchFrom (s : State) : Nat → Nat → Event
  | 0, _ => none
  | m + 1, k =>
    match s.args k with
    | none => some []
    | some p => (fetchFrom s m (k + 1)).map (s.heap.lookup p :: ·)

def fetch (s : State) : Event := fetchFrom s MAXARG 0

variable (E : Env)

/-- `argsPtr[n] = malloc(MAXSTR); strcpy(argsPtr[n], w); n++;` -/
def addArg (s : State) (w : Str) : Except String State :=
  if MAXARG ≤ s.n then .error "args"
  else if MAXSTR ≤ w.length then .error "strcpy"
  else
    let p := E.malloc s.heap
    .ok { s with args := update s.args s.n (some p), heap := (p, w) :: s.heap, n := s.n + 1 }

/-- The end of an argument: the string in `buf` becomes one. -/
def endArg (s : State) : Except String State :=
  if BUFSIZE ≤ s.bufPtr then .error "buf"
  else
    let buf := update s.buf s.bufPtr 0
    addArg E { s with buf := buf } (str buf 0 BUFSIZE)

/-- `while (--n >= orig) free(argsPtr[n]);`, with `m` strings to free. -/
def freeArgs : Nat → State → Except String State
  | 0, s => .ok s
  | m + 1, s =>
    match s.args (s.n - 1) with
    | none => .error "null pointer"
    | some p =>
      if (s.heap.lookup p).isSome then
        freeArgs m { s with n := s.n - 1, heap := s.heap.filter (·.1 ≠ p) }
      else .error "free"

/-- After `exec` the parent frees the words; where `exec` returns, the child goes on with the input. -/
def afterExec (orig : Nat) (s : State) : Except String State :=
  if (fetch s).any E.execs then do
    let s ← freeArgs (s.n - orig) s
    return { s with bufPtr := 0 }
  else .ok s

/-- The loop over the input; the original arguments are freed at its end. -/
def loop (orig : Nat) : List UInt8 → State → Except String (List Event)
  | [], s => do
    let _ ← freeArgs orig { s with n := orig }
    return []
  | c :: cs, s =>
    if c = newline then do
      let s ← endArg E s
      let t ← afterExec E orig s
      let es ← loop orig cs t
      return fetch s :: es
    else if c = blank then do
      let s ← endArg E s
      loop orig cs { s with bufPtr := 0 }
    else if s.bufPtr < BUFSIZE then
      loop orig cs { s with buf := update s.buf s.bufPtr c, bufPtr := s.bufPtr + 1 }
    else .error "buf"

/-- `main` with the initial arguments `init`; `args` and `buf` are what the arrays hold at the start. -/
def main (init : List Str) (args : Nat → Option Nat) (buf : Mem) (input : List UInt8) : Except String (List Event) := do
  let s ← init.foldlM (addArg E) ⟨buf, 0, args, 0, []⟩
  loop E init.length input s

variable {E} {s t : State} {ps qs : List Nat} {vs us : List Str} {w : Str} {orig hi m p : Nat} {a₀ : Nat → Option Nat}

/-! ### Arguments -/

/-- The strings `vs` are the arguments; the pointers to them are `ps`. All pointers below `hi` have been set; from
    there on the array is what it was at the start. -/
structure Args (a₀ : Nat → Option Nat) (s : State) (ps : List Nat) (vs : List Str) (hi : Nat) : Prop where
  n : s.n = ps.length
  ptr : ∀ j (hj : j < ps.length), s.args j = some ps[j]
  live : ps.map (s.heap.lookup ·) = vs.map some
  nodup : ps.Nodup
  used : ∀ j, j < hi → s.args j ≠ none
  rest : ∀ j, hi ≤ j → s.args j = a₀ j

theorem mem_keys {h : Heap} (hp : h.lookup p = some w) : p ∈ h.map Prod.fst := by
  induction h with
  | nil => cases hp
  | cons x h ih =>
    rw [List.lookup_cons] at hp
    rw [List.map_cons, List.mem_cons]
    split at hp
    · rename_i heq
      exact .inl (beq_iff_eq.mp heq)
    · exact .inr (ih hp)

theorem lookup_filter {h : Heap} {q : Nat} (hq : q ≠ p) : (h.filter (·.1 ≠ p)).lookup q = h.lookup q := by
  induction h with
  | nil => rfl
  | cons x h ih =>
    by_cases hx : x.1 = p
    · rw [List.filter_cons_of_neg (by simpa using hx), ih, List.lookup_cons, hx, beq_false_of_ne hq]
    · rw [List.filter_cons_of_pos (by simpa using hx), List.lookup_cons, List.lookup_cons, ih]

theorem Args.length (h : Args a₀ s ps vs hi) : ps.length = vs.length := by
  simpa using congrArg List.length h.live

theorem Args.mem_keys (h : Args a₀ s ps vs hi) (hp : p ∈ ps) : p ∈ s.heap.map Prod.fst := by
  have hmem : s.heap.lookup p ∈ vs.map some := h.live ▸ List.mem_map_of_mem hp
  obtain ⟨v, -, hv⟩ := List.mem_map.mp hmem
  exact Xargs.mem_keys hv.symm

/-- A new argument is in a block of its own. -/
theorem Args.add (h : Args a₀ s ps vs hi) (hn : vs.length < MAXARG) (hw : w.length < MAXSTR) :
    ∃ t, addArg E s w = .ok t ∧ Args a₀ t (ps ++ [E.malloc s.heap]) (vs ++ [w]) (max hi (vs.length + 1)) ∧
      t.buf = s.buf ∧ t.bufPtr = s.bufPtr := by
  have hlen := h.length
  have hnew : E.malloc s.heap ∉ ps := fun hp => E.fresh s.heap (h.mem_keys hp)
  have hargs : s.n = vs.length := h.n.trans hlen
  refine ⟨{ s with args := update s.args s.n (some (E.malloc s.heap)), heap := (E.malloc s.heap, w) :: s.heap, n := s.n + 1 },
    by rw [addArg, if_neg (by omega), if_neg (by omega)], ⟨?_, fun j hj => ?_, ?_, ?_, fun j hj => ?_, fun j hj => ?_⟩, rfl, rfl⟩
  · simp [h.n]
  · rw [List.length_append, List.length_singleton] at hj
    show update s.args s.n _ j = _
    rcases Nat.lt_succ_iff_lt_or_eq.mp hj with hlt | rfl
    · rw [update_of_ne (by rw [h.n]; omega), h.ptr j hlt, List.getElem_append_left hlt]
    · rw [h.n, update_self, List.getElem_concat_length rfl]
  · rw [List.map_append, List.map_append, ← h.live, List.map_singleton, List.lookup_cons_self]
    refine congrArg (· ++ [some w]) (List.map_congr_left fun q hq => ?_)
    rw [List.lookup_cons, beq_false_of_ne]
    rintro rfl
    exact hnew hq
  · exact List.nodup_append.mpr ⟨h.nodup, List.nodup_singleton _, fun q hq r hr => by
      rw [List.mem_singleton.mp hr]
      rintro rfl
      exact hnew hq⟩
  · show update s.args s.n _ j ≠ none
    by_cases hjn : j = s.n
    · simp [hjn]
    · rw [update_of_ne hjn]
      by_cases hjh : j < hi
      · exact h.used j hjh
      · simp [h.ptr j (by omega)]
  · show update s.args s.n _ j = _
    rw [update_of_ne (by omega), h.rest j (by omega)]

/-- The last argument is freed. -/
theorem Args.pop (h : Args a₀ s (ps ++ [p]) (vs ++ [w]) hi) :
    (s.heap.lookup p).isSome ∧ s.args (s.n - 1) = some p ∧
      Args a₀ { s with n := s.n - 1, heap := s.heap.filter (·.1 ≠ p) } ps vs hi := by
  have hn := h.n
  rw [List.length_append, List.length_singleton] at hn
  have hlive := h.live
  rw [List.map_append, List.map_append] at hlive
  have hlen := h.length
  simp only [List.length_append, List.length_singleton] at hlen
  obtain ⟨hps, hp⟩ := List.append_inj hlive (by simp; omega)
  have hp : s.heap.lookup p = some w := (List.cons_eq_cons.mp hp).1
  have hnot : p ∉ ps := fun hp' => (List.nodup_append.mp h.nodup).2.2 p hp' p (List.mem_singleton_self p) rfl
  refine ⟨?_, ?_, ⟨?_, fun j hj => ?_, ?_, (List.nodup_append.mp h.nodup).1, h.used, h.rest⟩⟩
  · rw [hp]
    rfl
  · rw [hn, Nat.add_sub_cancel, h.ptr ps.length (by simp), List.getElem_concat_length rfl]
  · exact Nat.sub_eq_of_eq_add hn
  · rw [h.ptr j (by simp; omega), List.getElem_append_left hj]
  · rw [← hps]
    exact List.map_congr_left fun q hq => lookup_filter fun h => hnot (h ▸ hq)

/-- The arguments after the first ones are freed. -/
theorem Args.free (h : Args a₀ s (ps ++ qs) (vs ++ us) hi) (hlen : qs.length = us.length) :
    ∃ t, freeArgs qs.length s = .ok t ∧ Args a₀ t ps vs hi ∧ t.buf = s.buf ∧ t.bufPtr = s.bufPtr := by
  induction qs using List.reverseRecOn generalizing s us with
  | nil =>
    obtain rfl := List.length_eq_zero_iff.mp hlen.symm
    rw [List.append_nil, List.append_nil] at h
    exact ⟨s, rfl, h, rfl, rfl⟩
  | append_singleton qs q ih =>
    obtain ⟨us, u, rfl⟩ : ∃ us' u, us = us' ++ [u] := by
      rcases List.eq_nil_or_concat us with rfl | ⟨us', u, rfl⟩
      · simp at hlen
      · exact ⟨us', u, List.concat_eq_append⟩
    rw [← List.append_assoc, ← List.append_assoc] at h
    obtain ⟨hsome, hptr, hpop⟩ := h.pop
    obtain ⟨t, ht, hargs, hbuf⟩ := ih hpop (by simpa using hlen)
    refine ⟨t, ?_, hargs, hbuf⟩
    rw [List.length_append, List.length_singleton, freeArgs, hptr]
    simp only [hsome, if_true]
    exact ht

/-- The loop of `sys_exec` over pointers that have been set. -/
theorem length_fetchFrom {k : Nat} {l : List (Option Str)} (hset : ∀ j, j < hi → s.args j ≠ none)
    (hl : fetchFrom s m k = some l) (hk : k ≤ hi) : hi ≤ k + l.length := by
  induction m generalizing k l with
  | zero => cases hl
  | succ m ih =>
    rw [fetchFrom] at hl
    rcases Nat.lt_or_eq_of_le hk with hlt | rfl
    · obtain ⟨p, hp⟩ := Option.ne_none_iff_exists'.mp (hset k hlt)
      rw [hp] at hl
      obtain ⟨l', hl', rfl⟩ := Option.map_eq_some_iff.mp hl
      have := ih hl' hlt
      rw [List.length_cons]
      omega
    · exact Nat.le_add_right _ _

/-- `exec` gets the strings of the arguments exactly where a null pointer follows. -/
theorem Args.fetch (h : Args a₀ s ps vs hi) (hn : vs.length < MAXARG) :
    fetch s = some (vs.map some) ↔ s.args vs.length = none := by
  have hlen := h.length
  constructor
  · intro hfetch
    by_contra hne
    have hset : ∀ j, j < vs.length + 1 → s.args j ≠ none := fun j hj => by
      rcases Nat.lt_succ_iff_lt_or_eq.mp hj with hlt | rfl
      · simp [h.ptr j (by omega)]
      · exact hne
    have := length_fetchFrom hset hfetch (Nat.zero_le _)
    rw [List.length_map] at this
    omega
  · intro hnull
    have hfrom : ∀ m k, k + m = MAXARG → k ≤ ps.length →
        fetchFrom s m k = some ((ps.drop k).map (s.heap.lookup ·)) := by
      intro m
      induction m with
      | zero =>
        intro k hk hle
        omega
      | succ m ih =>
        intro k hk hle
        rw [fetchFrom]
        rcases Nat.lt_or_eq_of_le hle with hlt | rfl
        · simp only [h.ptr k hlt]
          rw [ih (k + 1) (by omega) hlt, List.drop_eq_getElem_cons hlt]
          rfl
        · simp only [hlen, hnull]
          rw [← hlen, List.drop_length]
          rfl
    rw [Xargs.fetch, hfrom MAXARG 0 (Nat.zero_add _) (Nat.zero_le _), List.drop_zero, h.live]

theorem Args.congr (h : Args a₀ s ps vs hi) (hn : t.n = s.n) (hargs : t.args = s.args) (hheap : t.heap = s.heap) :
    Args a₀ t ps vs hi :=
  ⟨hn.trans h.n, hargs ▸ h.ptr, hheap ▸ h.live, h.nodup, hargs ▸ h.used, hargs ▸ h.rest⟩

/-- The first arguments. -/
theorem Args.front (h : Args a₀ s (ps ++ qs) (vs ++ us) hi) (hlen : qs.length = us.length) :
    Args a₀ { s with n := ps.length } ps vs hi := by
  have hlive := h.live
  rw [List.map_append, List.map_append] at hlive
  refine ⟨rfl, fun j hj => ?_, (List.append_inj' hlive (by simpa using hlen)).1, (List.nodup_append.mp h.nodup).1, h.used, h.rest⟩
  have := h.ptr j (by simp; omega)
  rwa [List.getElem_append_left hj] at this

/-! ### Words -/

/-- A word that fits in its block. -/
def Word (w : Str) : Prop := w.length < MAXSTR ∧ ∀ c ∈ w, c ≠ 0 ∧ c ≠ blank ∧ c ≠ newline

instance (w : Str) : Decidable (Word w) := inferInstanceAs (Decidable (_ ∧ _))

variable {u : Str} {ws : List Str}

/-- The characters of a word are appended to the buffer. -/
theorem loop_chars (orig : Nat) (rest : List UInt8) (hw : ∀ c ∈ w, c ≠ 0 ∧ c ≠ blank ∧ c ≠ newline)
    (hu : bytes s.buf 0 s.bufPtr = u)
    (hroom : s.bufPtr + w.length ≤ BUFSIZE) :
    ∃ buf, loop E orig (w ++ rest) s = loop E orig rest { s with buf := buf, bufPtr := s.bufPtr + w.length } ∧
      bytes buf 0 (s.bufPtr + w.length) = u ++ w := by
  induction w generalizing s u with
  | nil => exact ⟨s.buf, rfl, by rw [List.append_nil]; exact hu⟩
  | cons c w ih =>
    have hw := List.forall_mem_cons.mp hw
    rw [List.length_cons] at hroom ⊢
    have hstep : bytes (update s.buf s.bufPtr c) 0 (s.bufPtr + 1) = u ++ [c] := by
      rw [bytes_add, bytes_update (by omega), hu, Nat.zero_add]
      simp [bytes]
    obtain ⟨buf, hloop, hbytes⟩ := ih (s := { s with buf := update s.buf s.bufPtr c, bufPtr := s.bufPtr + 1 }) hw.2 hstep
      (by show s.bufPtr + 1 + w.length ≤ _; omega)
    rw [List.append_assoc] at hbytes
    refine ⟨buf, ?_, by rw [Nat.add_comm w.length, ← Nat.add_assoc]; exact hbytes⟩
    rw [List.cons_append, loop, if_neg hw.1.2.2, if_neg hw.1.2.1, if_pos (by omega), hloop, Nat.add_comm w.length,
      ← Nat.add_assoc]

/-- The string in the buffer becomes an argument. -/
theorem Args.endArg (h : Args a₀ s ps vs hi) (hbuf : bytes s.buf 0 s.bufPtr = w) (hw : Word w) (hn : vs.length < MAXARG) :
    ∃ t p, endArg E s = .ok t ∧ Args a₀ t (ps ++ [p]) (vs ++ [w]) (max hi (vs.length + 1)) := by
  have hptr : s.bufPtr = w.length := by rw [← hbuf, length_bytes]
  have hlen : w.length < BUFSIZE := Nat.lt_trans hw.1 (by decide)
  have hstr : str (update s.buf s.bufPtr 0) 0 BUFSIZE = w := by
    refine str_eq ?_ (fun h0 => (hw.2 0 h0).1 rfl) ?_ hlen
    · rw [bytes_update (by omega), ← hptr, hbuf]
    · rw [hptr, Nat.zero_add, update_self]
  obtain ⟨t, ht, hargs, -⟩ := (h.congr (t := { s with buf := update s.buf s.bufPtr 0 }) rfl rfl rfl).add (E := E) hn hw.1
  refine ⟨t, _, ?_, hargs⟩
  rw [Xargs.endArg, if_neg (by omega)]
  show addArg E _ (str _ 0 BUFSIZE) = _
  rw [hstr, ht]

/-- The words of a line up to the call of `exec`. -/
theorem loop_words (orig : Nat) (rest : List UInt8) (h : Args a₀ s ps vs hi) (hptr : s.bufPtr = 0) (hne : ws ≠ [])
    (hws : ∀ w ∈ ws, Word w)
    (hn : vs.length + ws.length < MAXARG) :
    ∃ t qs, qs.length = ws.length ∧ Args a₀ t (ps ++ qs) (vs ++ ws) (max hi (vs.length + ws.length)) ∧
      loop E orig ([blank].intercalate ws ++ newline :: rest) s = (do
        let t' ← afterExec E orig t
        let es ← loop E orig rest t'
        return fetch t :: es) := by
  induction ws generalizing s ps vs hi with
  | nil => exact absurd rfl hne
  | cons w ws ih =>
    have hws := List.forall_mem_cons.mp hws
    rw [List.length_cons] at hn
    have hempty : bytes s.buf 0 s.bufPtr = [] := by rw [hptr]; rfl
    have hfits : s.bufPtr + w.length ≤ BUFSIZE := by
      have := hws.1.1
      rw [hptr]
      unfold MAXSTR at this
      unfold BUFSIZE
      omega
    cases ws with
    | nil =>
      obtain ⟨buf, hloop, hbytes⟩ := loop_chars orig (newline :: rest) hws.1.2 hempty hfits
      obtain ⟨t, p, ht, hargs⟩ := (h.congr (t := { s with buf := buf, bufPtr := s.bufPtr + w.length }) rfl rfl rfl).endArg
        (E := E) hbytes hws.1 (by omega)
      refine ⟨t, [p], rfl, hargs, ?_⟩
      rw [show [blank].intercalate [w] = w by simp [List.intercalate], hloop, loop, if_pos rfl, ht]
      rfl
    | cons w' ws =>
      obtain ⟨buf, hloop, hbytes⟩ := loop_chars orig
        (blank :: ([blank].intercalate (w' :: ws) ++ newline :: rest)) hws.1.2 hempty hfits
      obtain ⟨t, p, ht, hargs⟩ := (h.congr (t := { s with buf := buf, bufPtr := s.bufPtr + w.length }) rfl rfl rfl).endArg
        (E := E) hbytes hws.1 (by omega)
      obtain ⟨u, qs, hqs, hargs', hloop'⟩ := ih (hargs.congr (t := { t with bufPtr := 0 }) rfl rfl rfl) rfl
        (List.cons_ne_nil _ _) hws.2 (by rw [List.length_append, List.length_singleton]; omega)
      rw [List.append_assoc, List.append_assoc] at hargs'
      have hmax : max (max hi (vs.length + 1)) ((vs ++ [w]).length + (w' :: ws).length) =
          max hi (vs.length + (w :: w' :: ws).length) := by
        simp only [List.length_append, List.length_cons, List.length_nil]
        omega
      refine ⟨u, p :: qs, congrArg (· + 1) hqs, hmax ▸ hargs', ?_⟩
      · rw [show [blank].intercalate (w :: w' :: ws) = w ++ blank :: [blank].intercalate (w' :: ws) by
          simp [List.intercalate], List.append_assoc, List.cons_append, hloop, loop, if_neg (by decide), if_pos rfl, ht]
        exact hloop'

/-! ### Lines -/

/-- The input with these words in its lines. -/
def text (lines : List (List Str)) : List UInt8 := lines.flatMap fun ws => [blank].intercalate ws ++ [newline]

theorem bind_eq_ok {α β : Type} {x : Except String α} {f : α → Except String β} {b : β} (h : (x >>= f) = .ok b) :
    ∃ a, x = .ok a ∧ f a = .ok b := by
  cases x with
  | error => cases h
  | ok a => exact ⟨a, rfl, h⟩

/-- All the pointers to arguments have been set. -/
def Set (s : State) : Prop := ∀ j, j < s.n → s.args j ≠ none

theorem Set.endArg (h : Set s) (ht : endArg E s = .ok t) : t.n = s.n + 1 ∧ Set t := by
  unfold Xargs.endArg addArg at ht
  simp only at ht
  split at ht
  · cases ht
  split at ht
  · cases ht
  split at ht
  · cases ht
  obtain rfl := Except.ok.inj ht
  refine ⟨rfl, fun j hj => ?_⟩
  show update s.args s.n _ j ≠ none
  by_cases hjn : j = s.n
  · simp [hjn]
  · rw [update_of_ne hjn]
    exact h j (by simp only at hj; omega)

/-- An argument for each blank, and one for the newline. -/
theorem loop_count {cs : List UInt8} {e : Event} {es : List Event} (hset : Set s)
    (h : loop E orig cs s = .ok (e :: es)) :
    ∃ t, e = fetch t ∧ Set t ∧ s.n + (cs.takeWhile (· ≠ newline)).count blank + 1 ≤ t.n := by
  induction cs generalizing s with
  | nil =>
    obtain ⟨-, -, h⟩ := bind_eq_ok h
    cases h
  | cons c cs ih =>
    rw [loop] at h
    split at h
    · rename_i hc
      obtain ⟨t, hs, h⟩ := bind_eq_ok h
      obtain ⟨u, -, h⟩ := bind_eq_ok h
      obtain ⟨l, -, h⟩ := bind_eq_ok h
      obtain ⟨hn, ht⟩ := hset.endArg hs
      exact ⟨t, (List.cons.inj (Except.ok.inj h)).1.symm, ht, by simp [hc, hn]⟩
    · rename_i hc
      rw [List.takeWhile_cons_of_pos (by simpa using hc)]
      split at h
      · rename_i hb
        obtain ⟨t, hs, h⟩ := bind_eq_ok h
        obtain ⟨hn, ht⟩ := hset.endArg hs
        obtain ⟨u, hu, hset', hcount⟩ := ih (s := { t with bufPtr := 0 }) ht h
        refine ⟨u, hu, hset', ?_⟩
        rw [hb, List.count_cons_self]
        simp only at hcount
        omega
      · rename_i hb
        split at h
        · rw [List.count_cons_of_ne hb]
          exact ih (s := { s with buf := update s.buf s.bufPtr c, bufPtr := s.bufPtr + 1 }) hset h
        · cases h

theorem takeWhile_line (hws : ∀ w ∈ ws, Word w) (hne : ws ≠ []) (rest : List UInt8) :
    ((([blank].intercalate ws) ++ newline :: rest).takeWhile (· ≠ newline)).count blank + 1 = ws.length := by
  have hword : ∀ w, Word w → ∀ l : List UInt8, ((w ++ l).takeWhile (· ≠ newline)).count blank =
      (l.takeWhile (· ≠ newline)).count blank := by
    intro w hw l
    rw [List.takeWhile_append_of_pos fun c hc => by simpa using (hw.2 c hc).2.2, List.count_append,
      List.count_eq_zero_of_not_mem fun hc => (hw.2 _ hc).2.1 rfl, Nat.zero_add]
  induction ws with
  | nil => exact absurd rfl hne
  | cons w ws ih =>
    obtain ⟨hw, hws⟩ := List.forall_mem_cons.mp hws
    cases ws with
    | nil =>
      rw [show [blank].intercalate [w] = w by simp [List.intercalate], hword w hw]
      simp
    | cons w' ws =>
      rw [show [blank].intercalate (w :: w' :: ws) = w ++ blank :: [blank].intercalate (w' :: ws) by
        simp [List.intercalate], List.append_assoc, hword w hw, List.cons_append,
        List.takeWhile_cons_of_pos (by decide), List.count_cons_self, ih hws (List.cons_ne_nil _ _)]
      rfl

variable {init : List Str} {lines : List (List Str)}

/-- A child whose `exec` has failed keeps its arguments: the next line does not get its own. -/
theorem loop_kept {rest : List UInt8} {es : List Event} (hset : Set s) (hn : init.length < s.n) (hws : ∀ w ∈ ws, Word w) (hne : ws ≠ []) :
    loop E orig (([blank].intercalate ws) ++ newline :: rest) s ≠ .ok (some ((init ++ ws).map some) :: es) := by
  intro h
  obtain ⟨t, hfetch, ht, hcount⟩ := loop_count hset h
  have := length_fetchFrom ht hfetch.symm (Nat.zero_le _)
  have := takeWhile_line hws hne rest
  simp only [List.length_map, List.length_append] at *
  omega

/-- What the array must hold for the lines: a null pointer after the words of each of them. -/
structure Clear (E : Env) (init : List Str) (a₀ : Nat → Option Nat) (hi : Nat) (lines : List (List Str)) : Prop where
  grow : lines.Pairwise (·.length ≤ ·.length)
  above : ∀ ws ∈ lines, hi ≤ init.length + ws.length
  null : ∀ ws ∈ lines, a₀ (init.length + ws.length) = none
  execs : ∀ ws ∈ lines.dropLast, E.execs ((init ++ ws).map some) = true

theorem text_cons (ws : List Str) (lines : List (List Str)) :
    text (ws :: lines) = [blank].intercalate ws ++ newline :: text lines := by
  rw [text, List.flatMap_cons, List.append_assoc]
  rfl

/-- The last line has been read: the initial arguments are freed. -/
theorem Args.done (h : Args a₀ s (ps ++ qs) (init ++ us) hi) (hlen : qs.length = us.length) :
    loop E init.length [] s = .ok [] := by
  have hps : ps.length = init.length := by
    have := h.length
    simp only [List.length_append] at this
    omega
  have hall : Args a₀ { s with n := init.length } ([] ++ ps) ([] ++ init) hi := hps ▸ h.front hlen
  obtain ⟨t, hfree, -⟩ := hall.free hps
  rw [hps] at hfree
  rw [loop, hfree]
  rfl

/-- After an `exec` that has not returned the words are freed. -/
theorem Args.next (h : Args a₀ s (ps ++ qs) (init ++ ws) hi) (hlen : qs.length = ws.length)
    (hfetch : Xargs.fetch s = some ((init ++ ws).map some)) (hexec : E.execs ((init ++ ws).map some) = true) :
    ∃ t, afterExec E init.length s = .ok t ∧ Args a₀ t ps init hi ∧ t.bufPtr = 0 := by
  obtain ⟨u, hfree, hargs, -⟩ := h.free hlen
  have hcount : s.n - init.length = qs.length := by
    rw [h.n, h.length, List.length_append, hlen, Nat.add_sub_cancel_left]
  refine ⟨{ u with bufPtr := 0 }, ?_, hargs.congr rfl rfl rfl, rfl⟩
  rw [afterExec, hfetch, Option.any_some, hexec, if_pos rfl, hcount, hfree]
  rfl

theorem afterExec_failed (hfetch : fetch s = some ((init ++ ws).map some)) (hexec : E.execs ((init ++ ws).map some) ≠ true) :
    afterExec E orig s = .ok s := by
  rw [afterExec, hfetch, Option.any_some, if_neg hexec]

/-- A null pointer follows the words of a line where none has been set, and none was there at the start. -/
theorem Args.null_iff (h : Args a₀ s ps vs (max hi vs.length)) :
    s.args vs.length = none ↔ hi ≤ vs.length ∧ a₀ vs.length = none := by
  constructor
  · intro hnone
    have hle : hi ≤ vs.length := by_contra fun hlt => h.used vs.length (by omega) hnone
    exact ⟨hle, (h.rest _ (by omega)).symm.trans hnone⟩
  · rintro ⟨hle, hnone⟩
    exact (h.rest _ (by omega)).trans hnone

theorem loop_lines (h : Args a₀ s ps init hi) (hptr : s.bufPtr = 0)
    (hws : ∀ ws ∈ lines, ws ≠ [] ∧ (∀ w ∈ ws, Word w) ∧ init.length + ws.length < MAXARG) :
    loop E init.length (text lines) s = .ok (lines.map fun ws => some ((init ++ ws).map some)) ↔
      Clear E init a₀ hi lines := by
  induction lines generalizing s hi with
  | nil =>
    have hall : Args a₀ s (ps ++ []) (init ++ []) hi := by simpa using h
    have hdone := hall.done (E := E) rfl
    exact ⟨fun _ => ⟨.nil, by simp, by simp, by simp⟩, fun _ => hdone⟩
  | cons ws lines ih =>
    obtain ⟨⟨hne, hwords, hn⟩, hws⟩ := List.forall_mem_cons.mp hws
    obtain ⟨t, qs, hqs, hargs, hloop⟩ := loop_words init.length (text lines) h hptr hne hwords hn
    rw [← List.length_append] at hargs hn
    have hfetch := (hargs.fetch hn).trans hargs.null_iff
    rw [List.length_append] at hargs hfetch
    rw [text_cons, hloop]
    constructor
    · intro hres
      obtain ⟨u, hu, hres⟩ := bind_eq_ok hres
      obtain ⟨es, hes, hres⟩ := bind_eq_ok hres
      obtain ⟨hev, rfl⟩ := List.cons.inj (Except.ok.inj hres)
      obtain ⟨hle, hnull⟩ := hfetch.mp hev
      by_cases hexec : E.execs ((init ++ ws).map some) = true
      · obtain ⟨u', hu', hargs', hptr'⟩ := hargs.next hqs hev hexec
        obtain rfl := Except.ok.inj (hu.symm.trans hu')
        rw [Nat.max_eq_right hle] at hargs'
        have hclear := (ih hargs' hptr' hws).mp hes
        refine ⟨List.pairwise_cons.mpr ⟨fun vs hvs => Nat.le_of_add_le_add_left (hclear.above vs hvs), hclear.grow⟩,
          List.forall_mem_cons.mpr ⟨hle, fun vs hvs => Nat.le_trans hle (hclear.above vs hvs)⟩,
          List.forall_mem_cons.mpr ⟨hnull, hclear.null⟩, fun vs hvs => ?_⟩
        cases lines with
        | nil => simp at hvs
        | cons ws' lines =>
          rcases List.mem_cons.mp hvs with rfl | hvs
          · exact hexec
          · exact hclear.execs vs hvs
      · obtain rfl := Except.ok.inj (hu.symm.trans (afterExec_failed hev hexec))
        cases lines with
        | nil => exact ⟨List.pairwise_singleton _ _, by simpa using hle, by simpa using hnull, by simp⟩
        | cons ws' lines =>
          obtain ⟨hne', hwords', -⟩ := hws ws' List.mem_cons_self
          rw [text_cons] at hes
          refine absurd hes (loop_kept (fun j hj => ?_) ?_ hwords' hne')
          · rw [hargs.ptr j (by rw [← hargs.n]; exact hj)]
            simp
          · rw [hargs.n, hargs.length, List.length_append]
            exact Nat.lt_add_of_pos_right (List.length_pos_of_ne_nil hne)
    · intro hclear
      have hle := hclear.above ws List.mem_cons_self
      have hev := hfetch.mpr ⟨hle, hclear.null ws List.mem_cons_self⟩
      obtain ⟨hfirst, hgrow⟩ := List.pairwise_cons.mp hclear.grow
      by_cases hexec : E.execs ((init ++ ws).map some) = true
      · obtain ⟨u, hu, hargs', hptr'⟩ := hargs.next hqs hev hexec
        rw [Nat.max_eq_right hle] at hargs'
        have hrest := (ih hargs' hptr' hws).mpr ⟨hgrow, fun vs hvs => Nat.add_le_add_left (hfirst vs hvs) _,
          fun vs hvs => hclear.null vs (List.mem_cons_of_mem _ hvs), fun vs hvs => hclear.execs vs ?_⟩
        · rw [hu, hev]
          show (do let es ← loop E init.length (text lines) u; _) = _
          rw [hrest]
          rfl
        · cases lines with
          | nil => simp at hvs
          | cons ws' lines => exact List.mem_cons_of_mem _ hvs
      · cases lines with
        | nil =>
          rw [afterExec_failed hev hexec, hev]
          show (do let es ← loop E init.length [] t; _) = _
          rw [hargs.done hqs]
          rfl
        | cons ws' lines => exact absurd (hclear.execs ws List.mem_cons_self) hexec

/-- The initial arguments are copied. -/
theorem init_args (h : Args a₀ s ps vs vs.length) (hinit : ∀ a ∈ init, a.length < MAXSTR)
    (hn : vs.length + init.length < MAXARG) :
    ∃ t qs, init.foldlM (addArg E) s = .ok t ∧ Args a₀ t qs (vs ++ init) (vs ++ init).length ∧ t.bufPtr = s.bufPtr := by
  induction init generalizing s ps vs with
  | nil => exact ⟨s, ps, rfl, by rw [List.append_nil]; exact h, rfl⟩
  | cons a init ih =>
    have hinit := List.forall_mem_cons.mp hinit
    rw [List.length_cons] at hn
    obtain ⟨t, ht, hargs, -, hptr⟩ := h.add (by omega) hinit.1
    rw [Nat.max_eq_right (Nat.le_succ _)] at hargs
    have hargs : Args a₀ t (ps ++ [E.malloc s.heap]) (vs ++ [a]) (vs ++ [a]).length := by simpa using hargs
    obtain ⟨u, qs, hu, hargs', hptr'⟩ := ih hargs hinit.2 (by simp; omega)
    rw [List.append_assoc] at hargs'
    refine ⟨u, qs, ?_, hargs', hptr'.trans hptr⟩
    rw [List.foldlM_cons, ht]
    exact hu

theorem foldlM_short (h : init.foldlM (addArg E) s = .ok t) : ∀ a ∈ init, a.length < MAXSTR := by
  induction init generalizing s with
  | nil => simp
  | cons a init ih =>
    rw [List.foldlM_cons] at h
    obtain ⟨u, hu, h⟩ := bind_eq_ok h
    refine List.forall_mem_cons.mpr ⟨?_, ih h⟩
    unfold addArg at hu
    split at hu
    · cases hu
    split at hu
    · cases hu
    · omega

/-- Every `exec` gets the initial arguments and the words of its line exactly where the initial arguments fit in
    their blocks, no line has fewer words than an earlier one, the array held a null pointer after the words of
    each line, and no `exec` before the last fails. -/
theorem xargs_lines (E : Env) (init : List Str) (lines : List (List Str)) (args : Nat → Option Nat) (buf : Mem)
    (hwords : ∀ ws ∈ lines, ws ≠ [] ∧ (∀ w ∈ ws, Word w) ∧ init.length + ws.length ≤ MAXARG - 1)
    (hcount : init.length ≤ MAXARG - 1) :
    main E init args buf (text lines) = .ok (lines.map fun ws => some ((init ++ ws).map some)) ↔
      (∀ a ∈ init, a.length < MAXSTR) ∧ lines.Pairwise (·.length ≤ ·.length) ∧
      (∀ ws ∈ lines, args (init.length + ws.length) = none) ∧
      ∀ ws ∈ lines.dropLast, E.execs ((init ++ ws).map some) = true := by
  have hws : ∀ ws ∈ lines, ws ≠ [] ∧ (∀ w ∈ ws, Word w) ∧ init.length + ws.length < MAXARG := fun ws hw =>
    ⟨(hwords ws hw).1, (hwords ws hw).2.1, Nat.lt_of_le_of_lt (hwords ws hw).2.2 (by decide)⟩
  have hlines : (∀ a ∈ init, a.length < MAXSTR) →
      (main E init args buf (text lines) = .ok (lines.map fun ws => some ((init ++ ws).map some)) ↔
        Clear E init args init.length lines) := by
    intro hinit
    have hstart : Args args ⟨buf, 0, args, 0, []⟩ [] [] 0 :=
      ⟨rfl, by simp, rfl, List.nodup_nil, by simp, fun _ _ => rfl⟩
    obtain ⟨s, ps, hs, hargs, hptr⟩ := init_args hstart hinit
      (by unfold MAXARG at *; simp; omega)
    rw [main, hs]
    exact loop_lines hargs hptr hws
  constructor
  · intro h
    obtain ⟨s, hs, -⟩ := bind_eq_ok h
    have hinit := foldlM_short hs
    have hclear := (hlines hinit).mp h
    exact ⟨hinit, hclear.grow, hclear.null, hclear.execs⟩
  · rintro ⟨hinit, hgrow, hnull, hexec⟩
    exact (hlines hinit).mpr ⟨hgrow, fun _ _ => Nat.le_add_right _ _, hnull, hexec⟩

/-- A block after all that are in use. -/
def nextBlock : Heap → Nat
  | [] => 0
  | x :: h => max (x.1 + 1) (nextBlock h)

theorem lt_nextBlock {h : Heap} (hp : p ∈ h.map Prod.fst) : p < nextBlock h := by
  induction h with
  | nil => cases hp
  | cons x h ih =>
    rw [nextBlock]
    rcases List.mem_cons.mp hp with rfl | hp
    · omega
    · have := ih hp
      omega

/-- Blocks are given out in order, and `exec` does not return. -/
def counting : Env where
  malloc := nextBlock
  fresh _ hmem := Nat.lt_irrefl _ (lt_nextBlock hmem)
  execs _ := true

/-- `xargs e` with the lines `"a"` and `"b c"`. -/
theorem xargs_lines_two :
    main counting [[101]] (fun _ => none) (fun _ => 0) (text [[[97]], [[98], [99]]]) =
      .ok [some [some [101], some [97]], some [some [101], some [98], some [99]]] :=
  (xargs_lines counting [[101]] [[[97]], [[98], [99]]] (fun _ => none) (fun _ => 0) (by decide +kernel)
    (by decide)).mpr ⟨by decide, by decide, fun _ _ => rfl, fun _ _ => rfl⟩

/-- `xargs e` with the lines `"b c"` and `"a"`: the second `exec` gets a pointer to a freed string. -/
theorem xargs_passes_freed :
    main counting [[101]] (fun _ => none) (fun _ => 0) (text [[[98], [99]], [[97]]]) =
      .ok [some [some [101], some [98], some [99]], some [some [101], some [97], none]] := by decide +kernel

end Xv6.Xargs
