import Xv6.Schemes.Ring
import Xv6.Kernel.Sleep.Held
import Xv6.Kernel.Sleep.Notes

/-! The console as a line editor.

              e         typed, can still be erased
              w         committed: can be read
              r         read

    An editor keeps the text that has been committed and the line that is being typed. The three indices
    count what readers have taken, what has been committed and what has been typed; they stand for those
    numbers also after they have wrapped, since no more than `INPUT_BUF` characters are in the ring. -/

namespace Xv6.Sleep

open Procs (Slot)
open State Function

/-! ### The editor -/

/-- The text that has been committed, and the line being typed. -/
structure Editor where
  done : List UInt8
  line : List UInt8

/-- A character is typed when readers have taken `taken` characters of the committed text. -/
def Editor.type (x : Editor) (taken : Nat) (c : UInt8) : Editor :=
  -- C('P')
  if c = 16 then x
  -- C('U')
  else if c = 21 then ⟨x.done, []⟩
  -- C('H') and '\x7f'
  else if c = 8 ∨ c = 127 then ⟨x.done, x.line.dropLast⟩
  else if c = 0 ∨ taken + INPUT_BUF ≤ (x.done ++ x.line).length then x
  else
    let c := if c = 13 then 10 else c
    if c = 10 ∨ c = 4 ∨ (x.done ++ x.line).length + 1 = taken + INPUT_BUF then ⟨x.done ++ x.line ++ [c], []⟩
    else ⟨x.done, x.line ++ [c]⟩

/-- The console shows the text of the editor. -/
structure Shows (k : Cons) (x : Editor) : Prop where
  r : k.r = UInt32.ofNat k.eaten.length
  w : k.w = UInt32.ofNat x.done.length
  e : k.e = UInt32.ofNat (x.done ++ x.line).length
  ring : Ring.Holds INPUT_BUF k.buf (x.done ++ x.line) k.eaten.length
  eaten : k.eaten <+: x.done
  plain : 10 ∉ x.line
  full : (x.done ++ x.line).length = k.eaten.length + INPUT_BUF → x.line = []

namespace Shows

variable {k : Cons} {x : Editor}

theorem le (h : Shows k x) : k.eaten.length ≤ x.done.length := h.eaten.length_le

theorem fits (h : Shows k x) : (x.done ++ x.line).length ≤ k.eaten.length + 128 := h.ring.fits

theorem done_le (x : Editor) : x.done.length ≤ (x.done ++ x.line).length := by
  rw [List.length_append]
  exact Nat.le_add_right _ _

theorem unread (h : Shows k x) : (k.w - k.r).toNat = x.done.length - k.eaten.length := by
  rw [h.w, h.r]
  have := h.fits
  have := done_le x
  exact Ring.toNat_sub h.le (by omega)

theorem used (h : Shows k x) : (k.e - k.r).toNat = (x.done ++ x.line).length - k.eaten.length := by
  rw [h.e, h.r]
  have := h.fits
  exact Ring.toNat_sub (h.le.trans (done_le x)) (by omega)

theorem typed (h : Shows k x) : (k.e - k.w).toNat = x.line.length := by
  rw [h.e, h.w, Ring.toNat_sub (done_le x) (by have := h.fits; have := h.le; omega), List.length_append]
  omega

theorem drained_iff (h : Shows k x) : k.r = k.w ↔ k.eaten.length = x.done.length := by
  rw [h.r, h.w]
  have := h.fits
  have := done_le x
  exact Ring.ofNat_eq_iff h.le (by omega)

theorem blank_iff (h : Shows k x) : k.e = k.w ↔ x.line = [] := by
  rw [h.e, h.w, eq_comm, Ring.ofNat_eq_iff (done_le x) (by have := h.fits; have := h.le; omega),
    List.length_append, Nat.left_eq_add, List.length_eq_zero_iff]

theorem room_iff (h : Shows k x) : k.e - k.r < 128 ↔ (x.done ++ x.line).length < k.eaten.length + INPUT_BUF := by
  rw [UInt32.lt_iff_toNat_lt, h.used]
  show _ < 128 ↔ _ < _ + 128
  omega

/-- A reader takes the next character. -/
theorem eat (h : Shows k x) (hin : k.r ≠ k.w) : Shows k.eat x := by
  have hlt : k.eaten.length < x.done.length := by
    have hne : ¬ k.eaten.length = x.done.length := fun heq => hin (h.drained_iff.mpr heq)
    have := h.le
    omega
  obtain ⟨hget, hring⟩ := h.ring.pop (Nat.lt_of_lt_of_le hlt (done_le x))
  have hcell : k.buf (k.r.toNat % INPUT_BUF) = k.buf (k.eaten.length % INPUT_BUF) := by
    rw [h.r, Ring.toNat_mod (by decide)]
  have hlen : k.eat.eaten.length = k.eaten.length + 1 := List.length_append
  rw [List.getElem?_append_left hlt] at hget
  refine ⟨?_, h.w, h.e, ?_, ?_, h.plain, fun hfull => ?_⟩
  · rw [hlen]
    show k.r + 1 = _
    rw [h.r]
    exact (UInt32.ofNat_add _ 1).symm
  · rw [hlen]
    exact hring
  · show k.eaten ++ [k.buf (k.r.toNat % INPUT_BUF)] <+: x.done
    rw [hcell]
    have htake := List.prefix_iff_eq_take.mp h.eaten
    rw [List.prefix_iff_eq_take, List.length_append, List.length_singleton, List.take_add_one, ← htake, hget]
    rfl
  · have := h.ring.fits
    rw [hfull, hlen] at this
    omega

/-- The last character of the line is erased. -/
theorem back {done line : List UInt8} {c : UInt8} (h : Shows k ⟨done, line ++ [c]⟩) :
    Shows { k with e := k.e - 1 } ⟨done, line⟩ where
  r := h.r
  w := h.w
  e := by
    have he := h.e
    simp only [List.length_append, List.length_singleton] at he ⊢
    rw [he, ← Nat.add_assoc, UInt32.ofNat_add]
    exact UInt32.add_sub_cancel _ _
  ring := by
    have hr := h.ring
    rw [← List.append_assoc] at hr
    exact hr.shrink (h.le.trans (done_le ⟨done, line⟩))
  eaten := h.eaten
  plain hmem := h.plain (List.mem_append_left _ hmem)
  full hfull := by
    have := h.fits
    simp only [List.length_append, List.length_singleton, INPUT_BUF] at this hfull
    omega

theorem killLine {done : List UInt8} (line : List UInt8) : ∀ {k : Cons}, Shows k ⟨done, line⟩ →
    Shows (k.killLine line.length) ⟨done, []⟩ := by
  -- the loop erases from the end of the line
  induction line using List.reverseRecOn with
  | nil => exact fun h => h
  | append_singleton line c ih =>
    intro k h
    have hne : k.e ≠ k.w := fun heq => by simpa using h.blank_iff.mp heq
    have hlast : k.buf ((k.e - 1).toNat % INPUT_BUF) = c := by
      have he : k.e - 1 = UInt32.ofNat (done ++ line).length := h.back.e
      rw [he, Ring.toNat_mod (by decide)]
      refine h.ring.cell _ c (h.back.le.trans (done_le ⟨done, line⟩)) ?_
      rw [← List.append_assoc, List.getElem?_concat_length]
    have hc : c ≠ 10 := fun heq => h.plain (heq ▸ List.mem_append_right _ (List.mem_singleton_self _))
    rw [List.length_append, List.length_singleton, Cons.killLine, if_pos ⟨hne, by rwa [hlast]⟩]
    exact ih h.back

/-- A character is stored at the end of the line. -/
theorem store (h : Shows k x) {c : UInt8} (hc : c ≠ 10)
    (hroom : (x.done ++ x.line).length + 1 < k.eaten.length + INPUT_BUF) :
    Shows { k with buf := update k.buf (k.e.toNat % INPUT_BUF) c, e := k.e + 1 }
      ⟨x.done, x.line ++ [c]⟩ := by
  refine ⟨h.r, h.w, ?_, ?_, h.eaten, ?_, fun hfull => ?_⟩
  · rw [← List.append_assoc, List.length_append, h.e]
    exact (UInt32.ofNat_add _ 1).symm
  · rw [h.e, Ring.toNat_mod (by decide), ← List.append_assoc]
    exact h.ring.push (by omega) c
  · rw [List.mem_append, List.mem_singleton]
    rintro (hmem | heq)
    · exact h.plain hmem
    · exact hc heq.symm
  · exfalso
    simp only [List.length_append, List.length_singleton] at hfull hroom
    omega

/-- A character is stored, and all that has been typed is committed. -/
theorem commit (h : Shows k x) (c : UInt8) (hroom : (x.done ++ x.line).length < k.eaten.length + INPUT_BUF) :
    Shows { k with buf := update k.buf (k.e.toNat % INPUT_BUF) c, e := k.e + 1, w := k.e + 1 }
      ⟨x.done ++ x.line ++ [c], []⟩ := by
  have he : k.e + 1 = UInt32.ofNat (x.done ++ x.line ++ [c]).length := by
    rw [List.length_append, h.e]
    exact (UInt32.ofNat_add _ 1).symm
  refine ⟨h.r, he, ?_, ?_, ?_, List.not_mem_nil, fun _ => rfl⟩
  · rw [List.append_nil]
    exact he
  · rw [List.append_nil, h.e, Ring.toNat_mod (by decide)]
    exact h.ring.push hroom c
  · exact h.eaten.trans ((List.prefix_append _ _).trans (List.prefix_append _ _))

theorem full_iff (h : Shows k x) (hroom : (x.done ++ x.line).length < k.eaten.length + INPUT_BUF) :
    k.e + 1 = k.r + 128 ↔ (x.done ++ x.line).length + 1 = k.eaten.length + INPUT_BUF := by
  rw [h.e, h.r, show UInt32.ofNat (x.done ++ x.line).length + 1 = UInt32.ofNat ((x.done ++ x.line).length + 1) from
    (UInt32.ofNat_add _ 1).symm]
  have hle := h.le.trans (done_le x)
  rw [INPUT_BUF] at hroom ⊢
  exact Ring.ofNat_eq_add_iff (by omega) (by omega) (by decide)

theorem edit (h : Shows k x) (c : UInt8) : Shows (k.edit c).1 (x.type k.eaten.length c) := by
  unfold Cons.edit Editor.type
  by_cases hp : c = 16
  · rw [if_pos hp, if_pos hp]
    exact h
  rw [if_neg hp, if_neg hp]
  by_cases hu : c = 21
  · rw [if_pos hu, if_pos hu, h.typed]
    exact killLine x.line h
  rw [if_neg hu, if_neg hu]
  by_cases hb : c = 8 ∨ c = 127
  · rw [if_pos hb, if_pos hb]
    split
    · rename_i hne
      obtain ⟨line, d, hline⟩ : ∃ line d, x.line = line ++ [d] :=
        ⟨_, _, (List.dropLast_append_getLast fun hnil => hne (h.blank_iff.mpr hnil)).symm⟩
      obtain ⟨done, _⟩ := x
      obtain rfl := hline
      rw [List.dropLast_concat]
      exact h.back
    · rename_i heq
      have hnil := h.blank_iff.mp (not_not.mp heq)
      obtain ⟨done, line⟩ := x
      obtain rfl : line = [] := hnil
      exact h
  rw [if_neg hb, if_neg hb]
  by_cases hin : c ≠ 0 ∧ k.e - k.r < 128
  · have hroom := h.room_iff.mp hin.2
    rw [if_pos hin, if_neg (show ¬ (c = 0 ∨ _) by rw [not_or, Nat.not_le]; exact ⟨hin.1, hroom⟩)]
    simp only [h.full_iff hroom]
    generalize (if c = 13 then 10 else c) = d
    split
    · exact h.commit _ hroom
    · rename_i hno
      rw [not_or, not_or] at hno
      exact h.store hno.1 (by omega)
  · have hno : c = 0 ∨ k.eaten.length + INPUT_BUF ≤ (x.done ++ x.line).length := by
      rwa [h.room_iff, not_and_or, not_not, Nat.not_lt] at hin
    rw [if_neg hin, if_pos hno]
    exact h

theorem intr (h : Shows k x) (c : UInt8) : Shows (k.intr c).1 (x.type k.eaten.length c) :=
  edit (k := { k with typed := k.typed ++ [c] }) ⟨h.r, h.w, h.e, h.ring, h.eaten, h.plain, h.full⟩ c

end Shows

/-! ### Reads -/

/-- The next character that can be read. -/
def Cons.next (k : Cons) : Option UInt8 := if k.r = k.w then none else some k.front

/-- The last `consoleread` of a process: what it asks for and what it has taken; and, when it was at its
    loop the last time, the character that came next, and whether the process had been killed. -/
structure Reading where
  n : Int32
  got : List UInt8
  next : Option UInt8
  killed : Bool

/-- What `consoleread` may return. -/
inductive Reading.Outcome (a : Reading) : Int32 → Prop
  | killed (h : a.killed = true) : Outcome a (-1)
  /-- ^D comes first: it is taken. -/
  | eof (h : a.got = [4]) : Outcome a 0
  /-- The characters are taken up to their number, up to the end of the line, or up to a ^D that is left. -/
  | chars {v : Int32} (hv : v.toInt = a.got.length) (heof : 4 ∉ a.got) (hline : 10 ∉ a.got.dropLast)
      (hend : a.got.length = a.n.toInt.toNat ∨ a.got.getLast? = some 10 ∨ (a.got ≠ [] ∧ a.next = some 4)) :
      Outcome a v

/-- The state with the editor, and with the last read of every process. -/
structure Desk (nc : Nat) where
  state : State nc
  editor : Editor
  reads : Slot → Option Reading

variable {nc : Nat}

/-- The editor gets the characters when the handler does. -/
def Editor.note (x : Editor) (s : State nc) : Act nc → Editor
  | .handle c => match s.intr c with
    | some (.edit (.uart ch)) => x.type s.cons.eaten.length ch
    | _ => x
  | _ => x

/-- The thread of `q` takes a step from `s` to `t`. -/
def Reading.go (a : Reading) (s t : State nc) (q : Slot) : Reading :=
  match s.pos q with
  | .test (.console ..) =>
    { a with
      got := a.got ++ t.cons.eaten.drop s.cons.eaten.length
      next := t.cons.next
      killed := s.killed q }
  | _ => a

/-- A note is taken when `consoleread` begins. -/
def readings (nc : Nat) : Notes nc (Option Reading) where
  idle := none
  start
    | .consoleread _ n => some ⟨n, [], none, false⟩
    | _ => none
  go m s t q := m.map (·.go s t q)

def deskStep (x : Desk nc) (a : Act nc) : Option (Desk nc) :=
  (step x.state a).map fun t => ⟨t, x.editor.note x.state a, (readings nc).note x.reads x.state t a⟩

abbrev DeskRun (ok : Desk nc → Act nc → Prop) : Desk nc → List (Act nc) → Desk nc → Prop :=
  (System.ofStep deskStep).Run ok

def deskBoot (nc : Nat) : Desk nc := ⟨boot nc, ⟨[], []⟩, fun _ => none⟩

/-- The copies to the buffer of `consoleread` succeed. -/
def Req.Copies : Req → Prop
  | .consoleread room n => n.toInt ≤ room
  | _ => True

instance : DecidablePred Req.Copies
  | .consoleread room n => inferInstanceAs (Decidable (n.toInt ≤ room))
  | .pipewrite .. | .piperead .. | .sysSleep .. => inferInstanceAs (Decidable True)

def CopiesSucceed (_ : Desk nc) (a : Act nc) : Prop := CallsMeet Req.Copies a

instance (x : Desk nc) (a : Act nc) : Decidable (CopiesSucceed x a) :=
  inferInstanceAs (Decidable (CallsMeet Req.Copies a))

/-- The loop has `n` characters to go. -/
structure Reading.Going (a : Reading) (room : Nat) (n : Int32) (target : UInt32) : Prop where
  target : target = a.n.toUInt32
  count : n.toInt + a.got.length = a.n.toInt
  nonneg : a.got ≠ [] → 0 ≤ n.toInt
  eof : 4 ∉ a.got
  line : 10 ∉ a.got
  mapped : n.toInt ≤ room

theorem toNat_toUInt32 {n : Int32} (h : 0 ≤ n.toInt) : n.toUInt32.toNat = n.toInt.toNat := by
  have hn : n.toInt = n.toBitVec.toInt := rfl
  have hu : n.toUInt32.toNat = n.toBitVec.toNat := rfl
  rw [hn, BitVec.toInt_eq_toNat_cond] at h ⊢
  split at h
  · rw [if_pos ‹_›, hu, Int.toNat_natCast]
  · have := n.toBitVec.isLt
    omega

theorem toInt_sub_one {n : Int32} (h : 0 < n) : (n - 1).toInt = n.toInt - 1 := by
  have hpos : 0 < n.toInt := Int32.lt_iff_toInt_lt.mp h
  have hlt := n.toInt_lt
  rw [Int32.toInt_sub, show (1 : Int32).toInt = 1 from rfl, Int.bmod_eq_of_le (by omega) (by omega)]

/-- The result is the number of characters that have been copied. -/
theorem consoleCount_toInt {m n : Int32} {g : Nat} (hcount : n.toInt + g = m.toInt) (hg : g = 0 ∨ 0 ≤ n.toInt) :
    (consoleCount m.toUInt32 n).toInt = g := by
  have hlt := m.toInt_lt
  show (m - n).toInt = _
  rw [Int32.toInt_sub, Int.bmod_eq_of_le (by omega) (by omega)]
  omega

namespace Reading.Going

variable {a : Reading} {room : Nat} {n : Int32} {target : UInt32}

theorem begun (h : a.Going room n target) : a.got.length = 0 ∨ 0 ≤ n.toInt := by
  by_cases hgot : a.got = []
  · exact .inl (List.length_eq_zero_iff.mpr hgot)
  · exact .inr (h.nonneg hgot)

theorem begun_iff (h : a.Going room n target) (hn : 0 < n) : n.toUInt32 < target ↔ a.got ≠ [] := by
  have hpos : 0 < n.toInt := Int32.lt_iff_toInt_lt.mp hn
  have hcount := h.count
  rw [h.target, UInt32.lt_iff_toNat_lt, toNat_toUInt32 (by omega), toNat_toUInt32 (by omega), ne_eq,
    ← List.length_eq_zero_iff]
  omega

/-- A character is taken and copied. -/
theorem count_next (h : a.Going room n target) (hn : 0 < n) (c : UInt8) :
    (n - 1).toInt + (a.got ++ [c]).length = a.n.toInt := by
  have hcount := h.count
  rw [toInt_sub_one hn, List.length_append, List.length_singleton]
  omega

theorem more (h : a.Going (room + 1) n target) (hn : 0 < n) {c : UInt8} (h4 : c ≠ 4) (h10 : c ≠ 10)
    (o : Option UInt8) (b : Bool) : (Reading.mk a.n (a.got ++ [c]) o b).Going room (n - 1) target := by
  have hpos : 0 < n.toInt := Int32.lt_iff_toInt_lt.mp hn
  have hone := toInt_sub_one hn
  refine ⟨h.target, h.count_next hn c, fun _ => by omega, ?_, ?_, ?_⟩
  · rw [List.mem_append, List.mem_singleton, not_or]
    exact ⟨h.eof, Ne.symm h4⟩
  · rw [List.mem_append, List.mem_singleton, not_or]
    exact ⟨h.line, Ne.symm h10⟩
  · have := h.mapped
    omega

/-- The loop ends. -/
theorem ends (h : a.Going room n target) {k k' : Cons} {v : Int32} (he : k.Ends room n target k' v) (b : Bool) :
    (Reading.mk a.n (a.got ++ k'.eaten.drop k.eaten.length) k'.next b).Outcome v := by
  have hcount := h.count
  have hbegun := h.begun
  have hkeep : a.got ++ k.eaten.drop k.eaten.length = a.got := by rw [List.drop_length, List.append_nil]
  have heat : k.eat.eaten.drop k.eaten.length = [k.front] := List.drop_left
  have hdrop : 10 ∉ a.got.dropLast := fun hmem => h.line (List.dropLast_subset _ hmem)
  cases he with
  | full hn =>
    rw [Int32.lt_iff_toInt_lt] at hn
    rw [hkeep, h.target]
    refine .chars (consoleCount_toInt hcount hbegun) h.eof hdrop (.inl ?_)
    have hz : ¬ 0 < n.toInt := hn
    show a.got.length = a.n.toInt.toNat
    omega
  | kept hn hin hc hlt =>
    rw [hkeep, h.target]
    refine .chars (consoleCount_toInt hcount hbegun) h.eof hdrop (.inr (.inr ⟨(h.begun_iff hn).mp hlt, ?_⟩))
    rw [Cons.next, if_neg hin, hc]
  | eof hn hin hc hge =>
    have hnil : a.got = [] := not_not.mp fun hne => hge ((h.begun_iff hn).mpr hne)
    have hzero : consoleCount target n = 0 := by
      rw [← Int32.toInt_inj, h.target, consoleCount_toInt hcount hbegun, hnil]
      rfl
    rw [hzero, heat, hc, hnil]
    exact .eof rfl
  | fault hn =>
    have hpos : 0 < n.toInt := Int32.lt_iff_toInt_lt.mp hn
    have := h.mapped
    omega
  | line hn hin hc =>
    have hpos : 0 < n.toInt := Int32.lt_iff_toInt_lt.mp hn
    have hone := toInt_sub_one hn
    rw [heat, hc, h.target]
    refine .chars (consoleCount_toInt (h.count_next hn 10) (.inr (by omega))) ?_ ?_ (.inr (.inl ?_))
    · rw [List.mem_append, List.mem_singleton, not_or]
      exact ⟨h.eof, by decide⟩
    · rw [List.dropLast_concat]
      exact h.line
    · exact List.getLast?_concat

end Reading.Going

/-! ### Steps -/

/-- The last read of a thread in a call. -/
def Call.reading (a : Option Reading) : Call → Prop
  | .console room n target => ∃ b, a = some b ∧ b.Going room n target
  | _ => a = none

/-- The last read of a thread, when its last call has returned `v`. -/
def Pos.reading (a : Option Reading) (v : Int32) : Pos → Prop
  | .out => ∀ b, a = some b → b.Outcome v
  | .enter k | .test k | .nap k | .unlock k | .asleep k | .wakeup _ _ (.nap k) => k.reading a
  | .wakeup _ _ (.ret _ v) | .ret _ v => ∀ b, a = some b → b.Outcome v
  | .put .. | .copy .. | .close _ => a = none

structure Disciplined (x : Desk nc) : Prop where
  shows : Shows x.state.cons x.editor
  reads : Keeps Pos.reading x.state x.reads

variable {s t : State nc} {c : Fin nc} {q : Slot} {x : Editor} {a : Option Reading} {v : Int32}

/-- Outside the loop of `consoleread` nothing is noted. -/
theorem map_go (a : Option Reading) (hk : ∀ room n target, s.pos q ≠ .test (.console room n target)) :
    a.map (·.go s t q) = a := by
  have hgo : ∀ b : Reading, b.go s t q = b := by
    intro b
    unfold Reading.go
    split
    · exact absurd ‹_› (hk _ _ _)
    · rfl
  cases a with
  | none => rfl
  | some b => exact congrArg some (hgo b)

theorem reading_start {k : Call} (h : k.reading a) (ticks : UInt32) : (k.start ticks).reading a := by
  cases k <;> exact h

theorem outcome_none (h : a = none) (v : Int32) : ∀ b, a = some b → b.Outcome v := by
  rw [h]
  nofun

/-- A step of the thread in its call keeps its read. -/
theorem reading_go (h : (s.pos q).reading a v) (ht : Go s c q (s.pos q) t) :
    (t.pos q).reading (a.map (·.go s t q)) (t.a0 q) := by
  generalize hk : s.pos q = k at h ht
  have hout : (∀ room n target, k ≠ .test (.console room n target)) → a.map (·.go s t q) = a :=
    fun hne => map_go a (by rwa [hk])
  cases ht with
  | enter =>
    rw [hout nofun, goto_pos, update_self]
    exact reading_start h _
  | relock | pause | unlock | writeFull | writeRoom | readSome | put | take =>
    rw [hout nofun, goto_pos, update_self]
    exact h
  | close | writeDone | sleepDone | putFail | takeLast | copyDone =>
    rw [hout nofun, goto_pos, update_self]
    exact outcome_none h _
  | @fail k _ hwhy =>
    rw [goto_pos, update_self]
    cases k with
    | console room n target =>
      obtain ⟨b, rfl, -⟩ := h
      rintro _ ⟨⟩
      refine .killed ?_
      unfold Reading.go
      rw [hk]
      exact hwhy
    | _ =>
      rw [hout nofun]
      exact outcome_none h _
  | @nap k =>
    rw [goto_pos, update_self]
    cases k with
    | console room n target =>
      obtain ⟨b, rfl, hgo⟩ := h
      refine ⟨_, rfl, ?_⟩
      unfold Reading.go
      rw [hk]
      simp only [goto_cons, List.drop_length, List.append_nil]
      exact ⟨hgo.target, hgo.count, hgo.nonneg, hgo.eof, hgo.line, hgo.mapped⟩
    | _ =>
      rw [hout nofun]
      exact h
  | consoleRet k' v he =>
    rw [goto_pos, update_self]
    obtain ⟨b, rfl, hgo⟩ := h
    rintro _ ⟨⟩
    unfold Reading.go
    rw [hk]
    exact hgo.ends he _
  | consoleMore hn hin h4 h10 =>
    rw [goto_pos, update_self]
    obtain ⟨b, rfl, hgo⟩ := h
    refine ⟨_, rfl, ?_⟩
    unfold Reading.go
    rw [hk]
    have heat : s.cons.eat.eaten.drop s.cons.eaten.length = [s.cons.front] := List.drop_left
    simp only [goto_cons, heat]
    exact hgo.more hn h4 h10 _ _
  | @wakeup _ _ j | @woken _ _ j =>
    rw [hout nofun, goto_pos, update_self]
    cases j <;> exact h
  | ret =>
    rw [hout nofun, goto_pos, update_self]
    show ∀ b, a = some b → b.Outcome (update s.a0 q _ q)
    rw [update_self]
    exact h

theorem Shows.ends {k k' : Cons} {room : Nat} {n : Int32} {target : UInt32} (h : Shows k x)
    (he : k.Ends room n target k' v) : Shows k' x := by
  cases he with
  | full | kept => exact h
  | eof hn hin | fault hn hin | line hn hin => exact h.eat hin

theorem Shows.go (h : Shows s.cons x) {k : Pos} (ht : Go s c q k t) : Shows t.cons x := by
  cases ht with
  | consoleRet k v he => exact h.ends he
  | consoleMore hn hin => exact h.eat hin
  | _ => exact h

theorem Shows.step (h : Shows s.cons x) {a : Act nc} (hstep : Step s a t) : Shows t.cons (x.note s a) := by
  cases hstep with
  | under hl => cases hl <;> exact h
  | go _ _ hgo => exact h.go hgo
  | handle hk hh =>
    unfold Editor.note
    simp only [hk]
    cases hh with
    | uart => exact h.intr _
    | _ => exact h
  | _ => exact h

theorem readings_rule : (readings nc).Rule Req.Copies Pos.reading where
  out v := outcome_none rfl v
  close _ _ := rfl
  enter r v hok := by
    cases r with
    | consoleread room n => exact ⟨_, rfl, rfl, Int.add_zero _, nofun, List.not_mem_nil, List.not_mem_nil, hok⟩
    | _ => rfl
  go := reading_go

theorem disciplined_boot : Disciplined (deskBoot nc) where
  shows := ⟨rfl, rfl, rfl, .nil, List.nil_prefix, List.not_mem_nil, nofun⟩
  reads _ := outcome_none rfl _

/-- The console is a line editor: the three indices are in order and no more than `INPUT_BUF` apart, also
    after they have wrapped; what has been read comes first in the text that the editor has committed,
    and the rest of it can be read; a full buffer can be read; and every read ends as it should. -/
theorem console_line_discipline {as : List (Act nc)} {x : Desk nc} (hrun : DeskRun CopiesSucceed (deskBoot nc) as x) :
    (x.state.cons.w - x.state.cons.r).toNat ≤ (x.state.cons.e - x.state.cons.r).toNat ∧
    (x.state.cons.e - x.state.cons.r).toNat ≤ INPUT_BUF ∧
    x.state.cons.eaten <+: x.editor.done ∧
    x.editor.done.length = x.state.cons.eaten.length + (x.state.cons.w - x.state.cons.r).toNat ∧
    x.editor.line.length = (x.state.cons.e - x.state.cons.w).toNat ∧
    ¬ (x.state.cons.e - x.state.cons.r = 128 ∧ x.state.cons.r = x.state.cons.w) ∧
    ∀ q a, x.state.pos q = .out → x.reads q = some a → a.Outcome (x.state.a0 q) := by
  have hinv : Disciplined x := System.Run.step_invariant (fun y a z h hok hz => by
    obtain ⟨t, ht, rfl⟩ := Option.map_eq_some_iff.mp hz
    exact ⟨h.shows.step (step_step ht), readings_rule.step h.reads hok (step_step ht)⟩) hrun disciplined_boot
  have hs := hinv.shows
  have hle := hs.le
  have hdone := Shows.done_le x.editor
  refine ⟨?_, ?_, hs.eaten, ?_, hs.typed.symm, ?_, fun q a hout ha => ?_⟩
  · rw [hs.unread, hs.used]
    omega
  · rw [hs.used]
    have := hs.fits
    unfold INPUT_BUF
    omega
  · rw [hs.unread]
    omega
  · rintro ⟨hfull, hempty⟩
    have hused := hs.used
    rw [hfull, show (128 : UInt32).toNat = INPUT_BUF from rfl] at hused
    have hline := hs.full (by omega)
    rw [hline, List.append_nil, hs.drained_iff.mp hempty, Nat.sub_self] at hused
    cases hused
  · have hq := hinv.reads q
    rw [hout, ha] at hq
    exact hq a rfl

/-- A character is typed, and the handler runs for `n` steps. -/
def typeRun (ch : UInt8) (n : Nat) : List (Act 2) := .interrupt 0 (.uart ch) :: List.replicate n (.handle 0)

/-- "a", backspace, "b", newline and ^D are typed; the first read takes "b" and the newline. -/
theorem console_line_discipline_typed : ∃ x : Desk 2, x.state.cons.eaten = [98, 10] ∧ x.editor.done = [98, 10, 4] ∧
    x.state.a0 0 = 2 ∧ x.state.cons.eaten <+: x.editor.done ∧ ∃ a, x.reads 0 = some a ∧ a.Outcome 2 := by
  have hrun := System.run_exec (System.ofStep deskStep) CopiesSucceed (deskBoot 2)
    (forkRun ++ typeRun 97 3 ++ typeRun 127 3 ++ typeRun 98 3 ++ typeRun 13 14 ++ typeRun 4 14 ++
      .enter 0 (.consoleread 5 5) :: List.replicate 4 (.go 0)) (by decide +kernel)
  obtain ⟨-, -, heaten, -, -, -, hreads⟩ := console_line_discipline hrun
  exact ⟨_, by decide +kernel, by decide +kernel, by decide +kernel, heaten,
    _, rfl, hreads 0 _ (by decide +kernel) rfl⟩

end Xv6.Sleep
