import Mathlib.Data.List.TakeWhile
import Mathlib.Logic.Function.Iterate
import Mathlib.Order.Basic
import Xv6.User.Ulib

/-! The copying loops of nsh (`nsh.c`).

    ```
    gets(buf, sizeof buf);
    if (strlen(buf) <= 0) exit(0);
    while (strlen(buf) > 0) {
      printf("%s\n", buf);
      buf[0] = '\0';
      gets(buf, sizeof buf);
      if (strlen(buf) <= 0) break;
    }
    ```

    `gets` leaves the newline at the end of a line in the buffer, and it returns what fits in the buffer of
    a longer line. The `printf` adds a newline to each of these pieces. -/

namespace Xv6.Nsh
open Ulib (Str)

/-- `'\n'` and `'\r'`. -/
def newline : UInt8 := 10
def carriage : UInt8 := 13

/-- `sizeof buf`. -/
def BUFSIZE : Nat := 80

/-- The loop of `gets` for at most `n` characters: what it puts in the buffer, and what is not read. -/
def getsLoop : Nat → List UInt8 → List UInt8 × List UInt8
  | 0, input => ([], input)
  | _ + 1, [] => ([], [])
  | n + 1, c :: input =>
    if c = newline ∨ c = carriage then ([c], input)
    else (c :: (getsLoop n input).1, (getsLoop n input).2)

def gets (max : Nat) (input : List UInt8) : List UInt8 × List UInt8 := getsLoop (max - 1) input

/-- What `strlen` and `printf` take for the string in the buffer. -/
def cstring (buf : List UInt8) : Str := buf.takeWhile (· ≠ 0)

/-- The loop above, with `buf` just read. -/
def relayLoop : Nat → List UInt8 × List UInt8 → List UInt8
  | 0, _ => []
  | fuel + 1, (buf, input) =>
    if (cstring buf).length = 0 then []
    else cstring buf ++ [newline] ++ relayLoop fuel (gets BUFSIZE input)

/-- What is written when the loop reads `input`; every round reads a character. -/
def relay (input : List UInt8) : List UInt8 := relayLoop (input.length + 1) (gets BUFSIZE input)

/-! ### One round -/

variable {n fuel : Nat} {input out : List UInt8}

theorem getsLoop_append (n : Nat) (input : List UInt8) : (getsLoop n input).1 ++ (getsLoop n input).2 = input := by
  fun_induction getsLoop n input with
  | case1 => rfl
  | case2 => rfl
  | case3 => rfl
  | case4 n c input h ih => rw [List.cons_append, ih]

/-- A round reads something unless the input is at its end. -/
theorem gets_ne_nil (h : input ≠ []) : (gets BUFSIZE input).1 ≠ [] := by
  obtain ⟨c, input, rfl⟩ := List.exists_cons_of_ne_nil h
  rw [gets, show BUFSIZE - 1 = 78 + 1 from rfl, getsLoop]
  split <;> exact List.cons_ne_nil _ _

theorem length_rest (h : input ≠ []) : (gets BUFSIZE input).2.length < input.length := by
  have hlen := congrArg List.length (getsLoop_append (BUFSIZE - 1) input)
  have hpos := List.length_pos_of_ne_nil (gets_ne_nil h)
  rw [List.length_append] at hlen
  rw [gets] at hpos ⊢
  omega

/-- Any number of rounds above the length of the input gives the same. -/
theorem relayLoop_fuel (h : input.length < fuel) : relayLoop fuel (gets BUFSIZE input) = relay input := by
  suffices ∀ k fuel' : Nat, input.length < k → input.length < fuel' →
      relayLoop k (gets BUFSIZE input) = relayLoop fuel' (gets BUFSIZE input) from
    this _ _ h (Nat.lt_succ_self _)
  clear h
  intro k
  induction k generalizing input with
  | zero => omega
  | succ k ih =>
    intro fuel' hk hfuel
    obtain ⟨fuel', rfl⟩ : ∃ m, fuel' = m + 1 := ⟨fuel' - 1, by omega⟩
    by_cases hnil : input = []
    · rw [hnil]
      rfl
    · have hrest := length_rest hnil
      rw [relayLoop, relayLoop, ih fuel' (by omega) (by omega)]

theorem relay_nil : relay [] = [] := rfl

theorem relay_eq (h : input ≠ []) : relay input =
    if (cstring (gets BUFSIZE input).1).length = 0 then []
    else cstring (gets BUFSIZE input).1 ++ [newline] ++ relay (gets BUFSIZE input).2 := by
  rw [relay, relayLoop, relayLoop_fuel (length_rest h)]

/-! ### What arrives -/

theorem zero_notMem_cstring (buf : List UInt8) : 0 ∉ cstring buf := by
  intro h
  simpa using List.mem_takeWhile_imp h

theorem cstring_eq {buf : List UInt8} (h : 0 ∉ buf) : cstring buf = buf :=
  List.takeWhile_eq_self_iff.mpr fun x hx => by
    rw [decide_eq_true_eq]
    rintro rfl
    exact h hx

/-- Induction over the rounds of the loop. -/
theorem relay_induction {P : List UInt8 → Prop} (hnil : P [])
    (hround : ∀ input, input ≠ [] → P (gets BUFSIZE input).2 → P input) (input : List UInt8) : P input := by
  induction hn : input.length using Nat.strongRecOn generalizing input with
  | _ n ih =>
    subst hn
    by_cases h : input = []
    · exact h ▸ hnil
    · exact hround input h (ih _ (length_rest h) _ rfl)

/-- No zero byte arrives. -/
theorem zero_notMem_relay (input : List UInt8) : 0 ∉ relay input := by
  induction input using relay_induction with
  | hnil => exact List.not_mem_nil
  | hround input h ih =>
    rw [relay_eq h]
    split
    · exact List.not_mem_nil
    · simp only [List.mem_append, List.mem_singleton, not_or]
      exact ⟨⟨zero_notMem_cstring _, by decide⟩, ih⟩

/-- Without zero bytes a round writes what it has read, and a newline. -/
theorem length_relay (h : input ≠ []) (h0 : 0 ∉ input) : 0 ∉ (gets BUFSIZE input).2 ∧
    (relay input).length + (gets BUFSIZE input).2.length =
      input.length + 1 + (relay (gets BUFSIZE input).2).length := by
  have hsplit : (gets BUFSIZE input).1 ++ (gets BUFSIZE input).2 = input := getsLoop_append _ _
  have h0' : 0 ∉ (gets BUFSIZE input).1 ∧ 0 ∉ (gets BUFSIZE input).2 := by
    rwa [← hsplit, List.mem_append, not_or] at h0
  have hlen := congrArg List.length hsplit
  have hpos := List.length_pos_of_ne_nil (gets_ne_nil h)
  rw [List.length_append] at hlen
  rw [relay_eq h, cstring_eq h0'.1, if_neg (by omega)]
  simp only [List.length_append, List.length_singleton]
  exact ⟨h0'.2, by omega⟩

theorem length_le_relay (h0 : 0 ∉ input) : input.length ≤ (relay input).length := by
  induction input using relay_induction with
  | hnil => exact Nat.le_refl _
  | hround input h ih =>
    obtain ⟨h0', hlen⟩ := length_relay h h0
    have := ih h0'
    omega

theorem length_lt_relay (h : input ≠ []) (h0 : 0 ∉ input) : input.length < (relay input).length := by
  obtain ⟨h0', hlen⟩ := length_relay h h0
  have := length_le_relay h0'
  omega

/-- Whatever the number of loops that the output of a command goes through, it arrives unchanged only if
    there is none. -/
theorem relay_faithful (out : List UInt8) (loops : Nat) : relay^[loops + 1] out = out ↔ out = [] := by
  have hzero : ∀ k, 0 ∉ relay^[k + 1] out := by
    intro k
    rw [Function.iterate_succ_apply']
    exact zero_notMem_relay _
  constructor
  · intro h
    by_contra hne
    have hlonger : ∀ k, out.length < (relay^[k + 1] out).length := by
      intro k
      induction k with
      | zero => exact length_lt_relay hne (h ▸ hzero loops)
      | succ k ih =>
        rw [Function.iterate_succ_apply']
        exact Nat.lt_of_lt_of_le ih (length_le_relay (hzero k))
    have := hlonger loops
    rw [h] at this
    exact Nat.lt_irrefl _ this
  · rintro rfl
    exact Function.iterate_fixed relay_nil _

/-- `echo a > f` leaves an empty line in `f`. -/
theorem relay_not_faithful : relay [97, newline] = [97, newline, newline] ∧ relay [97, newline] ≠ [97, newline] := by
  decide

end Xv6.Nsh
