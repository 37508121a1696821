import Xv6.User.Ulib

/-! The regular expressions of grep (`grep.c`).

    ```
    c*   any number of c        $   at the end: the end of the text
    .    any character          ^   at the start: only look at the start of the text
    c    the character c
    ```

    `match` looks for a place where `matchhere` accepts; `matchhere` and `matchstar` try one way after
    another. The meaning of a pattern is a list of items, each of which takes a part of the text. -/

namespace Xv6.Grep
open Ulib (Str)

/-- `'^'`, `'$'`, `'*'` and `'.'`. -/
def caret : UInt8 := 94
def dollar : UInt8 := 36
def asterisk : UInt8 := 42
def dot : UInt8 := 46

/-! ### The matcher -/

/-- The loop of `matchstar`; `here` is `matchhere` of the pattern after the star. -/
def matchstar (c : UInt8) (here : Str → Bool) : Str → Bool
  | [] => here []
  | t :: text => here (t :: text) || (t == c || c == dot) && matchstar c here text

/-- The last test of `matchhere`; `here` is `matchhere` of the pattern after `c`. -/
def matchone (c : UInt8) (here : Str → Bool) : Str → Bool
  | [] => false
  | t :: text => (c == dot || c == t) && here text

def matchhere : Str → Str → Bool
  | [], _ => true
  | [c], text => if c = dollar then text.isEmpty else matchone c (fun _ => true) text
  | c :: d :: re, text =>
    if d = asterisk then matchstar c (matchhere re) text else matchone c (matchhere (d :: re)) text

/-- The loop of `match`, which looks at the empty string too. -/
def matchLoop (re : Str) : Str → Bool
  | [] => matchhere re []
  | t :: text => matchhere re (t :: text) || matchLoop re text

/-- `match`. -/
def matchRe (re text : Str) : Bool :=
  if re.head? = some caret then matchhere re.tail text else matchLoop re text

/-! ### What patterns mean -/

inductive Item
  | star (c : UInt8)
  | one (c : UInt8)
  | endOfText
  deriving DecidableEq

/-- The items of a pattern, from left to right. -/
def items : Str → List Item
  | [] => []
  | [c] => if c = dollar then [.endOfText] else [.one c]
  | c :: d :: re => if d = asterisk then .star c :: items re else .one c :: items (d :: re)

/-- The character `c` of a pattern stands for `x`. -/
def Fits (c x : UInt8) : Prop := c = dot ∨ c = x

/-- The item takes the start of `text` and leaves `rest`. -/
def Item.Takes (text rest : Str) : Item → Prop
  | .star c => ∃ s, text = s ++ rest ∧ ∀ x ∈ s, Fits c x
  | .one c => ∃ x, text = x :: rest ∧ Fits c x
  | .endOfText => text = [] ∧ rest = []

/-- The items take a prefix of the text, one after another. -/
def Matches : List Item → Str → Prop
  | [], _ => True
  | i :: is, text => ∃ rest, i.Takes text rest ∧ Matches is rest

/-- The text has a place at which the pattern matches; with `'^'` that place is its start. -/
def Found (re text : Str) : Prop :=
  if re.head? = some caret then Matches (items re.tail) text
  else ∃ before rest, text = before ++ rest ∧ Matches (items re) rest

/-! ### The matcher decides the meaning -/

variable {c : UInt8} {here : Str → Bool} {is : List Item}

/-- The loop finds the longest run that `c` stands for, and accepts at one of its places. -/
theorem matchstar_iff (hhere : ∀ text, here text = true ↔ Matches is text) (text : Str) :
    matchstar c here text = true ↔ Matches (.star c :: is) text := by
  induction text with
  | nil =>
    rw [matchstar, hhere]
    refine ⟨fun h => ⟨[], ⟨[], rfl, by simp⟩, h⟩, ?_⟩
    rintro ⟨rest, ⟨s, hs, _⟩, h⟩
    obtain ⟨-, rfl⟩ := List.append_eq_nil_iff.mp hs.symm
    exact h
  | cons t text ih =>
    rw [matchstar, Bool.or_eq_true, Bool.and_eq_true, ih, hhere, Bool.or_eq_true, beq_iff_eq, beq_iff_eq]
    constructor
    · rintro (h | ⟨hc, rest, ⟨s, rfl, hs⟩, h⟩)
      · exact ⟨t :: text, ⟨[], rfl, by simp⟩, h⟩
      · have ht : Fits c t := hc.symm.imp id Eq.symm
        exact ⟨rest, ⟨t :: s, rfl, by simpa [ht] using hs⟩, h⟩
    · rintro ⟨rest, ⟨s, hs, hfits⟩, h⟩
      cases s with
      | nil => exact .inl (hs ▸ h)
      | cons x s =>
        obtain ⟨rfl, rfl⟩ := List.cons_eq_cons.mp hs
        have ht : Fits c t := hfits t (by simp)
        exact .inr ⟨ht.symm.imp Eq.symm id, rest, ⟨s, rfl, fun x hx => hfits x (by simp [hx])⟩, h⟩

theorem matchone_iff (hhere : ∀ text, here text = true ↔ Matches is text) (text : Str) :
    matchone c here text = true ↔ Matches (.one c :: is) text := by
  cases text with
  | nil => simp [matchone, Matches, Item.Takes]
  | cons t text =>
    rw [matchone, Bool.and_eq_true, hhere, Bool.or_eq_true, beq_iff_eq, beq_iff_eq]
    constructor
    · rintro ⟨hc, h⟩
      exact ⟨text, ⟨t, rfl, hc⟩, h⟩
    · rintro ⟨rest, ⟨x, hx, hc⟩, h⟩
      obtain ⟨rfl, rfl⟩ := List.cons_eq_cons.mp hx
      exact ⟨hc, h⟩

theorem matchhere_iff (re text : Str) : matchhere re text = true ↔ Matches (items re) text := by
  fun_induction items re generalizing text with
  | case1 => simp [matchhere, Matches]
  | case2 => simp [matchhere, Matches, Item.Takes]
  | case3 c hc =>
    rw [matchhere, if_neg hc]
    exact matchone_iff (by simp [Matches]) text
  | case4 c re ih =>
    rw [matchhere, if_pos rfl]
    exact matchstar_iff ih text
  | case5 c d re hd ih =>
    rw [matchhere, if_neg hd]
    exact matchone_iff ih text

theorem matchLoop_iff (re text : Str) :
    matchLoop re text = true ↔ ∃ before rest, text = before ++ rest ∧ Matches (items re) rest := by
  induction text with
  | nil => simp [matchLoop, matchhere_iff]
  | cons t text ih =>
    rw [matchLoop, Bool.or_eq_true, ih, matchhere_iff]
    constructor
    · rintro (h | ⟨before, rest, rfl, h⟩)
      · exact ⟨[], t :: text, rfl, h⟩
      · exact ⟨t :: before, rest, rfl, h⟩
    · rintro ⟨before, rest, htext, h⟩
      cases before with
      | nil => exact .inl (htext ▸ h)
      | cons x before => exact .inr ⟨before, rest, (List.cons_eq_cons.mp htext).2, h⟩

/-- For every pattern and every text `match` returns, and it returns 1 iff the pattern is found. -/
theorem match_correct (re text : Str) : matchRe re text = true ↔ Found re text := by
  rw [matchRe, Found]
  split
  · exact matchhere_iff re.tail text
  · exact matchLoop_iff re text

end Xv6.Grep
