import Mathlib.Data.List.Range
import Xv6.Kernel.Param

/-! The header block of the on-disk log (`struct logheader` of `log.c`).

    The block starts with the 32-bit count `n`, followed by the array `block` of 32-bit home block
    numbers. In memory the header is the list of the first `n` entries. `putHead` is what
    `write_head` does to the cached header block, `getHead` is what `read_head` takes from it;
    neither touches the bytes behind the `n` entries. -/

namespace Xv6.Log
open Bytes

/-- `hb->block[i] = lh.block[i]` for the entries from index `i` on. -/
def putBlocks (hb : Block) (i : Nat) : List Nat → Block
  | [] => hb
  | b :: bs => putBlocks (putLE hb (4 + 4 * i) 4 b) (i + 1) bs

/-- `write_head`'s update of the cached header block. -/
def putHead (hb : Block) (lh : List Nat) : Block := putBlocks (putLE hb 0 4 lh.length) 0 lh

/-- The signed `int n` at the start of a header block. -/
def headN (hb : Block) : Int :=
  let w := getLE hb 0 4
  if w < 2 ^ 31 then w else (w : Int) - 2 ^ 32

/-- `read_head`: the entries `block[0..n)`; a count `n ≤ 0` copies none. -/
def getHead (hb : Block) : List Nat :=
  (List.range (headN hb).toNat).map fun i => getLE hb (4 + 4 * i) 4

/-! ### Reading back what was stored -/

theorem getLE_putBlocks_of_le (bs : List Nat) (hb : Block) (i off : Nat) (h : off + 4 ≤ 4 + 4 * i) :
    getLE (putBlocks hb i bs) off 4 = getLE hb off 4 := by
  induction bs generalizing hb i with
  | nil => rfl
  | cons b bs ih =>
    rw [putBlocks, ih _ _ (by omega), getLE_putLE_of_disjoint _ _ _ _ _ _ (by omega)]

theorem getLE_putBlocks (bs : List Nat) (hb : Block) (i j : Nat) (hj : j < bs.length)
    (hfit : 4 + 4 * (i + bs.length) ≤ BSIZE) :
    getLE (putBlocks hb i bs) (4 + 4 * (i + j)) 4 = bs[j] % 2 ^ 32 := by
  induction bs generalizing hb i j with
  | nil => simp at hj
  | cons b bs ih =>
    rw [List.length_cons] at hfit
    cases j with
    | zero =>
      rw [putBlocks, getLE_putBlocks_of_le _ _ _ _ (by omega), Nat.add_zero,
        getLE_putLE_self _ _ _ _ (by omega)]
      rfl
    | succ j =>
      have hrec := ih (putLE hb (4 + 4 * i) 4 b) (i + 1) j (by simpa using hj) (by omega)
      rw [Nat.add_right_comm i 1 j] at hrec
      exact hrec

theorem headN_putHead (hb : Block) (lh : List Nat) (hlen : lh.length ≤ LOGSIZE) :
    headN (putHead hb lh) = lh.length := by
  have hb' : lh.length ≤ 30 := hlen
  have hw : getLE (putHead hb lh) 0 4 = lh.length := by
    rw [putHead, getLE_putBlocks_of_le _ _ _ _ (by omega), getLE_putLE_self _ _ _ _ (by decide)]
    exact Nat.mod_eq_of_lt (by omega)
  rw [headN, hw, if_pos (by omega)]

/-- The header that `write_head` stored is the one `read_head` finds: it holds at most `LOGSIZE`
    entries, so all of them lie inside the block. -/
theorem getHead_putHead (hb : Block) (lh : List Nat) (hlen : lh.length ≤ LOGSIZE)
    (h32 : ∀ b ∈ lh, b < 2 ^ 32) : getHead (putHead hb lh) = lh := by
  have hb' : lh.length ≤ 30 := hlen
  refine List.ext_getElem (by simp [getHead, headN_putHead hb lh hlen]) fun j h1 h2 => ?_
  have hfit : 4 + 4 * (0 + lh.length) ≤ BSIZE := by rw [BSIZE]; omega
  have hj := getLE_putBlocks lh (putLE hb 0 4 lh.length) 0 j h2 hfit
  rw [Nat.zero_add, Nat.mod_eq_of_lt (h32 _ (List.getElem_mem h2))] at hj
  simpa [getHead, putHead] using hj

theorem getHead_putHead_nil (hb : Block) : getHead (putHead hb []) = [] :=
  getHead_putHead hb [] (by simp) (by simp)

end Xv6.Log
