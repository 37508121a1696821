import Mathlib.Data.Nat.Basic
import Mathlib.Tactic.Ring

/-! Fixed-size byte blocks and the little-endian integers stored in them.

    A block is an array of `n` bytes. `getLE` reads an unsigned little-endian integer of `len` bytes
    at a byte offset and `putLE` stores one, truncated to its width. The two laws a client needs
    are that a store is read back modulo `256 ^ len`, and that a read of a disjoint range does
    not see the store. -/

namespace Xv6.Bytes

/-- An array of `n` bytes. -/
def Blk (n : Nat) : Type := Fin n → UInt8

variable {n : Nat}

/-- The byte at offset `i`; an offset past the end reads as zero. -/
def byte (b : Blk n) (i : Nat) : UInt8 := if h : i < n then b ⟨i, h⟩ else 0

/-- Store one byte; a store past the end has no effect. -/
def setByte (b : Blk n) (i : Nat) (v : UInt8) : Blk n := fun j => if j.val = i then v else b j

/-- Read `len` bytes at `off` as a little-endian integer. -/
def getLE (b : Blk n) (off : Nat) : Nat → Nat
  | 0 => 0
  | len + 1 => (byte b off).toNat + 256 * getLE b (off + 1) len

/-- Store the low `len` bytes of `v` at `off`, least significant first. -/
def putLE (b : Blk n) (off : Nat) : Nat → Nat → Blk n
  | 0, _ => b
  | len + 1, v => putLE (setByte b off (UInt8.ofNat v)) (off + 1) len (v / 256)

theorem byte_setByte_self (b : Blk n) {i : Nat} (v : UInt8) (hi : i < n) :
    byte (setByte b i v) i = v := by
  simp [byte, setByte, hi]

theorem byte_setByte_of_ne (b : Blk n) {i j : Nat} (v : UInt8) (hij : j ≠ i) :
    byte (setByte b i v) j = byte b j := by
  by_cases hj : j < n
  · simp [byte, setByte, hj, hij]
  · simp [byte, hj]

/-- A stored range leaves every byte outside it alone. -/
theorem byte_putLE_of_disjoint (b : Blk n) (off len v j : Nat) (h : j < off ∨ off + len ≤ j) :
    byte (putLE b off len v) j = byte b j := by
  induction len generalizing b off v with
  | zero => rfl
  | succ len ih =>
    rw [putLE, ih _ _ _ (by omega), byte_setByte_of_ne _ _ (by omega)]

theorem getLE_congr {m : Nat} (a : Blk n) (b : Blk m) (off off' len : Nat)
    (h : ∀ i, i < len → byte a (off + i) = byte b (off' + i)) : getLE a off len = getLE b off' len := by
  induction len generalizing off off' with
  | zero => rfl
  | succ len ih =>
    have h0 := h 0 (by omega)
    simp only [Nat.add_zero] at h0
    rw [getLE, getLE, h0, ih (off + 1) (off' + 1)]
    intro i hi
    have := h (i + 1) (by omega)
    rwa [← Nat.add_assoc, ← Nat.add_assoc, Nat.add_right_comm off, Nat.add_right_comm off'] at this

theorem getLE_putLE_of_disjoint (b : Blk n) (off len v off' len' : Nat)
    (h : off' + len' ≤ off ∨ off + len ≤ off') :
    getLE (putLE b off len v) off' len' = getLE b off' len' :=
  getLE_congr _ _ _ _ _ fun i hi => byte_putLE_of_disjoint b off len v (off' + i) (by omega)

theorem getLE_putLE_self (b : Blk n) (off len v : Nat) (h : off + len ≤ n) :
    getLE (putLE b off len v) off len = v % 256 ^ len := by
  induction len generalizing b off v with
  | zero => simp [getLE, Nat.mod_one]
  | succ len ih =>
    have hlow : byte (putLE (setByte b off (UInt8.ofNat v)) (off + 1) len (v / 256)) off
        = UInt8.ofNat v := by
      rw [byte_putLE_of_disjoint _ _ _ _ _ (by omega), byte_setByte_self _ _ (by omega)]
    have hbyte : (UInt8.ofNat v).toNat = v % 256 := UInt8.toNat_ofNat'
    rw [putLE, getLE, hlow, ih _ _ _ (by omega), hbyte, pow_succ' 256 len,
      Nat.mod_mul]

end Xv6.Bytes
