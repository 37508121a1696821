import Mathlib.Data.Nat.Bitwise
import Mathlib.Data.List.FinRange
import Xv6.Schemes.Update
import Xv6.Kernel.Fs.Inode

/-! The on-disk format of the file system (`fs.h`).

    ```
    boot │ super │ log │ inode blocks │ bitmap │ data blocks
                   ▲     ▲              ▲        ▲            ▲
            logstart  inodestart    bmapstart  nmeta        size
    ```

    Inodes, bitmap bits and directory entries are read from and written to the bytes of blocks. What
    the rest of the development needs is how these views change with a write: a write of one inode
    or one bit changes that one alone, and nothing in the data blocks. -/

namespace Xv6.Fs
open Bytes Update Function

/-- Inodes per block. -/
def IPB : Nat := BSIZE / 64

/-- Bitmap bits per block. -/
def BPB : Nat := BSIZE * 8

/-- Length of a name in a directory entry. -/
def DIRSIZ : Nat := 14

/-- `struct superblock`, with the regions it describes in their order. Block numbers fit an `int`,
    inode numbers the `ushort` of a directory entry. -/
structure Superblock where
  size : Nat
  nblocks : Nat
  ninodes : Nat
  nlog : Nat
  logstart : Nat
  inodestart : Nat
  bmapstart : Nat
  log : 2 ≤ logstart
  inodes : logstart + nlog ≤ inodestart
  bitmap : inodestart + (ninodes - 1) / IPB < bmapstart
  data : bmapstart + (size - 1) / BPB + nblocks < size
  int : size < 2 ^ 31
  ushort : ninodes ≤ 2 ^ 16
  root : ROOTINO < ninodes

namespace Superblock

/-- The number of metadata blocks; the data blocks follow. -/
def nmeta (sb : Superblock) : Nat := sb.size - sb.nblocks

/-- `IBLOCK`: the block that contains inode `i`. -/
def iblock (sb : Superblock) (i : Nat) : Nat := i / IPB + sb.inodestart

/-- `BBLOCK`: the block of the free map that contains the bit for block `b`. -/
def bblock (sb : Superblock) (b : Nat) : Nat := b / BPB + sb.bmapstart

variable {sb : Superblock} {i b : Nat}

theorem iblock_lt (hi : i < sb.ninodes) : sb.iblock i < sb.bmapstart := by
  have h₁ := sb.bitmap
  have h₂ : i / IPB ≤ (sb.ninodes - 1) / IPB := Nat.div_le_div_right (by omega)
  unfold iblock
  omega

theorem bblock_ge (b : Nat) : sb.bmapstart ≤ sb.bblock b := Nat.le_add_left _ _

theorem bblock_lt (hb : b < sb.size) : sb.bblock b < sb.nmeta := by
  have h₁ := sb.data
  have h₂ : b / BPB ≤ (sb.size - 1) / BPB := Nat.div_le_div_right (by omega)
  unfold bblock nmeta
  omega

theorem bmapstart_lt : sb.bmapstart < sb.nmeta := by
  have h := sb.data
  generalize (sb.size - 1) / BPB = n at h
  unfold nmeta
  omega

end Superblock

/-! ### Inodes -/

/-- A `short` stored in two bytes. -/
def short (n : Nat) : Int16 := (UInt16.ofNat n).toInt16

/-- The two bytes it is stored in, as a number. -/
def unshort (x : Int16) : Nat := x.toUInt16.toNat

theorem short_unshort (x : Int16) : short (unshort x % 256 ^ 2) = x := by
  have hlt : unshort x < 256 ^ 2 := x.toUInt16.toNat_lt
  rw [Nat.mod_eq_of_lt hlt, short, unshort, UInt16.ofNat_toNat]
  rfl

/-- The 64 bytes of a `struct dinode`. -/
def getDinode (blk : Block) (off : Nat) : Dinode where
  type := short (getLE blk off 2)
  major := short (getLE blk (off + 2) 2)
  minor := short (getLE blk (off + 4) 2)
  nlink := short (getLE blk (off + 6) 2)
  size := UInt32.ofNat (getLE blk (off + 8) 4)
  addrs j := UInt32.ofNat (getLE blk (off + 12 + 4 * j) 4)

def putAddrs (blk : Block) (off : Nat) (addrs : Fin (NDIRECT + 1) → UInt32) : Block :=
  (List.finRange (NDIRECT + 1)).foldl (fun blk (j : Fin _) => putLE blk (off + 4 * j) 4 (addrs j).toNat) blk

def putDinode (blk : Block) (off : Nat) (d : Dinode) : Block :=
  let blk := putLE blk off 2 (unshort d.type)
  let blk := putLE blk (off + 2) 2 (unshort d.major)
  let blk := putLE blk (off + 4) 2 (unshort d.minor)
  let blk := putLE blk (off + 6) 2 (unshort d.nlink)
  let blk := putLE blk (off + 8) 4 d.size.toNat
  putAddrs blk (off + 12) d.addrs

theorem getLE_foldl_putLE (js : List (Fin (NDIRECT + 1))) (addrs : Fin (NDIRECT + 1) → UInt32)
    (blk : Block) (off off' len : Nat)
    (h : ∀ j ∈ js, off' + len ≤ off + 4 * j ∨ off + 4 * j + 4 ≤ off') :
    getLE (js.foldl (fun blk (j : Fin _) => putLE blk (off + 4 * j) 4 (addrs j).toNat) blk) off' len =
      getLE blk off' len := by
  induction js generalizing blk with
  | nil => rfl
  | cons j js ih =>
    rw [List.foldl_cons, ih _ fun k hk => h k (List.mem_cons_of_mem j hk),
      getLE_putLE_of_disjoint _ _ _ _ _ _ (h j List.mem_cons_self)]

theorem getLE_putAddrs (blk : Block) (off : Nat) (addrs : Fin (NDIRECT + 1) → UInt32)
    (j : Fin (NDIRECT + 1)) (hfit : off + 52 ≤ BSIZE) :
    getLE (putAddrs blk off addrs) (off + 4 * j) 4 = (addrs j).toNat := by
  have hmem : j ∈ List.finRange (NDIRECT + 1) := List.mem_finRange j
  obtain ⟨xs, ys, hsplit⟩ := List.append_of_mem hmem
  have hnodup : (xs ++ j :: ys).Nodup := hsplit ▸ List.nodup_finRange _
  have hys : ∀ k ∈ ys, off + 4 * j.val + 4 ≤ off + 4 * k.val ∨ off + 4 * k.val + 4 ≤ off + 4 * j.val := by
    intro k hk
    have hne : j ≠ k := by
      have := (List.nodup_append.mp hnodup).2.1
      rintro rfl
      exact (List.nodup_cons.mp this).1 hk
    have : j.val ≠ k.val := fun hv => hne (Fin.ext hv)
    omega
  have hj : j.val < 13 := j.isLt
  rw [putAddrs, hsplit, List.foldl_append, List.foldl_cons, getLE_foldl_putLE _ _ _ _ _ _ hys,
    getLE_putLE_self _ _ _ _ (by omega)]
  exact Nat.mod_eq_of_lt (addrs j).toNat_lt

theorem getLE_putAddrs_of_disjoint (blk : Block) (off off' len : Nat)
    (addrs : Fin (NDIRECT + 1) → UInt32) (h : off' + len ≤ off ∨ off + 52 ≤ off') :
    getLE (putAddrs blk off addrs) off' len = getLE blk off' len := by
  refine getLE_foldl_putLE _ _ _ _ _ _ fun j _ => ?_
  have hj : j.val < 13 := j.isLt
  omega

theorem getLE_putDinode_of_disjoint (blk : Block) (off off' len : Nat) (d : Dinode)
    (h : off' + len ≤ off ∨ off + 64 ≤ off') :
    getLE (putDinode blk off d) off' len = getLE blk off' len := by
  rw [putDinode, getLE_putAddrs_of_disjoint _ _ _ _ _ (by omega)]
  repeat rw [getLE_putLE_of_disjoint _ _ _ _ _ _ (by omega)]

/-- An inode is read back as it was written. -/
theorem getDinode_putDinode (blk : Block) (off : Nat) (d : Dinode) (hfit : off + 64 ≤ BSIZE) :
    getDinode (putDinode blk off d) off = d := by
  have hfield : ∀ o len, o + len ≤ 12 → getLE (putDinode blk off d) (off + o) len =
      getLE (putLE (putLE (putLE (putLE (putLE blk off 2 (unshort d.type)) (off + 2) 2 (unshort d.major))
        (off + 4) 2 (unshort d.minor)) (off + 6) 2 (unshort d.nlink)) (off + 8) 4 d.size.toNat)
        (off + o) len := fun o len ho => by
    rw [putDinode, getLE_putAddrs_of_disjoint _ _ _ _ _ (by omega)]
  ext1
  · have := hfield 0 2 (by omega)
    rw [Nat.add_zero] at this
    simp only [getDinode]
    rw [this]
    repeat rw [getLE_putLE_of_disjoint _ _ _ _ _ _ (by omega)]
    rw [getLE_putLE_self _ _ _ _ (by omega), short_unshort]
  · simp only [getDinode]
    rw [hfield 2 2 (by omega)]
    repeat rw [getLE_putLE_of_disjoint _ _ _ _ _ _ (by omega)]
    rw [getLE_putLE_self _ _ _ _ (by omega), short_unshort]
  · simp only [getDinode]
    rw [hfield 4 2 (by omega)]
    repeat rw [getLE_putLE_of_disjoint _ _ _ _ _ _ (by omega)]
    rw [getLE_putLE_self _ _ _ _ (by omega), short_unshort]
  · simp only [getDinode]
    rw [hfield 6 2 (by omega), getLE_putLE_of_disjoint _ _ _ _ _ _ (by omega),
      getLE_putLE_self _ _ _ _ (by omega), short_unshort]
  · simp only [getDinode]
    have hlt : d.size.toNat < 256 ^ 4 := d.size.toNat_lt
    rw [hfield 8 4 (by omega), getLE_putLE_self _ _ _ _ (by omega), Nat.mod_eq_of_lt hlt,
      UInt32.ofNat_toNat]
  · funext j
    simp only [getDinode, putDinode]
    rw [getLE_putAddrs _ _ _ _ (by omega), UInt32.ofNat_toNat]

theorem getDinode_putDinode_of_disjoint (blk : Block) (off off' : Nat) (d : Dinode)
    (h : off' + 64 ≤ off ∨ off + 64 ≤ off') :
    getDinode (putDinode blk off d) off' = getDinode blk off' := by
  ext1
  case addrs =>
    funext j
    have hj : j.val < 13 := j.isLt
    simp only [getDinode]
    rw [getLE_putDinode_of_disjoint _ _ _ _ _ (by omega)]
  all_goals
    simp only [getDinode]
    rw [getLE_putDinode_of_disjoint _ _ _ _ _ (by omega)]

/-! ### The free map -/

/-- `bp->data[bi/8] & m` with `m = 1 << (bi % 8)`: is the bit set? -/
def testBit (blk : Block) (bi : Nat) : Bool := (byte blk (bi / 8)).toNat &&& 1 <<< (bi % 8) != 0

/-- `bp->data[bi/8] |= m`, and `bp->data[bi/8] &= ~m`. -/
def putBit (blk : Block) (bi : Nat) (v : Bool) : Block :=
  let x := (byte blk (bi / 8)).toNat
  let m := 1 <<< (bi % 8)
  setByte blk (bi / 8) (UInt8.ofNat (if v then x ||| m else x.ldiff m))

theorem testBit_eq (blk : Block) (bi : Nat) :
    testBit blk bi = (byte blk (bi / 8)).toNat.testBit (bi % 8) := by
  rw [testBit, Nat.one_shiftLeft, Nat.and_two_pow]
  cases (byte blk (bi / 8)).toNat.testBit (bi % 8) <;> simp

theorem testBit_putBit (blk : Block) (bi bj : Nat) (v : Bool) (hi : bi < BPB) :
    testBit (putBit blk bi v) bj = if bj = bi then v else testBit blk bj := by
  -- the new byte, bit by bit
  have hnew : ∀ k, k < 8 → (UInt8.ofNat (if v then (byte blk (bi / 8)).toNat ||| 1 <<< (bi % 8)
      else (byte blk (bi / 8)).toNat.ldiff (1 <<< (bi % 8)))).toNat.testBit k =
      if k = bi % 8 then v else (byte blk (bi / 8)).toNat.testBit k := by
    intro k hk
    rw [UInt8.toNat_ofNat', Nat.testBit_mod_two_pow]
    simp only [hk, decide_true, Bool.true_and]
    cases v
    · simp only [Bool.false_eq_true, if_false, Nat.testBit_ldiff, Nat.one_shiftLeft, Nat.testBit_two_pow]
      by_cases hkb : k = bi % 8
      · simp [hkb]
      · simp [hkb, Ne.symm hkb]
    · simp only [if_true, Nat.testBit_or, Nat.one_shiftLeft, Nat.testBit_two_pow]
      by_cases hkb : k = bi % 8
      · simp [hkb]
      · simp [hkb, Ne.symm hkb]
  have hbyte : bi / 8 < BSIZE := by
    have : BPB = 8192 := rfl
    have : BSIZE = 1024 := rfl
    omega
  rw [testBit_eq, testBit_eq]
  by_cases hsame : bj / 8 = bi / 8
  · rw [hsame, putBit, byte_setByte_self _ _ hbyte, hnew _ (Nat.mod_lt _ (by decide))]
    by_cases hb : bj = bi
    · simp [hb]
    · rw [if_neg hb, if_neg (by omega)]
  · rw [putBit, byte_setByte_of_ne _ _ hsame, if_neg (by rintro rfl; exact hsame rfl)]

/-! ### Views of a disk -/

section Views

variable (sb : Superblock)

/-- Inode `i` of a disk. -/
def dinodeAt (d : Disk) (i : Nat) : Dinode := getDinode (d (sb.iblock i)) (64 * (i % IPB))

/-- The disk after inode `i` has been written. -/
def putDinodeAt (d : Disk) (i : Nat) (x : Dinode) : Disk :=
  update d (sb.iblock i) (putDinode (d (sb.iblock i)) (64 * (i % IPB)) x)

/-- Is block `b` in use, according to the free map? -/
def bitAt (d : Disk) (b : Nat) : Bool := testBit (d (sb.bblock b)) (b % BPB)

def putBitAt (d : Disk) (b : Nat) (v : Bool) : Disk :=
  update d (sb.bblock b) (putBit (d (sb.bblock b)) (b % BPB) v)

variable {sb} {d : Disk} {i j b c : Nat}

theorem ipb_mod (i : Nat) : 64 * (i % IPB) + 64 ≤ BSIZE := by
  have : i % IPB < IPB := Nat.mod_lt _ (by decide)
  have : IPB = 16 := rfl
  have : BSIZE = 1024 := rfl
  omega

theorem dinodeAt_putDinodeAt (x : Dinode) :
    dinodeAt sb (putDinodeAt sb d i x) j = if j = i then x else dinodeAt sb d j := by
  by_cases hij : j = i
  · subst hij
    rw [dinodeAt, putDinodeAt, update_self, getDinode_putDinode _ _ _ (ipb_mod j), if_pos rfl]
  · rw [if_neg hij, dinodeAt, putDinodeAt]
    by_cases hblk : sb.iblock j = sb.iblock i
    · -- two inodes of one block
      rw [hblk, update_self, getDinode_putDinode_of_disjoint, dinodeAt, hblk]
      have hdiv : j / IPB = i / IPB := Nat.add_right_cancel hblk
      have hmod : j % IPB ≠ i % IPB := fun hmod => hij <| by
        rw [← Nat.div_add_mod j IPB, ← Nat.div_add_mod i IPB, hdiv, hmod]
      omega
    · rw [update_of_ne hblk, dinodeAt]

theorem bitAt_putBitAt (v : Bool) :
    bitAt sb (putBitAt sb d b v) c = if c = b then v else bitAt sb d c := by
  have hlt : b % BPB < BPB := Nat.mod_lt _ (by decide)
  by_cases hblk : sb.bblock c = sb.bblock b
  · rw [bitAt, putBitAt, hblk, update_self, testBit_putBit _ _ _ _ hlt, bitAt, hblk]
    have hdiv : c / BPB = b / BPB := Nat.add_right_cancel hblk
    by_cases hbc : c = b
    · subst hbc; simp
    · have hmod : c % BPB ≠ b % BPB := fun hmod => hbc <| by
        rw [← Nat.div_add_mod c BPB, ← Nat.div_add_mod b BPB, hdiv, hmod]
      rw [if_neg hmod, if_neg hbc]
  · rw [bitAt, putBitAt, update_of_ne hblk, if_neg (by rintro rfl; exact hblk rfl), bitAt]

theorem bitAt_putDinodeAt (hi : i < sb.ninodes) (x : Dinode) :
    bitAt sb (putDinodeAt sb d i x) b = bitAt sb d b := by
  have h₁ := sb.iblock_lt hi
  have h₂ := sb.bblock_ge b
  rw [bitAt, putDinodeAt, update_of_ne (by omega), bitAt]

theorem dinodeAt_putBitAt (hi : i < sb.ninodes) (v : Bool) :
    dinodeAt sb (putBitAt sb d b v) i = dinodeAt sb d i := by
  have h₁ := sb.iblock_lt hi
  have h₂ := sb.bblock_ge b
  rw [dinodeAt, putBitAt, update_of_ne (by omega), dinodeAt]

theorem dinodeAt_update (hi : i < sb.ninodes) (hb : sb.nmeta ≤ b) (blk : Block) :
    dinodeAt sb (update d b blk) i = dinodeAt sb d i := by
  have h₁ := sb.iblock_lt hi
  have h₂ := sb.bmapstart_lt
  rw [dinodeAt, update_of_ne (by omega), dinodeAt]

theorem bitAt_update (hc : c < sb.size) (hb : sb.nmeta ≤ b) (blk : Block) :
    bitAt sb (update d b blk) c = bitAt sb d c := by
  have h₁ := sb.bblock_lt hc
  rw [bitAt, update_of_ne (by omega), bitAt]

theorem putDinodeAt_data (hi : i < sb.ninodes) (hb : sb.nmeta ≤ b) (x : Dinode) :
    putDinodeAt sb d i x b = d b := by
  have h₁ := sb.iblock_lt hi
  have h₂ := sb.bmapstart_lt
  rw [putDinodeAt, update_of_ne (by omega)]

theorem putBitAt_data (hc : c < sb.size) (hb : sb.nmeta ≤ b) (v : Bool) : putBitAt sb d c v b = d b := by
  have h₁ := sb.bblock_lt hc
  rw [putBitAt, update_of_ne (by omega)]

end Views

end Xv6.Fs
