import Xv6.Kernel.Fs.Files

/-! Directories and path names (`fs.c`). -/

namespace Xv6.Fs
open Bytes

/-- A path or one of its elements, without the terminating zero. -/
abbrev Path : Type := List UInt8

/-- `'/'`. -/
def slash : UInt8 := 47

/-- `"."` and `".."`. -/
def dot : Path := [46]
def dotdot : Path := [46, 46]

/-! ### Strings -/

/-- `strncmp`; a string reads as zero after its end. -/
def strncmp (p q : Path) : Nat → Int
  | 0 => 0
  | n + 1 =>
    if p.headD 0 ≠ 0 ∧ p.headD 0 = q.headD 0 then strncmp p.tail q.tail n
    else (p.headD 0).toNat - (q.headD 0).toNat

/-- The `n` bytes `strncpy` writes. -/
def strncpy (t : Path) : Nat → List UInt8
  | 0 => []
  | n + 1 => if t.headD 0 = 0 then List.replicate (n + 1) 0 else t.headD 0 :: strncpy t.tail n

def namecmp (s t : Path) : Int := strncmp s t DIRSIZ

/-! ### Directories -/

/-- `struct dirent`. -/
structure Dirent where
  inum : Nat
  name : List UInt8

namespace Dirent

def size : Nat := 16

def ofBytes (bs : List UInt8) : Dirent where
  inum := (bs.getD 0 0).toNat + 256 * (bs.getD 1 0).toNat
  name := bs.drop 2

/-- The bytes of an entry; the inode number is cut to a `ushort`. -/
def toBytes (de : Dirent) : List UInt8 :=
  UInt8.ofNat (de.inum % 256) :: UInt8.ofNat (de.inum / 256 % 256) :: de.name

def zero : Dirent := ⟨0, List.replicate DIRSIZ 0⟩

end Dirent

/-- Read the entry at `off`; anything but a full entry is a panic. -/
def readDirent (sb : Superblock) (e : EntryId) (off : Nat) (msg : String) : M Dirent := do
  match ← readi sb e off Dirent.size with
  | some bs => if bs.length = Dirent.size then pure (Dirent.ofBytes bs) else panic msg
  | none => panic msg

/-- Write an entry at `off`. -/
def writeDirent (sb : Superblock) (e : EntryId) (off : Nat) (de : Dirent) (msg : String) : M Unit := do
  match ← writei sb e (fun k => de.toBytes[k]?) off Dirent.size with
  | some n => if n = Dirent.size then pure () else panic msg
  | none => panic msg

/-- The offsets of a loop `off < size; off += sizeof(de)`. -/
def offsets (size : Nat) : List Nat := (List.range ((size + 15) / 16)).map (16 * ·)

/-- Look for a directory entry in a directory: its inode, and its byte offset. -/
def dirlookup (sb : Superblock) (dp : EntryId) (name : Path) : M (Option (EntryId × Nat)) := do
  let i ← entry dp
  if i.din.type ≠ T_DIR then panic "dirlookup not DIR"
  else scan (fun off => do
    let de ← readDirent sb dp off "dirlookup read"
    if de.inum = 0 then pure none
    else if namecmp name de.name = 0 then do
      let ip ← iget de.inum
      pure (some (ip, off))
    else pure none) (offsets i.din.size.toNat)

/-- Write a new directory entry into the directory; false is -1. -/
def dirlink (sb : Superblock) (dp : EntryId) (name : Path) (inum : Nat) : M Bool := do
  -- check that name is not present
  match ← dirlookup sb dp name with
  | some (ip, _) =>
    iput sb ip
    pure false
  | none => do
    -- look for an empty dirent
    let i ← entry dp
    let found ← scan (fun off => do
      let de ← readDirent sb dp off "dirlink read"
      if de.inum = 0 then pure (some off) else pure none) (offsets i.din.size.toNat)
    let off := found.getD (16 * ((i.din.size.toNat + 15) / 16))
    writeDirent sb dp off ⟨inum, strncpy name DIRSIZ⟩ "dirlink"
    pure true

/-! ### Paths -/

/-- The next path element, cut to `DIRSIZ` bytes, and the path after it without leading slashes. -/
def skipelem (path : Path) : Option (Path × Path) :=
  match path.dropWhile (· = slash) with
  | [] => none
  | c :: path =>
    let elem := (c :: path).takeWhile (· ≠ slash)
    let rest := (c :: path).dropWhile (· ≠ slash)
    some (elem.take DIRSIZ, rest.dropWhile (· = slash))

/-- `namex`'s loop. Each round removes an element. -/
def namexLoop (sb : Superblock) (nameiparent : Bool) :
    Nat → EntryId → Path → Path → M (Option (EntryId × Path))
  | 0, _, _, _ => pure none
  | fuel + 1, ip, path, name =>
    match skipelem path with
    | none =>
      if nameiparent then do
        iput sb ip
        pure none
      else pure (some (ip, name))
    | some (name, path) => do
      ilock sb ip
      let i ← entry ip
      if i.din.type ≠ T_DIR then do
        iunlockput sb ip
        pure none
      else if nameiparent ∧ path = [] then do
        -- stop one level early
        iunlock ip
        pure (some (ip, name))
      else do
        match ← dirlookup sb ip name with
        | none =>
          iunlockput sb ip
          pure none
        | some (next, _) =>
          iunlockput sb ip
          namexLoop sb nameiparent fuel next path name

/-- Look up the inode for a path name, or the inode of its parent and the last element. -/
def namex (sb : Superblock) (p : Pid) (path : Path) (nameiparent : Bool) :
    M (Option (EntryId × Path)) := do
  if path.headD 0 = slash then
    let ip ← iget ROOTINO
    namexLoop sb nameiparent (path.length + 1) ip path []
  else do
    match ((← get).proc p).cwd with
    | some cwd =>
      idup cwd
      namexLoop sb nameiparent (path.length + 1) cwd path []
    | none => panic "idup"

def namei (sb : Superblock) (p : Pid) (path : Path) : M (Option EntryId) := do
  return (← namex sb p path false).map (·.1)

def nameiparent (sb : Superblock) (p : Pid) (path : Path) : M (Option (EntryId × Path)) :=
  namex sb p path true

end Xv6.Fs
