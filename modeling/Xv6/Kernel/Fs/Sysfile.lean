import Xv6.Kernel.Fs.Exec

/-! The file-system calls (`sysfile.c`, `file.c`, and `fork` and `exit` of `proc.c`).

    Arguments arrive fetched: a path is the bytes of a string, a user buffer is what `copyin` finds at
    each of its addresses. A call whose arguments cannot be fetched returns -1 and does nothing. -/

namespace Xv6.Fs
open Bytes Function

/-! ### Files -/

def file (f : FileId) : M File := do return (← get).ftable f

def State.setFile (s : State) (f : FileId) (ff : File) : State :=
  { s with ftable := update s.ftable f ff }

def setFile (f : FileId) (ff : File) : M Unit := modify (·.setFile f ff)

def State.setProc (s : State) (p : Pid) (q : Proc) : State :=
  { s with proc := update s.proc p q }

def setProc (p : Pid) (q : Proc) : M Unit := modify (·.setProc p q)

/-- Allocate a file structure. -/
def filealloc : M (Option FileId) := do
  let s ← get
  match (List.finRange NFILE).find? fun f => (s.ftable f).ref == 0 with
  | some f =>
    setFile f { s.ftable f with ref := 1 }
    pure (some f)
  | none => pure none

/-- Increment the reference count of a file. -/
def filedup (f : FileId) : M Unit := do
  let ff ← file f
  if ff.ref < 1 then panic "filedup" else setFile f { ff with ref := ff.ref + 1 }

/-- Close a file: decrement the reference count, close when it reaches 0. -/
def fileclose (sb : Superblock) (f : FileId) : M Unit := do
  let ff ← file f
  if ff.ref < 1 then panic "fileclose"
  else if 1 < ff.ref then setFile f { ff with ref := ff.ref - 1 }
  else do
    setFile f { ff with ref := 0, type := .none }
    match ff.type with
    | .none => pure ()
    | .inode | .device =>
      iput sb ff.ip
      endOp

/-- `f->off += r` for `r > 0`. -/
def advance (f : FileId) (ff : File) : Option Nat → M Unit
  | some r => setFile f { ff with off := ff.off + r }
  | none => pure ()

/-- Read from a file; the bytes go to the user, who may have given a bad address for them. -/
def fileread (sb : Superblock) (f : FileId) (n : Nat) : M Unit := do
  let ff ← file f
  if ff.readable = false then pure ()
  else match ff.type with
    | .device => pure ()
    | .inode => do
      ilock sb ff.ip
      let r ← readi sb ff.ip ff.off n
      advance f ff (r.map List.length)
      iunlock ff.ip
    | .none => panic "fileread"

/-- The most bytes one transaction of a write takes. -/
def writeMax : Nat := (MAXOPBLOCKS - 1 - 1 - 2) / 2 * BSIZE

/-- `filewrite`'s loop: a few blocks at a time. -/
def filewriteLoop (sb : Superblock) (f : FileId) (src : Nat → Option UInt8) (n : Nat) : Nat → Nat → M Unit
  | 0, _ => pure ()
  | fuel + 1, i =>
    if i < n then do
      let n1 := min (n - i) writeMax
      let ff ← file f
      ilock sb ff.ip
      let r ← writei sb ff.ip (fun j => src (i + j)) ff.off n1
      advance f ff r
      iunlock ff.ip
      endOp
      match r with
      | some k => if k ≠ n1 then panic "short filewrite" else filewriteLoop sb f src n fuel (i + k)
      | none => pure ()
    else pure ()

/-- Write to a file. -/
def filewrite (sb : Superblock) (f : FileId) (src : Nat → Option UInt8) (n : Nat) : M Unit := do
  let ff ← file f
  if ff.writable = false then pure ()
  else match ff.type with
    | .device => pure ()
    | .inode => filewriteLoop sb f src n n 0
    | .none => panic "filewrite"

/-- Stat a file. -/
def filestat (sb : Superblock) (f : FileId) : M Unit := do
  let ff ← file f
  match ff.type with
  | .inode | .device =>
    ilock sb ff.ip
    iunlock ff.ip
  | .none => pure ()

/-! ### System calls -/

/-- The open file of a descriptor. -/
def argfd (p : Pid) (fd : Nat) : M (Option FileId) := do
  let s ← get
  pure (if h : fd < NOFILE then (s.proc p).ofile ⟨fd, h⟩ else none)

def setFd (p : Pid) (fd : Fin NOFILE) (f : Option FileId) : M Unit := do
  let q := (← get).proc p
  setProc p { q with ofile := update q.ofile fd f }

/-- Allocate a file descriptor for a file. -/
def fdalloc (p : Pid) (f : FileId) : M (Option (Fin NOFILE)) := do
  let s ← get
  match (List.finRange NOFILE).find? fun fd => (s.proc p).ofile fd == none with
  | some fd =>
    setFd p fd (some f)
    pure (some fd)
  | none => pure none

def sysDup (p : Pid) (fd : Nat) : M Unit := do
  match ← argfd p fd with
  | none => pure ()
  | some f =>
    match ← fdalloc p f with
    | none => pure ()
    | some _ => filedup f

def sysRead (sb : Superblock) (p : Pid) (fd n : Nat) : M Unit := do
  match ← argfd p fd with
  | none => pure ()
  | some f => fileread sb f n

def sysWrite (sb : Superblock) (p : Pid) (fd : Nat) (src : Nat → Option UInt8) (n : Nat) : M Unit := do
  match ← argfd p fd with
  | none => pure ()
  | some f => filewrite sb f src n

def sysClose (sb : Superblock) (p : Pid) (fd : Nat) : M Unit := do
  match ← argfd p fd with
  | none => pure ()
  | some f =>
    if h : fd < NOFILE then
      setFd p ⟨fd, h⟩ none
      fileclose sb f
    else pure ()

def sysFstat (sb : Superblock) (p : Pid) (fd : Nat) : M Unit := do
  match ← argfd p fd with
  | none => pure ()
  | some f => filestat sb f

/-- Add to an inode's link count. -/
def addLink (e : EntryId) (n : Int16) : M Unit := setDin e fun d => { d with nlink := d.nlink + n }

/-- The `bad:` exit of `sys_link`. -/
def linkBad (sb : Superblock) (ip : EntryId) : M Unit := do
  ilock sb ip
  addLink ip (-1)
  iupdate sb ip
  iunlockput sb ip
  endOp

/-- Create the path `new` as a link to the same inode as `old`. -/
def sysLink (sb : Superblock) (p : Pid) (old new : Path) : M Unit := do
  match ← namei sb p old with
  | none => endOp
  | some ip =>
    ilock sb ip
    let i ← entry ip
    if i.din.type = T_DIR then do
      iunlockput sb ip
      endOp
    else do
      addLink ip 1
      iupdate sb ip
      iunlock ip
      match ← nameiparent sb p new with
      | none => linkBad sb ip
      | some (dp, name) =>
        ilock sb dp
        let i ← entry ip
        if ← dirlink sb dp name i.inum then
          iunlockput sb dp
          iput sb ip
          endOp
        else
          iunlockput sb dp
          linkBad sb ip

/-- Is the directory empty except for `.` and `..`? -/
def isdirempty (sb : Superblock) (dp : EntryId) : M Bool := do
  let i ← entry dp
  let found ← scan (fun off => do
    let de ← readDirent sb dp off "isdirempty: readi"
    if de.inum ≠ 0 then pure (some ()) else pure none) ((offsets i.din.size.toNat).drop 2)
  pure found.isNone

/-- The `bad:` exit of `sys_unlink`. -/
def unlinkBad (sb : Superblock) (dp : EntryId) : M Unit := do
  iunlockput sb dp
  endOp

/-- Is the inode a directory that is not empty? -/
def unlinkBusy (sb : Superblock) (ip : EntryId) (type : Int16) : M Bool :=
  if type = T_DIR then do
    let empty ← isdirempty sb ip
    pure (!empty)
  else pure false

/-- The parent of a removed directory loses the link of its `..`. -/
def unlinkParent (sb : Superblock) (dp : EntryId) (type : Int16) : M Unit :=
  if type = T_DIR then do
    addLink dp (-1)
    iupdate sb dp
  else pure ()

def sysUnlink (sb : Superblock) (p : Pid) (path : Path) : M Unit := do
  match ← nameiparent sb p path with
  | none => endOp
  | some (dp, name) =>
    ilock sb dp
    -- cannot unlink "." or ".."
    if namecmp name dot = 0 ∨ namecmp name dotdot = 0 then unlinkBad sb dp
    else do
      match ← dirlookup sb dp name with
      | none => unlinkBad sb dp
      | some (ip, off) =>
        ilock sb ip
        let i ← entry ip
        if i.din.nlink < 1 then panic "unlink: nlink < 1"
        else do
          if ← unlinkBusy sb ip i.din.type then do
            iunlockput sb ip
            unlinkBad sb dp
          else do
            writeDirent sb dp off Dirent.zero "unlink: writei"
            unlinkParent sb dp i.din.type
            iunlockput sb dp
            addLink ip (-1)
            iupdate sb ip
            iunlockput sb ip
            endOp

/-- Create the `.` and `..` entries of a new directory. -/
def createDots (sb : Superblock) (ip dp : EntryId) (type : Int16) : M Unit :=
  if type = T_DIR then do
    -- for ".."; none for ".", to avoid a cyclic reference count
    addLink dp 1
    iupdate sb dp
    let i ← entry ip
    let d ← entry dp
    if ← dirlink sb ip dot i.inum then
      if ← dirlink sb ip dotdot d.inum then pure () else panic "create dots"
    else panic "create dots"
  else pure ()

/-- Create an inode and link it into its directory; it is returned locked. -/
def create (sb : Superblock) (p : Pid) (path : Path) (type major minor : Int16) :
    M (Option EntryId) := do
  match ← nameiparent sb p path with
  | none => pure none
  | some (dp, name) =>
    ilock sb dp
    match ← dirlookup sb dp name with
    | some (ip, _) =>
      iunlockput sb dp
      ilock sb ip
      let i ← entry ip
      if type = T_FILE ∧ (i.din.type = T_FILE ∨ i.din.type = T_DEVICE) then pure (some ip)
      else do
        iunlockput sb ip
        pure none
    | none =>
      let ip ← ialloc sb type
      ilock sb ip
      setDin ip fun d => { d with major := major, minor := minor, nlink := 1 }
      iupdate sb ip
      createDots sb ip dp type
      let i ← entry ip
      if ← dirlink sb dp name i.inum then do
        iunlockput sb dp
        pure (some ip)
      else panic "create: dirlink"

def O_RDONLY : Nat := 0x000
def O_WRONLY : Nat := 0x001
def O_RDWR : Nat := 0x002
def O_CREATE : Nat := 0x200

/-- `sys_open` from the locked inode on. -/
def openInode (sb : Superblock) (p : Pid) (ip : EntryId) (omode : Nat) : M Unit := do
  let i ← entry ip
  if i.din.type = T_DEVICE ∧ (i.din.major < 0 ∨ i.din.major ≥ Int16.ofNat NDEV) then do
    iunlockput sb ip
    endOp
  else do
    match ← filealloc with
    | none =>
      iunlockput sb ip
      endOp
    | some f =>
      match ← fdalloc p f with
      | none =>
        fileclose sb f
        iunlockput sb ip
        endOp
      | some _ =>
        let ff ← file f
        setFile f { ff with
          type := if i.din.type = T_DEVICE then .device else .inode
          major := if i.din.type = T_DEVICE then i.din.major else ff.major
          minor := if i.din.type = T_DEVICE then i.din.minor else ff.minor
          ip := ip
          off := 0
          readable := omode &&& O_WRONLY == 0
          writable := omode &&& O_WRONLY != 0 || omode &&& O_RDWR != 0 }
        iunlock ip
        endOp

def sysOpen (sb : Superblock) (p : Pid) (path : Path) (omode : Nat) : M Unit := do
  if omode &&& O_CREATE ≠ 0 then
    match ← create sb p path T_FILE 0 0 with
    | none => endOp
    | some ip => openInode sb p ip omode
  else
    match ← namei sb p path with
    | none => endOp
    | some ip =>
      ilock sb ip
      let i ← entry ip
      if i.din.type = T_DIR ∧ omode ≠ O_RDONLY then do
        iunlockput sb ip
        endOp
      else openInode sb p ip omode

/-- `sys_mkdir` and `sys_mknod` differ in the inode they make. -/
def makeNode (sb : Superblock) (p : Pid) (path : Path) (type major minor : Int16) : M Unit := do
  match ← create sb p path type major minor with
  | none => endOp
  | some ip =>
    iunlockput sb ip
    endOp

def sysMkdir (sb : Superblock) (p : Pid) (path : Path) : M Unit := makeNode sb p path T_DIR 0 0

def sysMknod (sb : Superblock) (p : Pid) (path : Path) (major minor : Int16) : M Unit :=
  makeNode sb p path T_DEVICE major minor

/-- `iput(p->cwd)`. -/
def putCwd (sb : Superblock) (p : Pid) : M Unit := do
  match ((← get).proc p).cwd with
  | some cwd => iput sb cwd
  | none => panic "iput"

def setCwd (p : Pid) (cwd : Option EntryId) : M Unit := do
  let q := (← get).proc p
  setProc p { q with cwd := cwd }

def sysChdir (sb : Superblock) (p : Pid) (path : Path) : M Unit := do
  match ← namei sb p path with
  | none => endOp
  | some ip =>
    ilock sb ip
    let i ← entry ip
    if i.din.type ≠ T_DIR then do
      iunlockput sb ip
      endOp
    else do
      iunlock ip
      putCwd sb p
      endOp
      setCwd p (some ip)

/-! ### Processes -/

/-- The child is the first free process. -/
def fork (p : Pid) : M Unit := do
  let s ← get
  match (List.finRange NPROC).find? fun q => (s.proc q).cwd == none with
  | none => pure ()
  | some np =>
    (List.finRange NOFILE).forM fun fd => do
      match (s.proc p).ofile fd with
      | some f =>
        filedup f
        setFd np fd (some f)
      | none => pure ()
    match (s.proc p).cwd with
    | some cwd =>
      idup cwd
      setCwd np (some cwd)
    | none => panic "idup"

/-- Process 0 is `initproc`. -/
def exit (sb : Superblock) (p : Pid) : M Unit := do
  if p = 0 then panic "init exiting"
  else do
    (List.finRange NOFILE).forM fun fd => do
      match ((← get).proc p).ofile fd with
      | some f =>
        fileclose sb f
        setFd p fd none
      | none => pure ()
    putCwd sb p
    endOp
    setCwd p none

/-! ### Runs -/

/-- What a process can ask for. -/
inductive Call where
  | open (path : Path) (omode : Nat)
  | read (fd n : Nat)
  | write (fd : Nat) (src : Nat → Option UInt8) (n : Nat)
  | close (fd : Nat)
  | dup (fd : Nat)
  | fstat (fd : Nat)
  | link (old new : Path)
  | unlink (path : Path)
  | mkdir (path : Path)
  | mknod (path : Path) (major minor : Int16)
  | chdir (path : Path)
  | exec (path : Path) (mem : Nat → Bool)
  | fork
  | exit

def Call.run (sb : Superblock) (p : Pid) : Call → M Unit
  | .open path omode => sysOpen sb p path omode
  | .read fd n => sysRead sb p fd n
  | .write fd src n => sysWrite sb p fd src n
  | .close fd => sysClose sb p fd
  | .dup fd => sysDup p fd
  | .fstat fd => sysFstat sb p fd
  | .link old new => sysLink sb p old new
  | .unlink path => sysUnlink sb p path
  | .mkdir path => sysMkdir sb p path
  | .mknod path major minor => sysMknod sb p path major minor
  | .chdir path => sysChdir sb p path
  | .exec path mem => Fs.exec sb p path mem
  | .fork => Fs.fork p
  | .exit => Fs.exit sb p

/-- What can happen next: a system call of a process, or a buffer is recycled. -/
inductive Event where
  | call (p : Pid) (c : Call)
  | evict (b : Nat)

/-- A process that does not exist makes no calls. -/
def Event.run (sb : Superblock) : Event → M Unit
  | .call p c => do
    match ((← get).proc p).cwd with
    | some _ => c.run sb p
    | none => pure ()
  | .evict b => Fs.evict b

/-- A sequence of completed calls. -/
def runEvents (sb : Superblock) (es : List Event) : M Unit := es.forM (Event.run sb)

/-- The first process has started in the root directory. -/
def boot (d : Disk) : State where
  disk := d
  inlog _ := false
  unlogged _ := none
  icache e := ⟨if e = 0 then ROOTINO else 0, if e = 0 then 1 else 0, false, false, Dinode.zero⟩
  ftable _ := ⟨.none, 0, false, false, 0, 0, 0, 0⟩
  proc p := ⟨if p = 0 then some 0 else none, fun _ => none⟩

end Xv6.Fs
