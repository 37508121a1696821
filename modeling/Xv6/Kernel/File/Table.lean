import Xv6.Schemes.Hoare
import Xv6.Schemes.Count
import Xv6.Schemes.System
import Xv6.Kernel.Fs.Files

/-! The open-file table (`file.c`), with the calls that change it (`sysfile.c`, `pipe.c`, `proc.c`).

    ```
      ofile slots ──ref──► struct file ──► struct inode      counted by ip->ref
                                     └───► an end of a pipe   readopen, writeopen
    ```

    The inode layer below is what it is to a `struct file`: an inode has a reference count, and `namei`
    and `create` return a reference or fail. So does `kalloc` with pages. -/

namespace Xv6.Ftable
open Function

open Fs (NFILE NOFILE NDEV FileId Pid EntryId T_DIR T_DEVICE Stop)

/-- The page of a pipe. -/
abbrev Page : Type := Nat

inductive FdType where | none | pipe | inode | device
  deriving DecidableEq

/-- `struct file`. -/
structure File where
  type : FdType
  ref : Nat
  readable : Bool
  writable : Bool
  pipe : Page
  ip : EntryId
  off : Nat
  major : Int16
  minor : Int16
  deriving DecidableEq

/-- `struct pipe`, without its buffer. -/
structure Pipe where
  readopen : Bool
  writeopen : Bool
  deriving DecidableEq

/-- `pipeclose`: one end is not open any more. -/
def Pipe.shut (P : Pipe) (writable : Bool) : Pipe :=
  if writable then { P with writeopen := false } else { P with readopen := false }

/-- A process without a current directory does not exist. -/
structure Proc where
  cwd : Option EntryId
  ofile : Fin NOFILE → Option FileId

/-- What a `struct file` holds: a reference to an inode, or the end of a pipe. -/
inductive Held where
  | inode (ip : EntryId)
  | pipe (pi : Page) (writable : Bool)
  deriving DecidableEq

def File.held (ff : File) : Option Held :=
  match ff.type with
  | .none => none
  | .pipe => some (.pipe ff.pipe ff.writable)
  | .inode | .device => some (.inode ff.ip)

/-- `acquired` and `released` are the history of what an entry has held. -/
structure State where
  ftable : FileId → File
  proc : Pid → Proc
  /-- The pages that are pipes. -/
  page : Page → Option Pipe
  /-- `ip->ref`. -/
  iref : EntryId → Nat
  acquired : FileId → List Held
  released : FileId → List Held

abbrev M (α : Type) : Type := StateT State (Except Stop) α

def panic {α : Type} (msg : String) : M α := throw (.panic msg)

namespace State

def setFile (s : State) (f : FileId) (ff : File) : State := { s with ftable := update s.ftable f ff }

def setFd (s : State) (p : Pid) (fd : Fin NOFILE) (f : Option FileId) : State :=
  { s with proc := update s.proc p { s.proc p with ofile := update (s.proc p).ofile fd f } }

def setCwd (s : State) (p : Pid) (cwd : Option EntryId) : State :=
  { s with proc := update s.proc p { s.proc p with cwd := cwd } }

def setPage (s : State) (pi : Page) (P : Option Pipe) : State := { s with page := update s.page pi P }

def setIref (s : State) (ip : EntryId) (n : Nat) : State := { s with iref := update s.iref ip n }

/-- Note that the entry has got hold of what its fields say. -/
def noteAcquired (s : State) (f : FileId) : State :=
  { s with acquired := update s.acquired f (s.acquired f ++ (s.ftable f).held.toList) }

def noteReleased (s : State) (f : FileId) (h : Option Held) : State :=
  { s with released := update s.released f (s.released f ++ h.toList) }

end State

def file (f : FileId) : M File := do return (← get).ftable f

def setFile (f : FileId) (ff : File) : M Unit := modify (·.setFile f ff)

def setFd (p : Pid) (fd : Fin NOFILE) (f : Option FileId) : M Unit := modify (·.setFd p fd f)

/-! ### Inodes and pages -/

/-- A reference more, as `iget` and `idup` make it. -/
def idup (ip : EntryId) : M Unit := modify fun s => s.setIref ip (s.iref ip + 1)

def iput (ip : EntryId) : M Unit := modify fun s => s.setIref ip (s.iref ip - 1)

/-- The model stops when the page is not that of a pipe. -/
def pipeclose (pi : Page) (writable : Bool) : M Unit := do
  match (← get).page pi with
  | none => panic "pipeclose"
  | some P =>
    let P := P.shut writable
    -- kfree
    modify (·.setPage pi (if P.readopen = false ∧ P.writeopen = false then none else some P))

/-! ### Files -/

/-- Allocate a file structure. -/
def filealloc : M (Option FileId) := do
  let s ← get
  match (List.finRange NFILE).find? fun f => (s.ftable f).ref == 0 with
  | some f =>
    setFile f { s.ftable f with ref := 1 }
    pure (some f)
  | none => pure none

/-- Increment the reference count of a file. -/
def filedup (f : FileId) : M Unit := do
  let ff ← file f
  if ff.ref < 1 then panic "filedup" else setFile f { ff with ref := ff.ref + 1 }

/-- Close a file: decrement the reference count, close when it reaches 0. -/
def fileclose (f : FileId) : M Unit := do
  let ff ← file f
  if ff.ref < 1 then panic "fileclose"
  else if 1 < ff.ref then setFile f { ff with ref := ff.ref - 1 }
  else do
    setFile f { ff with ref := 0, type := .none }
    modify (·.noteReleased f ff.held)
    match ff.type with
    | .pipe => pipeclose ff.pipe ff.writable
    | .inode | .device => iput ff.ip
    | .none => pure ()

/-! ### System calls -/

/-- The open file of a descriptor. -/
def argfd (p : Pid) (fd : Nat) : M (Option FileId) := do
  let s ← get
  pure (if h : fd < NOFILE then (s.proc p).ofile ⟨fd, h⟩ else none)

/-- Allocate a file descriptor for a file. -/
def fdalloc (p : Pid) (f : FileId) : M (Option (Fin NOFILE)) := do
  let s ← get
  match (List.finRange NOFILE).find? fun fd => (s.proc p).ofile fd == none with
  | some fd =>
    setFd p fd (some f)
    pure (some fd)
  | none => pure none

/-- The new descriptor; `none` is -1. -/
def sysDup (p : Pid) (fd : Nat) : M (Option (Fin NOFILE)) := do
  match ← argfd p fd with
  | none => pure none
  | some f =>
    match ← fdalloc p f with
    | none => pure none
    | some fd =>
      filedup f
      pure (some fd)

def sysClose (p : Pid) (fd : Nat) : M Bool := do
  match ← argfd p fd with
  | none => pure false
  | some f =>
    if h : fd < NOFILE then
      setFd p ⟨fd, h⟩ none
      fileclose f
      pure true
    else pure false

def O_RDONLY : UInt32 := 0x000
def O_WRONLY : UInt32 := 0x001
def O_RDWR : UInt32 := 0x002
def O_CREATE : UInt32 := 0x200

/-- The inode that `create` or `namei` has returned. -/
structure Found where
  ip : EntryId
  type : Int16
  major : Int16
  minor : Int16

/-- `sys_open` from the locked inode on. -/
def openInode (p : Pid) (i : Found) (omode : UInt32) : M (Option (Fin NOFILE)) := do
  if i.type = T_DEVICE ∧ (i.major < 0 ∨ i.major ≥ Int16.ofNat NDEV) then do
    iput i.ip
    pure none
  else do
    match ← filealloc with
    | none =>
      iput i.ip
      pure none
    | some f =>
      match ← fdalloc p f with
      | none =>
        fileclose f
        iput i.ip
        pure none
      | some fd =>
        let ff ← file f
        setFile f { ff with
          type := if i.type = T_DEVICE then .device else .inode
          major := if i.type = T_DEVICE then i.major else ff.major
          minor := if i.type = T_DEVICE then i.minor else ff.minor
          ip := i.ip
          off := 0
          readable := omode &&& O_WRONLY == 0
          writable := omode &&& O_WRONLY != 0 || omode &&& O_RDWR != 0 }
        modify (·.noteAcquired f)
        pure (some fd)

/-- `found` is what `create` or `namei` returns; `none` also stands for a path that cannot be fetched. -/
def sysOpen (p : Pid) (found : Option Found) (omode : UInt32) : M (Option (Fin NOFILE)) := do
  match found with
  | none => pure none
  | some i =>
    idup i.ip
    if omode &&& O_CREATE = 0 ∧ i.type = T_DIR ∧ omode ≠ O_RDONLY then do
      iput i.ip
      pure none
    else openInode p i omode

/-- The `bad:` exit of `pipealloc`, where no page has been allocated. -/
def pipeallocBad (f0 f1 : Option FileId) : M (Option (FileId × FileId)) := do
  match f0 with
  | some f => fileclose f
  | none => pure ()
  match f1 with
  | some f => fileclose f
  | none => pure ()
  pure none

/-- `pi` is the page that `kalloc` returns. -/
def pipealloc (pi : Option Page) : M (Option (FileId × FileId)) := do
  match ← filealloc with
  | none => pipeallocBad none none
  | some f0 =>
    match ← filealloc with
    | none => pipeallocBad (some f0) none
    | some f1 =>
      match pi with
      | none => pipeallocBad (some f0) (some f1)
      | some pi =>
        modify (·.setPage pi (some ⟨true, true⟩))
        let r ← file f0
        setFile f0 { r with type := .pipe, readable := true, writable := false, pipe := pi }
        modify (·.noteAcquired f0)
        let w ← file f1
        setFile f1 { w with type := .pipe, readable := false, writable := true, pipe := pi }
        modify (·.noteAcquired f1)
        pure (some (f0, f1))

/-- `copied` tells whether the two calls of `copyout` succeed. -/
def sysPipe (p : Pid) (pi : Option Page) (copied : Bool) : M (Option (Fin NOFILE × Fin NOFILE)) := do
  match ← pipealloc pi with
  | none => pure none
  | some (rf, wf) =>
    match ← fdalloc p rf with
    | none =>
      fileclose rf
      fileclose wf
      pure none
    | some fd0 =>
      match ← fdalloc p wf with
      | none =>
        setFd p fd0 none
        fileclose rf
        fileclose wf
        pure none
      | some fd1 =>
        if copied then pure (some (fd0, fd1))
        else do
          setFd p fd0 none
          setFd p fd1 none
          fileclose rf
          fileclose wf
          pure none

/-! ### Processes -/

/-- The loop of `fork` over the descriptors. -/
def dupFiles (p np : Pid) : M Unit :=
  (List.finRange NOFILE).forM fun fd => do
    match ((← get).proc p).ofile fd with
    | some f =>
      filedup f
      setFd np fd (some f)
    | none => pure ()

/-- `np` is the process that `allocproc` has returned and `uvmcopy` has filled; `none` if one of them
    fails. -/
def fork (p : Pid) (np : Option Pid) : M (Option Pid) := do
  match np with
  | none => pure none
  | some np =>
    dupFiles p np
    match ((← get).proc p).cwd with
    | some cwd =>
      idup cwd
      modify (·.setCwd np (some cwd))
      pure (some np)
    | none => panic "idup"

/-- The loop of `exit` over the descriptors. -/
def closeFiles (p : Pid) : M Unit :=
  (List.finRange NOFILE).forM fun fd => do
    match ((← get).proc p).ofile fd with
    | some f =>
      fileclose f
      setFd p fd none
    | none => pure ()

/-- Process 0 is `initproc`. -/
def exit (p : Pid) : M Unit := do
  if p = 0 then panic "init exiting"
  else do
    closeFiles p
    match ((← get).proc p).cwd with
    | some cwd =>
      iput cwd
      modify (·.setCwd p none)
    | none => panic "iput"

/-! ### Runs -/

inductive Call where
  | open (found : Option Found) (omode : UInt32)
  | pipe (pi : Option Page) (copied : Bool)
  | dup (fd : Nat)
  | close (fd : Nat)
  | fork (np : Option Pid)
  | exit

def Call.run (p : Pid) : Call → M Unit
  | .open found omode => do let _ ← sysOpen p found omode
  | .pipe pi copied => do let _ ← sysPipe p pi copied
  | .dup fd => do let _ ← sysDup p fd
  | .close fd => do let _ ← sysClose p fd
  | .fork np => do let _ ← Ftable.fork p np
  | .exit => Ftable.exit p

/-- The process exists, `kalloc` returns a page that is not in use and `allocproc` a process that is
    not; and `init` does not exit. -/
def Call.ok (s : State) (p : Pid) (c : Call) : Bool :=
  (s.proc p).cwd.isSome && match c with
    | .pipe (some pi) _ => (s.page pi).isNone
    | .fork (some np) => (s.proc np).cwd.isNone
    | .exit => p != 0
    | _ => true

/-- A call that returns. -/
def step (s : State) (a : Pid × Call) : Option State :=
  if a.2.ok s a.1 then
    match a.2.run a.1 s with
    | .ok r => some r.2
    | .error _ => none
  else none

/-- The first process, in the directory of inode entry 0. -/
def boot : State where
  ftable _ := ⟨.none, 0, false, false, 0, 0, 0, 0, 0⟩
  proc p := ⟨if p = 0 then some 0 else none, fun _ => none⟩
  page _ := none
  iref e := if e = 0 then 1 else 0
  acquired _ := []
  released _ := []

/-- A sequence of completed calls. -/
def Run (as : List (Pid × Call)) (s : State) : Prop := (System.ofStep step).Run (fun _ _ => True) boot as s

end Xv6.Ftable
