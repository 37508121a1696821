import Xv6.Kernel.Mem.Vm

/-! The memory of processes (proc.c, exec.c, sysfile.c).

    ```
    fork ──► RUNNABLE ── exec, sbrk ──► exit ──► ZOMBIE ── wait of the parent ──► UNUSED
    ```

    Of the file that `exec` reads the model has what `exec` looks at: whether the reads succeed, and
    the program headers. -/

namespace Xv6.Mem

open Procs (Slot ProcState initproc)

/-! ### proc.c -/

def procPagetable (K : Link) (tf : Frame) : Kernel Frame := do
  let pt ← uvmcreate
  let _ ← mappages pt TRAMPOLINE PGSIZE K.trampoline ⟨true, false, true, false⟩
  let _ ← mappages pt TRAPFRAME PGSIZE tf ⟨true, true, false, false⟩
  pure pt

def procFreepagetable (pt : Frame) (sz : Nat) : Kernel Unit := do
  uvmunmap pt TRAMPOLINE PGSIZE false
  uvmunmap pt TRAPFRAME PGSIZE false
  if 0 < sz then uvmfree pt sz

/-- `allocproc`, from the slot that it has found on; `false` when there is no page for the
    trapframe. -/
def allocproc (K : Link) (np : Slot) : Kernel Bool := do
  let tf ← kalloc
  setProc np fun p => { p with tf := tf }
  match tf with
  | none => pure false
  | some tf => do
    let pt ← procPagetable K tf
    setProc np fun p => { p with pagetable := some pt }
    pure true

def freeproc (np : Slot) : Kernel Unit := do
  let p ← getProc np
  if let some tf := p.tf then kfree tf
  setProc np fun p => { p with tf := none }
  if let some pt := p.pagetable then procFreepagetable pt p.sz
  setProc np fun p => { p with pagetable := none }
  setProc np fun p => { p with sz := 0, parent := none, state := .unused }

/-- The first process; `allocproc` gives the first slot, or a null pointer. -/
def userinit (K : Link) : Kernel Unit := do
  if ← allocproc K initproc then do
    let p ← getProc initproc
    uvminit (p.pagetable.getD 0)
    setProc initproc fun p => { p with sz := PGSIZE }
    setProc initproc fun p => { p with state := .runnable }
  else panic "kerneltrap"

/-- The sum of a `uint` and an `int`. -/
def addInt (sz : Nat) (n : Int) : Nat := ((sz + n) % 2 ^ 32).toNat

/-- `false` for -1. -/
def growproc (p : Slot) (n : Int) : Kernel Bool := do
  let P ← getProc p
  let sz := P.sz % 2 ^ 32
  if 0 < n then do
    let sz' ← uvmalloc (P.pagetable.getD 0) sz (addInt sz n)
    if sz' % 2 ^ 32 = 0 then pure false
    else do
      setProc p fun P => { P with sz := sz' % 2 ^ 32 }
      pure true
  else if n < 0 then do
    let sz' ← uvmdealloc (P.pagetable.getD 0) sz (addInt sz n)
    setProc p fun P => { P with sz := sz' % 2 ^ 32 }
    pure true
  else do
    setProc p fun P => { P with sz := sz }
    pure true

/-- `fork`, with the slot that `allocproc` finds; `false` for -1. -/
def fork (K : Link) (p np : Slot) : Kernel Bool := do
  if ← allocproc K np then do
    let P ← getProc p
    let NP ← getProc np
    if ← uvmcopy (P.pagetable.getD 0) (NP.pagetable.getD 0) P.sz then do
      setProc np fun NP => { NP with sz := P.sz, parent := some p }
      setProc np fun NP => { NP with state := .runnable }
      pure true
    else do
      freeproc np
      pure false
  else pure false

/-- The loop of `reparent` over the slots. -/
def reparent (p : Slot) : List Slot → Kernel Unit
  | [] => pure ()
  | pp :: rest => do
    setProc pp fun P => if P.parent = some p then { P with parent := some initproc } else P
    reparent p rest

def exit (p : Slot) : Kernel Unit :=
  if p = initproc then panic "init exiting"
  else do
    reparent p (List.finRange NPROC)
    setProc p fun P => { P with state := .zombie }

/-- `wait`, with the zombie that it has found. -/
def wait (p np : Slot) (addr : Nat) : Kernel Bool := do
  let P ← getProc p
  let ok ← if addr = 0 then pure true else copyout (P.pagetable.getD 0) addr 4
  if ok then do
    freeproc np
    pure true
  else pure false

/-! ### exec.c -/

/-- A program header, and whether the file can be read at an offset into the segment. -/
structure Proghdr where
  /-- `ph.type == ELF_PROG_LOAD`. -/
  load : Bool
  vaddr : Nat
  memsz : Nat
  filesz : Nat
  readi : Nat → Bool

/-- The file of `exec`. -/
structure Image where
  /-- `namei` finds it, and it starts with an ELF header. -/
  elf : Bool
  /-- The program headers; `none` where they cannot be read. -/
  phdrs : List (Option Proghdr)

/-- The loop of `loadseg`, which has come to `i`. -/
def loadsegFrom (pt : Frame) (ph : Proghdr) : Nat → Nat → Kernel Bool
  | 0, _ => pure true
  | n + 1, i => do
    let pa ← walkaddr pt (ph.vaddr + i)
    if pa = 0 then panic "loadseg: address should exist"
    else if ph.readi i then loadsegFrom pt ph n (i + PGSIZE)
    else pure false

/-- `loadseg`, whose argument `sz` is a `uint`. -/
def loadseg (pt : Frame) (ph : Proghdr) : Kernel Bool :=
  loadsegFrom pt ph (pagesTo 0 (ph.filesz % 2 ^ 32)) 0

/-- The program headers: whether the program is loaded, and `sz` where `exec` goes on. -/
def loadSegments (pt : Frame) : List (Option Proghdr) → Nat → Kernel (Bool × Nat)
  | [], sz => pure (true, sz)
  | none :: _, sz => pure (false, sz)
  | some ph :: rest, sz =>
    if !ph.load then loadSegments pt rest sz
    else if ph.memsz < ph.filesz then pure (false, sz)
    else if (ph.vaddr + ph.memsz) % 2 ^ 64 < ph.vaddr then pure (false, sz)
    else do
      let sz ← uvmalloc pt sz ((ph.vaddr + ph.memsz) % 2 ^ 64)
      if sz = 0 then pure (false, sz)
      else if ph.vaddr % PGSIZE ≠ 0 then pure (false, sz)
      else if ← loadseg pt ph then loadSegments pt rest sz
      else pure (false, sz)

def MAXARG : Nat := 32

/-- The argument strings, given by their lengths: the stack pointer below them. -/
def pushArgs (pt : Frame) (stackbase : Nat) : List Nat → Nat → Nat → Kernel (Option Nat)
  | [], _, sp => pure (some sp)
  | len :: rest, argc, sp =>
    if MAXARG ≤ argc then pure none
    else
      let sp := sp - (len + 1)
      let sp := sp - sp % 16
      if sp < stackbase then pure none
      else do
        if ← copyout pt sp (len + 1) then pushArgs pt stackbase rest (argc + 1) sp else pure none

/-- The stack of the new program: whether the arguments fit. -/
def pushStack (pt : Frame) (stackbase sp : Nat) (argv : List Nat) : Kernel Bool := do
  match ← pushArgs pt stackbase argv 0 sp with
  | none => pure false
  | some sp =>
    let sp := sp - (argv.length + 1) * 8
    let sp := sp - sp % 16
    if sp < stackbase then pure false else copyout pt sp ((argv.length + 1) * 8)

/-- `exec` from the page table on: whether the new program is ready, and `sz`. -/
def loadImage (pt : Frame) (x : Image) (argv : List Nat) : Kernel (Bool × Nat) := do
  let (ok, sz) ← loadSegments pt x.phdrs 0
  if !ok then pure (false, sz)
  else do
    let sz ← uvmalloc pt (PGROUNDUP sz) (PGROUNDUP sz + 2 * PGSIZE)
    if sz = 0 then pure (false, sz)
    else do
      uvmclear pt (sz - 2 * PGSIZE)
      let ok ← pushStack pt (sz - PGSIZE) sz argv
      pure (ok, sz)

/-- `false` for -1. -/
def exec (K : Link) (p : Slot) (x : Image) (argv : List Nat) : Kernel Bool :=
  if !x.elf then pure false
  else do
    let P ← getProc p
    let pt ← procPagetable K (P.tf.getD 0)
    let (ok, sz) ← loadImage pt x argv
    if ok then do
      setProc p fun P => { P with pagetable := some pt, sz := sz }
      procFreepagetable (P.pagetable.getD 0) P.sz
      pure true
    else do
      procFreepagetable pt sz
      pure false

/-! ### sysfile.c -/

/-- An argument that `sys_exec` fetches: its address cannot be read, the string cannot be read, or
    it is a string of some length. -/
inductive Arg
  | noAddr
  | noStr
  | str (len : Nat)

/-- The pages for the argument strings, and the lengths of the strings if all can be fetched. -/
def fetchArgs : List Arg → Nat → Kernel (List Frame × Option (List Nat))
  | [], i => pure ([], if MAXARG ≤ i then none else some [])
  | a :: rest, i =>
    if MAXARG ≤ i then pure ([], none)
    else
      match a with
      | .noAddr => pure ([], none)
      | .noStr => do
        match ← kalloc with
        | none => panic "sys_exec kalloc"
        | some f => pure ([f], none)
      | .str len => do
        match ← kalloc with
        | none => panic "sys_exec kalloc"
        | some f => do
          let (fs, lens) ← fetchArgs rest (i + 1)
          pure (f :: fs, lens.map (len :: ·))

def freeArgs : List Frame → Kernel Unit
  | [] => pure ()
  | f :: rest => do
    kfree f
    freeArgs rest

/-- `false` for -1. -/
def sysExec (K : Link) (p : Slot) (x : Image) (args : List Arg) : Kernel Bool := do
  let (fs, argv) ← fetchArgs args 0
  match argv with
  | none => do
    freeArgs fs
    pure false
  | some argv => do
    let ok ← exec K p x argv
    freeArgs fs
    pure ok

end Xv6.Mem
