import Xv6.User.Nsh.Relay

/-! The line scanner of nsh (`nsh.c`).

    One pass over the characters of the line cuts it into words and runs its commands. A space after
    `|`, `<` or `>` takes the next word too:

    ```
    a x | b > f
          │   └─ '>' runs b if it has not been run; ' ' then opens f and copies the pipe to it
          └───── ' ' runs a, with its output in the pipe, and starts the arguments of b
    ```

    Pipes and descriptors are abstracted to the bytes that wait in the pipe `p`; the programs are
    functions from their arguments and input to their output. Here a pipe takes any number of bytes and
    `exec` does not fail; the pipe that is full, while nsh waits for the child that writes to it, is in
    `Xv6.User.Nsh.Blocking`. -/

namespace Xv6.Nsh
open Ulib Function

def MAXARG : Nat := 32

/-- `' '`, `'|'`, `'<'` and `'>'`. -/
def blank : UInt8 := 32
def bar : UInt8 := 124
def less : UInt8 := 60
def greater : UInt8 := 62

/-- The values of `prev` and `flag`. -/
inductive Mark
  | start | char | space | newline | pipe | pipe2 | redirI | redirO | done
  deriving DecidableEq

/-- What nsh runs in. -/
structure World where
  prog : List Str → List UInt8 → List UInt8
  file : Str → List UInt8
  stdin : List UInt8

/-- A program is run with its input; bytes arrive in a file, or at the standard output. -/
inductive Event
  | exec (argv : List Str) (input : List UInt8)
  | output (file : Option Str) (bytes : List UInt8)
  deriving DecidableEq

/-- The variables of `main`; `line` holds pointers to `buf`. -/
structure State where
  buf : Mem
  line : Nat → Option Nat
  prev : Mark
  flag : Mark
  i : Nat
  n : Nat
  outInPipe : Bool
  p : List UInt8
  events : List Event

/-! ### Arguments -/

def setLine (s : State) (k : Nat) (ptr : Option Nat) : Except String State :=
  if k < MAXARG then .ok { s with line := update s.line k ptr } else .error "line"

/-- The string that `line[k]` points to. -/
def word (s : State) (k : Nat) : Except String Str :=
  match s.line k with
  | some ptr => .ok (str s.buf ptr (BUFSIZE - ptr))
  | none => .error "null pointer"

/-- The arguments from `line[k]` on; `m` pointers are left in the array. -/
def argvFrom (s : State) : Nat → Nat → Except String (List Str)
  | 0, _ => .error "line"
  | m + 1, k =>
    match s.line k with
    | none => .ok []
    | some ptr => (argvFrom s m (k + 1)).map (str s.buf ptr (BUFSIZE - ptr) :: ·)

def argv (s : State) : Except String (List Str) := argvFrom s MAXARG 0

/-! ### Commands -/

variable (W : World)

/-- Run the command in `line` with its output in the pipe, which is taken to have room for it. -/
def execInto (input : List UInt8) (s : State) : Except String State := do
  let args ← argv s
  return { s with p := W.prog args input, events := s.events ++ [.exec args input] }

/-- `exec2pipe` with `REDIR_O`. -/
def exec2pipeO (s : State) : Except String State := execInto W W.stdin s

/-- `exec2pipe` with `REDIR_I`: the last word is the file; `n` of the caller does not change. -/
def exec2pipeI (s : State) : Except String State := do
  let name ← word s (s.n - 1)
  let s ← setLine s (s.n - 1) none
  execInto W (W.file name) s

/-- `exec2pipe` with `PIPE`: the output goes through a second pipe, and is copied to the first. -/
def exec2pipeP (s : State) : Except String State := do
  let s ← execInto W s.p s
  return { s with p := relay s.p }

/-- Run the command in `line` unless there is output in the pipe. -/
def fill (s : State) : Except String State := if s.outInPipe then .ok s else exec2pipeO W s

/-- Run the command in `line` after a pipe. -/
def runPipe2 (s : State) : Except String State := if s.flag = .pipe2 then exec2pipeP W s else .ok s

/-! ### Characters -/

/-- `while (buf[i] == ' ' || buf[i] == '\n') i++;`, with `m` bytes left in the buffer. -/
def skipBlanks (buf : Mem) : Nat → Nat → Except String Nat
  | 0, _ => .error "buf"
  | m + 1, i => if buf i = blank ∨ buf i = newline then skipBlanks buf m (i + 1) else .ok i

/-- `while (buf[i] != 0 && buf[i] != ' ' && buf[i] != '\n') i++;`, with `m` bytes left in the buffer. -/
def wordEnd (buf : Mem) : Nat → Nat → Except String Nat
  | 0, _ => .error "buf"
  | m + 1, i => if buf i ≠ 0 ∧ buf i ≠ blank ∧ buf i ≠ newline then wordEnd buf m (i + 1) else .ok i

/-- Take the next word: from `i++` to `prev = SPACE`. -/
def nextWord (s : State) : Except String State := do
  let i ← skipBlanks s.buf (BUFSIZE - (s.i + 1)) (s.i + 1)
  let s ← setLine s s.n (some i)
  let j ← wordEnd s.buf (BUFSIZE - i) i
  return { s with n := s.n + 1, buf := update s.buf j 0, i := j, prev := .space }

/-- The rest of the branch for `REDIR_O`. -/
def toFile (s : State) : Except String State := do
  let name ← word s (s.n - 1)
  let s ← setLine s (s.n - 1) none
  let s ← fill W { s with n := s.n - 1 }
  return { s with outInPipe := false, events := s.events ++ [.output (some name) (relay s.p)] }

/-- The rest of the branch for `REDIR_I`. -/
def fromFile (s : State) : Except String State := do
  let s ← exec2pipeI W s
  return { s with outInPipe := true }

/-- The rest of the branch for `PIPE`. -/
def intoPipe (s : State) : Except String State := do
  let tempNext := s.line (s.n - 1)
  let s ← setLine s (s.n - 1) none
  let s ← fill W { s with n := s.n - 1 }
  setLine { s with outInPipe := true, n := 1, line := fun _ => none } 0 tempNext

def onSpace (s : State) : Except String State :=
  if s.prev = .space ∨ s.prev = .newline then .ok s
  else
    let s := { s with prev := .space, buf := update s.buf s.i 0 }
    match s.flag with
    | .redirO => nextWord { s with flag := .done } >>= toFile W
    | .redirI => nextWord { s with flag := .done } >>= fromFile W
    | .pipe => nextWord { s with flag := .pipe2 } >>= intoPipe W
    | _ => .ok s

def onGreater (s : State) : Except String State := do
  let s ← runPipe2 W { s with prev := .redirO }
  return { s with flag := .redirO }

def onChar (s : State) : Except String State :=
  if s.prev = .char then .ok s
  else do
    let s ← setLine s s.n (some s.i)
    return { s with n := s.n + 1, prev := .char }

/-- One round of the loop. -/
def step (s : State) : Except String State := do
  let c := s.buf s.i
  let s ←
    if c = blank then onSpace W s
    else if c = newline then pure (if s.prev = .space ∨ s.prev = .newline then s else { s with prev := .newline })
    else if c = bar then pure { s with prev := .pipe, flag := .pipe }
    else if c = less then pure { s with prev := .redirI, flag := .redirI }
    else if c = greater then onGreater W s
    else onChar s
  return { s with i := s.i + 1 }

/-- The loop; a round begins with a look at `buf[i]`. -/
def scan : Nat → State → Except String State
  | 0, _ => .error "out of fuel"
  | fuel + 1, s =>
    if BUFSIZE ≤ s.i then .error "buf"
    else if s.buf s.i = 0 then .ok s
    else step W s >>= scan fuel

/-- What happens after the loop. -/
def finish (s : State) : Except String State :=
  if s.prev = .char ∧ s.flag = .start then do
    let s ← execInto W W.stdin s
    return { s with events := s.events ++ [.output none s.p] }
  else if s.outInPipe then do
    let s ← runPipe2 W s
    return { s with events := s.events ++ [.output none (relay s.p)] }
  else .ok s

/-- The variables when `buf` has been read, and its newline removed. -/
def initial (buf : List UInt8) : State where
  buf := update (store (fun _ => 0) 0 buf) ((cstring buf).length - 1) 0
  line := fun _ => none
  prev := .start
  flag := .start
  i := 0
  n := 0
  outInPipe := false
  p := []
  events := []

/-- What nsh does for the first line of its input. -/
def runLine (fuel : Nat) (input : List UInt8) : Except String (List Event) := do
  let s ← scan W fuel (initial (gets BUFSIZE input).1)
  let s ← finish W s
  return s.events

end Xv6.Nsh
