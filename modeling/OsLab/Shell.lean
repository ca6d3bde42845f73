import OsLab.CText

/-!
# custom_shell

The shell reads a line, cuts it into tokens, and runs a built-in itself, or one program or two with a pipe between them in children of
its own. The arrays of tokens are arrays of pointers, with what was in them before where nothing has been written; an access outside an
array, or to a string through the null pointer, ends the process with a fault.

What the operating system decides is an input: for each kind of call a list of answers without end, and for every child lists of its own.
A child runs up to its `execvp` or its end before its parent goes on: the processes read nothing that another one of them writes. The
calls of `open` and `execvp`, and what the shell has done with each line, are recorded. The handling of `SIGINT` is not part of the model.

A child has the standard input of the shell, unless it has redirected its own: one file with one offset (`Input`). What the shell has read
ahead is in its buffer, and in the copy of it that the child has. A child that ends by `exit` closes its streams, and that takes the offset
of a file back over what is in the copy; the shell reads it once more when its own buffer is empty. A program that a child runs may read
from the offset on, and the shell does not see what it has read.
-/

namespace OsLab.Shell

open Posix

/-- `MAX_LINE`. -/
def MAX_LINE : Nat := 1024

/-- `MAX_TOKENS`. -/
def MAX_TOKENS : Nat := 64

/-- `PROMPT`. -/
def PROMPT : Bytes := ascii "myshell> "

def STDIN : Nat := 0

def STDOUT : Nat := 1

def EMFILE : Nat := 24

/-- How a file is opened: with `O_WRONLY | O_CREAT | O_TRUNC`, with `O_WRONLY | O_CREAT | O_APPEND` (and the mode 0644), or with
`O_RDONLY`. -/
inductive OpenMode where
  | truncate
  | append
  | read
  deriving DecidableEq, Repr

/-- What a descriptor stands for: something from before the shell was started, a file, or an end of one of the pipes. -/
inductive Handle where
  | inherited (k : Nat)
  | file (path : Path) (mode : OpenMode)
  | pipeRead (k : Nat)
  | pipeWrite (k : Nat)
  deriving DecidableEq, Repr

abbrev Fds := Nat → Option Handle

/-- The kinds of calls whose answers are an input. -/
inductive Call where
  | pipe
  | fork
  | open
  | execvp
  | chdir
  | getcwd
  deriving DecidableEq, Repr

/-- The answers: `some e` for a call that fails with `e`. -/
abbrev Answers := Call → Nat → Option Nat

/-- An array of pointers to tokens. -/
abbrev Argv := List (Option Bytes)

/-- A call of `execvp`: the name of the program, the arguments, and the descriptors. -/
structure Exec where
  file : Option Bytes
  args : List Bytes
  fds : Fds

/-- What the shell has done with a line. -/
inductive Event where
  | builtin (args : List Bytes)
  | single (args : List Bytes)
  | pipeline (left right : List Bytes)
  | badPipe (left right : List Bytes)
  deriving DecidableEq, Repr

/-- A standard input. -/
structure Input where
  /-- What is left of it: what the buffer holds, and then what `read` will return. -/
  left : Bytes
  /-- How much of that the buffer holds. -/
  buffered : Nat
  /-- What lies before the offset, if it can be moved. -/
  behind : Option Bytes
  /-- How much the next calls of `read` will bring beyond what is needed. -/
  ahead : Nat → Nat
  /-- How much the program in each child will read from the offset on, where the input is its own. -/
  taken : Nat → Nat
  /-- How often a child has moved the offset. -/
  moved : Nat

/-- A process: the shell, or a child of it. -/
structure Process where
  fds : Fds
  /-- The limit on the numbers of descriptors. -/
  limit : Nat
  answers : Answers
  /-- The answers that the children will get, in the order of their creation. -/
  kids : Nat → Answers
  /-- What the next arrays hold that nobody has written. -/
  junk : Nat → Nat → Option Bytes
  input : Input
  /-- What has been printed, each with what descriptor 1 stood for. -/
  out : List (Option Handle × Bytes)
  /-- What has been written to standard error. -/
  err : Bytes
  cwd : Bytes
  home : Option Bytes
  /-- The working directory that a path leads to. -/
  resolve : Bytes → Path → Bytes
  strerror : Nat → Bytes
  /-- The number of pipes made so far. -/
  pipes : Nat
  /-- The number of children created so far. A child is known by its place among them. -/
  forked : Nat
  waited : List Nat
  /-- The calls of `open`, with the error if there was one. -/
  opens : List (Path × OpenMode × Option Nat)
  execs : List Exec
  ran : List Event

/-- What is left of the input. -/
def Process.stdin (s : Process) : Bytes := s.input.left

/-- How a process ends, apart from a return from `main`: with a status, in another program, or at an access that is not allowed;
`running` stands for a loop that has used up its turns. -/
inductive End where
  | exited (status : Nat)
  | replaced
  | fault
  | running
  deriving DecidableEq, Repr

abbrev Act (α : Type) := Cmd (End × Process) Process α

def stop {α : Type} (e : End) : Act α := do throw (e, ← get)

/-- `exit(status)`. -/
def exit {α : Type} (status : Nat) : Act α := stop (.exited status)

/-- The process with the first answer of a kind taken. -/
def Process.popped (s : Process) (c : Call) : Process :=
  { s with answers := Function.update s.answers c fun n => s.answers c (n + 1) }

/-- The next answer to a call of this kind. -/
def ask (c : Call) : Act (Option Nat) := do
  let s ← get
  set (s.popped c)
  pure (s.answers c 0)

/-- `fprintf(stderr, ...)`. -/
def say (bs : Bytes) : Act Unit := modify fun s => { s with err := s.err ++ bs }

/-- `perror`. -/
def perror (what : Bytes) (errno : Nat) : Act Unit := do
  say (what ++ ascii ": " ++ (← get).strerror errno ++ [NL])

/-- `printf(...)`. Nothing is left in the buffer when a child is created. -/
def print (bs : Bytes) : Act Unit := modify fun s => { s with out := s.out ++ [(s.fds STDOUT, bs)] }

def record (e : Event) : Act Unit := modify fun s => { s with ran := s.ran ++ [e] }

/-! ## Arrays of tokens -/

/-- A pointer read from an array. -/
def loadPtr (a : Argv) (i : Nat) : Act (Option Bytes) :=
  match a[i]? with
  | some p => pure p
  | none => stop .fault

/-- The string that an element of an array points to. -/
def load (a : Argv) (i : Nat) : Act Bytes := do
  match ← loadPtr a i with
  | some t => pure t
  | none => stop .fault

/-- A pointer stored in an array. -/
def store (a : Argv) (i : Nat) (p : Option Bytes) : Act Argv := if i < a.length then pure (a.set i p) else stop .fault

/-- The state with an array taken. -/
def Process.nextJunk (s : Process) : Process := { s with junk := fun k => s.junk (k + 1) }

/-- `char *a[MAX_TOKENS]`. -/
def newArray : Act Argv := do
  let s ← get
  set s.nextJunk
  pure ((List.range MAX_TOKENS).map (s.junk 0))

/-- The first `n` tokens of an array, for the record. -/
def held (a : Argv) (n : Nat) : List Bytes := (a.take n).filterMap id

/-- One of the bytes `" \t\r\n"`. -/
def isDelim (b : UInt8) : Bool := b == 32 || b == 9 || b == 13 || b == 10

/-- `strtok` with these delimiters: the token, and the string that the next call goes on with. -/
def strtok (s : Bytes) : Option (Bytes × Bytes) :=
  match s.dropWhile isDelim with
  | [] => none
  | t => some (t.takeWhile fun b => !isDelim b, (t.dropWhile fun b => !isDelim b).tail)

/-- The loop of `tokenize`, with the number of tokens that there is still room for, and what follows it. -/
def tokenizeFrom : Nat → Nat → Argv → Option (Bytes × Bytes) → Act (Argv × Nat)
  | room + 1, count, tokens, some (tok, rest) => do
    tokenizeFrom room (count + 1) (← store tokens count (some tok)) (strtok rest)
  | _, count, tokens, _ => return (← store tokens count none, count)

/-- `tokenize`. -/
def tokenize (line : Bytes) (tokens : Argv) : Act (Argv × Nat) := tokenizeFrom (MAX_TOKENS - 1) 0 tokens (strtok line)

/-! ## Descriptors -/

/-- The lowest descriptor that is not in use. -/
def lowest (fds : Fds) (limit : Nat) : Option Nat := (List.range limit).find? fun n => (fds n).isNone

/-- What `open` comes to: the descriptor, or the error. -/
def Process.openOutcome (s : Process) : Except Nat Nat :=
  match s.answers .open 0, lowest s.fds s.limit with
  | some e, _ => .error e
  | none, none => .error EMFILE
  | none, some fd => .ok fd

/-- `open(path, flags, 0644)`. -/
def openFile (path : Path) (mode : OpenMode) : Act (Except Nat Nat) := do
  let outcome := (← get).openOutcome
  let _ ← ask .open
  match outcome with
  | .error e =>
    modify fun s => { s with opens := s.opens ++ [(path, mode, some e)] }
    pure (.error e)
  | .ok fd =>
    modify fun s => { s with
      fds := Function.update s.fds fd (some (.file path mode))
      opens := s.opens ++ [(path, mode, none)] }
    pure (.ok fd)

/-- `dup2(fd, target)`. -/
def dup2 (fd target : Nat) : Act Unit := modify fun s =>
  match s.fds fd with
  | some h => { s with fds := Function.update s.fds target (some h) }
  | none => s

/-- `close(fd)`. -/
def close (fd : Nat) : Act Unit := modify fun s => { s with fds := Function.update s.fds fd none }

/-- What `pipe` comes to: the two descriptors, or the error. -/
def Process.pipeOutcome (s : Process) : Except Nat (Nat × Nat) :=
  match s.answers .pipe 0 with
  | some e => .error e
  | none =>
    match lowest s.fds s.limit with
    | none => .error EMFILE
    | some r =>
      match lowest (Function.update s.fds r (some (.pipeRead s.pipes))) s.limit with
      | none => .error EMFILE
      | some w => .ok (r, w)

/-- `pipe(pfd)`. -/
def pipe : Act (Except Nat (Nat × Nat)) := do
  let outcome := (← get).pipeOutcome
  let _ ← ask .pipe
  match outcome with
  | .error e => pure (.error e)
  | .ok (r, w) =>
    modify fun s => { s with
      fds := Function.update (Function.update s.fds r (some (.pipeRead s.pipes))) w (some (.pipeWrite s.pipes))
      pipes := s.pipes + 1 }
    pure (.ok (r, w))

/-! ## Redirections -/

/-- `open` on a file for a redirection of `target`, and the `dup2` and `close` that follow. -/
def redirectTo (target : Nat) (path : Path) (mode : OpenMode) : Act Unit := do
  match ← openFile path mode with
  | .error e =>
    perror path e
    exit 1
  | .ok fd =>
    dup2 fd target
    close fd

/-- The loop that moves the tokens behind a redirection, with the number of turns left. -/
def shiftDown : Nat → Nat → Argv → Act Argv
  | 0, _, tokens => pure tokens
  | k + 1, rm, tokens => do shiftDown k (rm + 1) (← store tokens rm (← loadPtr tokens (rm + 2)))

/-- The operator at `i` and the name behind it are taken out of the `n` tokens. -/
def removePair (tokens : Argv) (n i : Nat) : Act Argv := do
  store (← shiftDown (n - (i + 2)) i tokens) (n - 2) none

/-- The variables of `apply_redirections`. -/
structure RedirSt where
  tokens : Argv
  n : Nat
  i : Nat

/-- One turn of the loop of `apply_redirections`. -/
def redirTurn (x : RedirSt) : Act (Cmd.Turn RedirSt (Argv × Nat)) := do
  if x.i < x.n then
    let tok ← load x.tokens x.i
    if tok = ascii ">" ∨ tok = ascii ">>" then
      if x.i + 1 ≥ x.n then
        say (ascii "myshell: syntax error near '" ++ tok ++ ascii "'\n")
        exit 1
      else
        redirectTo STDOUT (← load x.tokens (x.i + 1)) (if tok = ascii ">>" then .append else .truncate)
        pure (.again ⟨← removePair x.tokens x.n x.i, x.n - 2, x.i⟩)
    else if tok = ascii "<" then
      if x.i + 1 ≥ x.n then
        say (ascii "myshell: syntax error near '<'\n")
        exit 1
      else
        redirectTo STDIN (← load x.tokens (x.i + 1)) .read
        pure (.again ⟨← removePair x.tokens x.n x.i, x.n - 2, x.i⟩)
    else pure (.again { x with i := x.i + 1 })
  else pure (.done (x.tokens, x.n))

/-- `apply_redirections`: the array and the number of tokens after it. A turn for each token is enough. -/
def applyRedirections (tokens : Argv) (n : Nat) : Act (Argv × Nat) := do
  Cmd.loop (.running, ← get) redirTurn (n + 1) ⟨tokens, n, 0⟩

/-- The loop of `find_pipe`, with the number of turns left. -/
def findPipe (tokens : Argv) : Nat → Nat → Act (Option Nat)
  | 0, _ => pure none
  | k + 1, i => do if (← load tokens i) = ascii "|" then pure (some i) else findPipe tokens k (i + 1)

/-! ## Built-in commands -/

/-- `chdir(path)`: the error, if it fails. -/
def chdir (path : Path) : Act (Option Nat) := do
  match ← ask .chdir with
  | some e => pure (some e)
  | none =>
    modify fun s => { s with cwd := s.resolve s.cwd path }
    pure none

/-- Where `cd` leads. -/
def cdPath (tokens : Argv) (n : Nat) : Act Path := do if n ≥ 2 then load tokens 1 else return (← get).home.getD (ascii "/")

/-- `getcwd(cwd, size)`. -/
def getcwd (size : Nat) : Act (Except Nat Bytes) := do
  match ← ask .getcwd with
  | some e => pure (.error e)
  | none =>
    let cwd := (← get).cwd
    if cwd.length < size then pure (.ok cwd) else pure (.error ERANGE)

/-- The loop of `echo`, with the number of turns left. -/
def echoArgs (tokens : Argv) (n : Nat) : Nat → Nat → Act Unit
  | 0, _ => pure ()
  | k + 1, i => do
    print (← load tokens i)
    if i < n - 1 then
      print (ascii " ")
      echoArgs tokens n k (i + 1)
    else echoArgs tokens n k (i + 1)

/-- The text of `help`. -/
def helpText : Bytes :=
  ascii "\n=== Custom Shell " ++ [0xe2, 0x80, 0x94] ++ ascii " Available Commands ===\n\n" ++
  ascii "Built-ins (run in the shell process itself):\n" ++
  ascii "  cd <dir>       Change working directory\n" ++
  ascii "  pwd            Print working directory\n" ++
  ascii "  echo <msg>     Print a message\n" ++
  ascii "  exit           Quit the shell\n" ++
  ascii "  help           Show this help\n\n" ++
  ascii "Custom utilities:\n" ++
  ascii "  custom_ls   [-l] [dir]           List directory contents\n" ++
  ascii "  custom_cat  <file> [file ...]     Print files to stdout\n" ++
  ascii "  custom_grep <pattern> <file>      Search for pattern in file\n" ++
  ascii "  custom_wc   <file>                Count lines/words/chars\n" ++
  ascii "  custom_cp   <src> <dst>           Copy a file\n" ++
  ascii "  custom_mv   <src> <dst>           Move/rename a file\n" ++
  ascii "  custom_rm   [-r] <path>           Remove file or directory\n" ++
  ascii "  custom_tail [-n N] <file>         Print last N lines (default 10)\n" ++
  ascii "  custom_head [-n N] <file>         Print first N lines (default 10)\n" ++
  ascii "  custom_chmod <mode> <file>         Change file permissions (octal)\n" ++
  ascii "  custom_sort [-r] [-n] <file>      Sort lines (alpha, numeric, reverse)\n\n" ++
  ascii "Shell features:\n" ++
  ascii "  cmd1 | cmd2                       Pipe output of cmd1 into cmd2\n" ++
  ascii "  cmd > file                        Redirect stdout to file\n" ++
  ascii "  cmd >> file                       Append stdout to file\n" ++
  ascii "  cmd < file                        Redirect stdin from file\n\n"

/-- `run_builtin`: whether the command is a built-in. -/
def runBuiltin (tokens : Argv) (n : Nat) : Act Bool := do
  if n = 0 then pure true
  else
    let t ← load tokens 0
    if t = ascii "exit" then
      record (.builtin (held tokens n))
      print (ascii "Goodbye!\n")
      exit 0
    else if t = ascii "cd" then
      record (.builtin (held tokens n))
      match ← chdir (← cdPath tokens n) with
      | some e =>
        perror (ascii "cd") e
        pure true
      | none => pure true
    else if t = ascii "pwd" then
      record (.builtin (held tokens n))
      match ← getcwd 1024 with
      | .ok cwd =>
        print (cwd ++ [NL])
        pure true
      | .error e =>
        perror (ascii "pwd") e
        pure true
    else if t = ascii "echo" then
      record (.builtin (held tokens n))
      echoArgs tokens n (n - 1) 1
      print [NL]
      pure true
    else if t = ascii "help" then
      record (.builtin (held tokens n))
      print helpText
      pure true
    else pure false

/-! ## The input -/

namespace Input

variable (x : Input)

/-- The input when a line has been taken from it: from the buffer, if it is there, or else with a `read`. -/
def took (line rest : Bytes) : Input :=
  let need := line.length - x.buffered
  let more := min (x.ahead 0) rest.length
  { x with
    left := rest
    buffered := if need = 0 then x.buffered - line.length else more
    behind := if need = 0 then x.behind else x.behind.map (· ++ (x.left.drop x.buffered).take (need + more))
    ahead := if need = 0 then x.ahead else fun k => x.ahead (k + 1) }

/-- `lseek` back over what the buffer holds, which a file that is shorter than that refuses. -/
def rewind : Input :=
  match x.behind with
  | none => x
  | some b =>
    if x.buffered = 0 ∨ b.length < x.buffered then x
    else { x with
      left := x.left.take x.buffered ++ b.drop (b.length - x.buffered) ++ x.left.drop x.buffered
      behind := some (b.take (b.length - x.buffered))
      moved := x.moved + 1 }

/-- `read` of so much by somebody else. -/
def skip (n : Nat) : Input :=
  if n = 0 ∨ x.left.length ≤ x.buffered then x
  else { x with
    left := x.left.take x.buffered ++ x.left.drop (x.buffered + n)
    behind := x.behind.map (· ++ (x.left.drop x.buffered).take n)
    moved := x.moved + 1 }

/-- The input after the child `k`, which has it for its own, by how the child has ended. -/
def after (k : Nat) : Except (End × Process) (Unit × Process) → Input
  | .error (.exited _, _) => x.rewind
  | .error (.replaced, _) => x.skip (x.taken k)
  | _ => x

end Input

/-! ## Programs -/

/-- The state in which a run has ended. -/
def finalState {α : Type} : Except (End × Process) (α × Process) → Process
  | .ok (_, s) => s
  | .error (_, s) => s

/-- The next child at its creation, with a record of its own. -/
def Process.child (s : Process) : Process := { s with answers := s.kids s.forked, err := [], opens := [], execs := [] }

/-- `fork()`, with what the child does: the child as its parent knows it, or the error. -/
def fork (code : Act Unit) : Act (Except Nat Nat) := do
  match ← ask .fork with
  | some e => pure (.error e)
  | none =>
    let s ← get
    let r := code s.child
    let c := finalState r
    set { s with
      input := if c.fds STDIN = s.fds STDIN then s.input.after s.forked r else s.input
      forked := s.forked + 1
      err := s.err ++ c.err
      opens := s.opens ++ c.opens
      execs := s.execs ++ c.execs }
    pure (.ok s.forked)

/-- `waitpid(pid, ..., 0)`. -/
def waitpid (pid : Nat) : Act Unit := modify fun s => { s with waited := s.waited ++ [pid] }

/-- `execvp(argv[0], argv)`: the error when it returns. -/
def execvp (argv : Argv) : Act Nat := do
  let file ← loadPtr argv 0
  modify fun s => { s with execs := s.execs ++ [⟨file, (argv.takeWhile Option.isSome).filterMap id, s.fds⟩] }
  match file with
  | none => stop .fault
  | some _ =>
    match ← ask .execvp with
    | none => stop .replaced
    | some e => pure e

/-- The end of a child: the redirections, and the program. -/
def execChild (tokens : Argv) (n : Nat) : Act Unit := do
  let r ← applyRedirections tokens n
  let e ← execvp r.1
  say (ascii "myshell: " ++ (← load r.1 0) ++ ascii ": " ++ (← get).strerror e ++ [NL])
  exit 127

/-- `launch_single`. -/
def launchSingle (tokens : Argv) (n : Nat) : Act Unit := do
  record (.single (held tokens n))
  match ← fork (execChild tokens n) with
  | .error e => perror (ascii "fork") e
  | .ok pid => waitpid pid

/-- A child of `launch_pipe`: it closes the one end of the pipe and has the other one for `target`. -/
def pipeChild (drop keep target : Nat) (tokens : Argv) (n : Nat) : Act Unit := do
  close drop
  dup2 keep target
  close keep
  execChild tokens n

/-- The left child, which writes to the pipe. -/
def leftChild (r w : Nat) (left : Argv) (ln : Nat) : Act Unit := pipeChild r w STDOUT left ln

/-- The right child, which reads from it. -/
def rightChild (r w : Nat) (right : Argv) (rn : Nat) : Act Unit := pipeChild w r STDIN right rn

/-- `launch_pipe`. -/
def launchPipe (left : Argv) (ln : Nat) (right : Argv) (rn : Nat) : Act Unit := do
  record (.pipeline (held left ln) (held right rn))
  match ← pipe with
  | .error e => perror (ascii "pipe") e
  | .ok (r, w) =>
    match ← fork (leftChild r w left ln) with
    | .error e => perror (ascii "fork") e
    | .ok pidLeft =>
      match ← fork (rightChild r w right rn) with
      | .error e => perror (ascii "fork") e
      | .ok pidRight =>
        close r
        close w
        waitpid pidLeft
        waitpid pidRight

/-! ## The loop of the shell -/

/-- The loops of `main` that copy the tokens beside the pipe, with the number of turns left. -/
def copyTokens (src : Argv) : Nat → Nat → Nat → Argv → Act (Argv × Nat)
  | 0, _, count, dst => pure (dst, count)
  | k + 1, i, count, dst => do copyTokens src k (i + 1) (count + 1) (← store dst count (← loadPtr src i))

/-- The part of the loop of `main` for a command that is not a built-in. -/
def launch (tokens : Argv) (n : Nat) : Act Unit := do
  match ← findPipe tokens n 0 with
  | some pipePos =>
    let l ← copyTokens tokens pipePos 0 0 (← newArray)
    let r ← copyTokens tokens (n - (pipePos + 1)) (pipePos + 1) 0 (← newArray)
    let left ← store l.1 l.2 none
    let right ← store r.1 r.2 none
    if l.2 = 0 ∨ r.2 = 0 then
      record (.badPipe (held left l.2) (held right r.2))
      say (ascii "myshell: syntax error near '|'\n")
    else launchPipe left l.2 right r.2
  | none => launchSingle tokens n

/-- The part of the loop of `main` behind `tokenize`. -/
def dispatch (tokens : Argv) (n : Nat) : Act Unit := do
  if n = 0 then pure ()
  else if ← runBuiltin tokens n then pure ()
  else launch tokens n

/-- `fgets(line, sizeof line, stdin)`. -/
def readLine : Act (Option Bytes) := do
  match fgets MAX_LINE (← get).stdin with
  | none => pure none
  | some (line, rest) =>
    modify fun s => { s with input := s.input.took line rest }
    pure (some line)

/-- One turn of the loop of `main`. -/
def mainTurn (tokens : Argv) : Act (Cmd.Turn Argv Nat) := do
  print PROMPT
  match ← readLine with
  | none =>
    print [NL]
    pure (.done 0)
  | some line =>
    let r ← tokenize (cstr line) tokens
    dispatch r.1 r.2
    pure (.again r.1)

/-- The loop of `main`, with the number of turns left. -/
def mainLoop : Nat → Argv → Act Nat
  | 0, _ => stop .running
  | n + 1, tokens => do
    match ← mainTurn tokens with
    | .again tokens => mainLoop n tokens
    | .done status => pure status

/-- `main`, up to so many turns. Every turn takes a byte of the input at least, but children can give back some of it. -/
def main (turns : Nat) : Act Nat := do
  let tokens ← newArray
  print (ascii "==== Custom UNIX-like Shell (G19) ====\n")
  print (ascii "Type 'help' to see available commands, 'exit' to quit.\n\n")
  mainLoop turns tokens

end OsLab.Shell
