import OsLab.Shell
import OsLab.Lib.Words

/-!
# Command lines

What a line means that is given to the shell, apart from how the shell goes about it. Its tokens are the words between blanks. The pipe
parts the commands; in a command each redirection operator takes the token behind it for a file, and the tokens that are left are the
arguments.
-/

namespace OsLab.Shell

open Posix

/-- The tokens of a line. -/
def tokensOf (line : Bytes) : List Bytes := words isDelim line

/-- What a redirection operator redirects, and how it opens the file. -/
def redirection (t : Bytes) : Option (Nat × OpenMode) :=
  if t = ascii ">" then some (STDOUT, .truncate)
  else if t = ascii ">>" then some (STDOUT, .append)
  else if t = ascii "<" then some (STDIN, .read)
  else none

/-- One of the operators `|`, `>`, `>>` and `<`. -/
def IsOperator (t : Bytes) : Prop := t = ascii "|" ∨ (redirection t).isSome

instance (t : Bytes) : Decidable (IsOperator t) := inferInstanceAs (Decidable (_ ∨ _))

/-- The arguments of a command; none when an operator has no operand. -/
def argsOf : List Bytes → Option (List Bytes)
  | [] => some []
  | [t] => if (redirection t).isSome then none else some [t]
  | t :: f :: ts => if (redirection t).isSome then argsOf ts else (argsOf (f :: ts)).map (t :: ·)

/-- The redirections of a command, from left to right. -/
def redirectionsOf : List Bytes → List (Nat × Handle)
  | t :: f :: ts =>
    match redirection t with
    | some (target, mode) => (target, .file f mode) :: redirectionsOf ts
    | none => redirectionsOf (f :: ts)
  | _ => []

/-- What a descriptor stands for after redirections: the last one of it wins. -/
def redirect (rs : List (Nat × Handle)) (fds : Fds) : Fds := fun d =>
  match rs.reverse.find? fun r => r.1 == d with
  | some r => some r.2
  | none => fds d

/-- A redirection: with a file that can be opened, the descriptor stands for it, and nothing else has changed. -/
def perform (target : Nat) (path : Path) (mode : OpenMode) : Act Unit := do
  let before := (← get).fds
  match ← openFile path mode with
  | .error e =>
    perror path e
    exit 1
  | .ok _ => modify fun s => { s with fds := Function.update before target (some (.file path mode)) }

/-- The redirections of a command, by recursion over its tokens, with the tokens that are left; `act` is what is done for each. -/
def redirected (act : Nat → Path → OpenMode → Act Unit) : List Bytes → Act (List Bytes)
  | [] => pure []
  | [t] =>
    match redirection t with
    | some _ => do
      say (ascii "myshell: syntax error near '" ++ t ++ ascii "'\n")
      exit 1
    | none => pure [t]
  | t :: f :: ts =>
    match redirection t with
    | some (target, mode) => do
      act target f mode
      redirected act ts
    | none => return t :: (← redirected act (f :: ts))

/-- The commands of a line. -/
def commandsOf (ts : List Bytes) : List (List Bytes) := ts.splitOn (ascii "|")

/-- A line with tokens that cannot be run: it has more than one pipe, an operator with no operand, or a command with no program. -/
def Impossible (ts : List Bytes) : Prop :=
  ts ≠ [] ∧ (2 < (commandsOf ts).length ∨ ∃ c ∈ commandsOf ts, argsOf c = none ∨ argsOf c = some [])

instance (ts : List Bytes) : Decidable (ascii "|" ∈ ts) := List.instDecidableMemOfLawfulBEq _ _

/-- The tokens before the first pipe. -/
def firstCommand (ts : List Bytes) : List Bytes := ts.takeWhile (· ≠ ascii "|")

/-- The tokens behind the first pipe. -/
def afterPipe (ts : List Bytes) : List Bytes := (ts.dropWhile (· ≠ ascii "|")).tail

/-- The names of the built-ins. -/
def builtins : List Bytes := [ascii "exit", ascii "cd", ascii "pwd", ascii "echo", ascii "help"]

end OsLab.Shell
