import OsLab.Lib.Cmd

/-!
# The calls that the tools make

The tools of the second project run on a file system, standard output and standard error (`Os`). What the operating system
decides is an input: for each kind of call there is a list of answers without end, and every call takes the next one of its
kind. An answer is an error, or says how much a call that moves bytes moves at most; such a call moves one byte at least, and a
`read` comes to nothing only at the end of the file. What memory holds before it is written is an input as well.

A tool is a command that returns its exit status. It stops without returning when a loop has used up the turns that it was
given (`Stop.running`), or when it leaves an array (`Stop.fault`).
-/

namespace OsLab.Posix

open Function (update update_self update_of_ne)

/-- The content of a file, or a text. -/
abbrev Bytes := List UInt8

abbrev Path := Bytes

/-- The number of a file, by which two names of one file are known. -/
abbrev Ino := Nat

structure Inode where
  data : Bytes
  mode : Nat

/-- What the paths name, and the files. Numbers from `next` on are not in use. -/
structure FileSys where
  names : Path → Option Ino
  inode : Ino → Inode
  next : Ino
  named_lt : ∀ p i, names p = some i → i < next

namespace FileSys

/-- The content of the file that a path names. -/
def content (fs : FileSys) (p : Path) : Option Bytes := (fs.names p).map fun i => (fs.inode i).data

/-- A file with other content. -/
def setData (fs : FileSys) (i : Ino) (bs : Bytes) : FileSys :=
  { fs with inode := update fs.inode i { fs.inode i with data := bs } }

/-- A new empty file under a name. -/
def create (fs : FileSys) (p : Path) (mode : Nat) : FileSys where
  names := update fs.names p (some fs.next)
  inode := update fs.inode fs.next { data := [], mode := mode }
  next := fs.next + 1
  named_lt q i h := by
    by_cases hq : q = p
    · subst hq
      rw [update_self] at h
      cases h
      exact Nat.lt_succ_self _
    · rw [update_of_ne hq] at h
      exact Nat.lt_succ_of_lt (fs.named_lt q i h)

/-- A name taken away. -/
def remove (fs : FileSys) (p : Path) : FileSys :=
  { fs with
    names := update fs.names p none
    named_lt := fun q i h => by
      by_cases hq : q = p
      · subst hq
        rw [update_self] at h
        cases h
      · rw [update_of_ne hq] at h
        exact fs.named_lt q i h }

/-- The file `i` under the name `q`. -/
def link (fs : FileSys) (q : Path) (i : Ino) (hi : i < fs.next) : FileSys :=
  { fs with
    names := update fs.names q (some i)
    named_lt := fun p j h => by
      by_cases hp : p = q
      · subst hp
        rw [update_self] at h
        cases h
        exact hi
      · rw [update_of_ne hp] at h
        exact fs.named_lt p j h }

end FileSys

/-- The kinds of calls whose answers are an input. -/
inductive Syscall where
  | opens
  | stats
  | reads
  | writes
  | unlinks
  | renames
  | allocs
  deriving DecidableEq, Repr

/-- An answer: an error with its number, or leave to move at most `n + 1` bytes, or everything. -/
inductive Answer where
  | error (errno : Nat)
  | part (n : Nat)
  | full
  deriving DecidableEq, Repr

/-- How many of `avail` bytes move. -/
def Answer.amount : Answer → Nat → Nat
  | .error _, _ => 0
  | .part n, avail => min (n + 1) avail
  | .full, avail => avail

/-- What a tool runs on. -/
structure Os where
  fs : FileSys
  stdout : Bytes
  stderr : Bytes
  answers : Syscall → Nat → Answer
  /-- What the next blocks of memory hold that nobody has written. -/
  junk : Nat → Nat → UInt8
  strerror : Nat → Bytes
  umask : Nat

/-- Why a tool has not returned. -/
inductive Stop where
  | running
  | fault
  deriving DecidableEq, Repr

abbrev Tool (α : Type) := Cmd Stop Os α

/-- A text of the program. -/
def ascii (s : String) : Bytes := s.toList.map fun c => UInt8.ofNat c.toNat

/-- The byte `'\n'`. -/
abbrev NL : UInt8 := 10

/-- `fprintf(stderr, ...)`. -/
def say (bs : Bytes) : Tool Unit := modify fun s => { s with stderr := s.stderr ++ bs }

/-- `printf(...)`. -/
def print (bs : Bytes) : Tool Unit := modify fun s => { s with stdout := s.stdout ++ bs }

/-- `perror`. -/
def perror (what : String) (errno : Nat) : Tool Unit := do
  say (ascii what ++ ascii ": " ++ (← get).strerror errno ++ [NL])

/-- The message `tool: path: error`. -/
def complain (tool : String) (path : Path) (errno : Nat) : Tool Unit := do
  say (ascii tool ++ ascii ": " ++ path ++ ascii ": " ++ (← get).strerror errno ++ [NL])

/-- The answers with the first one of a kind taken. -/
def Os.popped (s : Os) (c : Syscall) : Os :=
  { s with answers := update s.answers c fun n => s.answers c (n + 1) }

/-- The answer to a call. -/
def ask (c : Syscall) : Tool Answer := do
  let s ← get
  set (s.popped c)
  pure (s.answers c 0)

/-- A call: `fail` is what it returns with an error, and `go` what it does with any other answer. -/
def call {α : Type} (c : Syscall) (fail : Nat → α) (go : Answer → Tool α) : Tool α := do
  match ← ask c with
  | .error e => pure (fail e)
  | a => go a

/-- The first `n` bytes of memory that holds `g`. -/
def block (g : Nat → UInt8) (n : Nat) : Bytes := (List.range n).map g

/-- The state with a block of memory taken. -/
def Os.nextJunk (s : Os) : Os := { s with junk := fun k => s.junk (k + 1) }

/-- A block of memory as it comes: `n` bytes of whatever. -/
def junk (n : Nat) : Tool Bytes := do
  let s ← get
  set s.nextJunk
  pure (block (s.junk 0) n)

/-- A store to an element of an array. -/
def store {α : Type} (a : List α) (i : Nat) (x : α) : Tool (List α) :=
  if i < a.length then pure (a.set i x) else throw .fault

/-- `malloc(n)`, or the block of a `realloc` before the old content is put into it; an error for the null pointer. -/
def malloc (n : Nat) : Tool (Except Nat Bytes) := call .allocs .error fun _ => return .ok (← junk n)

/-- An open file: which one, and how far it has been read or written. -/
structure OpenFile where
  ino : Ino
  pos : Nat
  deriving DecidableEq, Repr

def ENOENT : Nat := 2

/-- `open(path, O_RDONLY)`. -/
def openRead (path : Path) : Tool (Except Nat OpenFile) :=
  call .opens .error fun _ => do
    match (← get).fs.names path with
    | none => pure (.error ENOENT)
    | some i => pure (.ok ⟨i, 0⟩)

/-- `open(path, O_WRONLY | O_CREAT | O_TRUNC, mode)`. -/
def openTrunc (path : Path) (mode : Nat) : Tool (Except Nat OpenFile) :=
  call .opens .error fun _ => do
    let s ← get
    match s.fs.names path with
    | none =>
      set { s with fs := s.fs.create path (mode &&& (0o777 - s.umask % 0o1000)) }
      pure (.ok ⟨s.fs.next, 0⟩)
    | some i =>
      set { s with fs := s.fs.setData i [] }
      pure (.ok ⟨i, 0⟩)

/-- `fstat`, for the mode: `none` when it fails. -/
def fstat (f : OpenFile) : Tool (Option Nat) :=
  call .stats (fun _ => none) fun _ => return some ((← get).fs.inode f.ino).mode

/-- `read(fd, buf, size)`: the bytes read, and the file after it. -/
def read (f : OpenFile) (size : Nat) : Tool (Except Nat Bytes × OpenFile) :=
  call .reads (fun e => (.error e, f)) fun a => do
    let left := ((← get).fs.inode f.ino).data.drop f.pos
    let bs := left.take (a.amount (min size left.length))
    pure (.ok bs, { f with pos := f.pos + bs.length })

/-- What a descriptor for writing stands for. -/
inductive Fd where
  | stdout
  | file (f : OpenFile)
  deriving DecidableEq, Repr

/-- `write(fd, buf, n)` of the bytes `bs`: how many were written, and the descriptor after it. -/
def write (fd : Fd) (bs : Bytes) : Tool (Except Nat Nat × Fd) :=
  call .writes (fun e => (.error e, fd)) fun a => do
    let n := a.amount bs.length
    match fd with
    | .stdout =>
      modify fun s => { s with stdout := s.stdout ++ bs.take n }
      pure (.ok n, .stdout)
    | .file f =>
      modify fun s =>
        let data := (s.fs.inode f.ino).data
        { s with fs := s.fs.setData f.ino (data.take f.pos ++ bs.take n ++ data.drop (f.pos + n)) }
      pure (.ok n, .file { f with pos := f.pos + n })

/-- `unlink(path)`: the error, if it fails. -/
def unlink (path : Path) : Tool (Option Nat) :=
  call .unlinks some fun _ => do
    let s ← get
    match s.fs.names path with
    | none => pure (some ENOENT)
    | some _ =>
      set { s with fs := s.fs.remove path }
      pure none

/-- `rename(p, q)`: the error, if it fails. Two names of one file are left as they are. -/
def rename (p q : Path) : Tool (Option Nat) :=
  call .renames some fun _ => do
    let s ← get
    match h : s.fs.names p with
    | none => pure (some ENOENT)
    | some i =>
      if s.fs.names q = some i then pure none
      else
        set { s with fs := (s.fs.link q i (s.fs.named_lt p i h)).remove p }
        pure none

/-- The turns of a loop `while (off < n)` around `write`, with the bytes that are left. -/
def writeTurn (x : Bytes × Fd) : Tool (Cmd.Turn (Bytes × Fd) (Except Nat Fd)) := do
  if x.1 = [] then pure (.done (.ok x.2))
  else
    match ← write x.2 x.1 with
    | (.error e, _) => pure (.done (.error e))
    | (.ok w, fd) => pure (.again (x.1.drop w, fd))

/-- The loop that writes a block whole, unless a `write` fails. A turn for each byte is enough. -/
def writeAll (fd : Fd) (bs : Bytes) : Tool (Except Nat Fd) :=
  Cmd.loop .running writeTurn (bs.length + 1) (bs, fd)

end OsLab.Posix
