import OsLab.FileTree

/-!
# custom_rm

The calls of `custom_rm` on a tree of files. Whether a call fails for a reason of its own is an input, for each kind of call a list of
answers without end; so is whether `readdir` still returns an entry that has been removed since `opendir`. Nobody else changes the tree.

`remove_recursive` is given a bound on the depth of the recursion. A run that reaches it stops with the state at that point, so
that what has
been removed by then can be seen.
-/

namespace OsLab.Rm

open Posix FileTree

inductive RmCall where
  | lstat
  | opendir
  | readdir
  | unlink
  | rmdir
  deriving DecidableEq, Repr

/-- What does not change in a run: the working directory, and the texts of the errors. -/
structure Proc where
  cwd : Loc
  strerror : Nat → Bytes

/-- The tree, the answers to come (`some e` for a call that fails with `e`), and standard error. The recursive calls made so far,
each with the
path of its caller, are recorded in `calls`. -/
structure RmSt where
  tree : FileTree
  answers : RmCall → Nat → Option Nat
  stderr : Bytes
  calls : List (Path × Path)

abbrev Act (α : Type) := Cmd RmSt RmSt α

/-- The next answer to a call of this kind. -/
def ask (c : RmCall) : Act (Option Nat) := do
  let s ← get
  set { s with answers := Function.update s.answers c fun n => s.answers c (n + 1) }
  pure (s.answers c 0)

/-- A call that fails if the answer says so. -/
def call {α : Type} (c : RmCall) (go : Act (Except Nat α)) : Act (Except Nat α) := do
  match ← ask c with
  | some e => pure (.error e)
  | none => go

def say (bs : Bytes) : Act Unit := modify fun s => { s with stderr := s.stderr ++ bs }

/-- `fprintf(stderr, "custom_rm: %s: %s\n", path, strerror(errno))`, with `what` before the path. -/
def complain (p : Proc) (what : String) (path : Path) (e : Nat) : Act Unit :=
  say (ascii "custom_rm: " ++ ascii what ++ path ++ ascii ": " ++ p.strerror e ++ [NL])

/-- `lstat`, for the kind of file. -/
def lstat (p : Proc) (path : Path) : Act (Except Nat Kind) :=
  call .lstat do
    let t := (← get).tree
    match t.resolve p.cwd path with
    | .error e => pure (.error e)
    | .ok l =>
      match t.kind l with
      | none => pure (.error ENOENT)
      | some k => pure (.ok k)

/-- `opendir`, of what is known not to be a link: the directory and what it lists. -/
def opendir (p : Proc) (path : Path) : Act (Except Nat (Loc × List Name)) :=
  call .opendir do
    let t := (← get).tree
    match t.resolve p.cwd path with
    | .error e => pure (.error e)
    | .ok l => if t.kind l = some .dir then pure (.ok (l, DOT :: DOTDOT :: t.names l)) else pure (.error ENOTDIR)

/-- Whether `readdir` returns the entry, when it comes to it. One that has been removed since `opendir` may be returned or not. A call of
`readdir` that fails ends the loop as the end of the directory does; it is taken not to fail here. -/
def readdir (d : Loc) (name : Name) : Act Bool := do
  if name = DOT ∨ name = DOTDOT ∨ ((← get).tree.kind (d ++ [name])).isSome then pure true
  else return (← ask .readdir).isNone

def unlink (p : Proc) (path : Path) : Act (Except Nat Unit) :=
  call .unlink do
    let s ← get
    match s.tree.resolve p.cwd path with
    | .error e => pure (.error e)
    | .ok l =>
      if h : s.tree.kind l = some .dir then pure (.error EISDIR)
      else do
        set { s with tree := s.tree.remove l (names_of_ne_dir h) }
        pure (.ok ())

/-- `rmdir`. A path whose last name is a dot is refused, also when slashes follow the dot. -/
def rmdir (p : Proc) (path : Path) : Act (Except Nat Unit) :=
  call .rmdir do
    let s ← get
    match s.tree.resolve p.cwd path with
    | .error e => pure (.error e)
    | .ok l =>
      if s.tree.kind l ≠ some .dir then pure (.error ENOTDIR)
      else if lastName path = some DOT then pure (.error EINVAL)
      else if l = [] then pure (.error EBUSY)
      else if h : s.tree.names l = [] then do
        set { s with tree := s.tree.remove l h }
        pure (.ok ())
      else pure (.error ENOTEMPTY)

/-- `snprintf(child, sizeof child, "%s/%s", path, name)`, with `char child[2048]`. -/
def child (path : Path) (name : Name) : Path := (path ++ SLASH :: name).take 2047

/-- The loop over the entries that `opendir` found. -/
def removeEntries (remove : Path → Act Nat) (path : Path) (d : Loc) : List Name → Nat → Act Nat
  | [], rc => pure rc
  | name :: names, rc => do
    if ← readdir d name then
      if name = DOT ∨ name = DOTDOT then removeEntries remove path d names rc
      else
        modify fun s => { s with calls := s.calls ++ [(path, child path name)] }
        let r ← remove (child path name)
        removeEntries remove path d names (rc ||| r)
    else removeEntries remove path d names rc

/-- `remove_recursive`, with a bound on the depth. -/
def removeRecursive (p : Proc) : Nat → Path → Act Nat
  | 0, _ => do throw (← get)
  | n + 1, path => do
    match ← lstat p path with
    | .error e =>
      complain p "" path e
      pure 1
    | .ok k =>
      if k ≠ .dir then
        match ← unlink p path with
        | .error e =>
          complain p "" path e
          pure 1
        | .ok _ => pure 0
      else
        match ← opendir p path with
        | .error e =>
          complain p "" path e
          pure 1
        | .ok (d, names) =>
          let rc ← removeEntries (removeRecursive p n) path d names 0
          match ← rmdir p path with
          | .error e =>
            complain p "rmdir " path e
            pure 1
          | .ok _ => pure rc

/-- The loop over the arguments: whether to go on into directories, and the target. -/
def rmArgs (args : List Bytes) : Bool × Option Path :=
  args.foldl (fun r arg => if arg = ascii "-r" then (true, r.2) else (r.1, some arg)) (false, none)

/-- `main` of `custom_rm`. -/
def rm (p : Proc) (depth : Nat) (args : List Bytes) : Act Nat := do
  match rmArgs args with
  | (_, none) =>
    say (ascii "Usage: custom_rm [-r] <path>\n")
    pure 1
  | (true, some target) => removeRecursive p depth target
  | (false, some target) =>
    match ← unlink p target with
    | .error e =>
      complain p "" target e
      pure 1
    | .ok _ => pure 0

end OsLab.Rm
