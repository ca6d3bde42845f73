import OsLab.Posix

/-!
# custom_cat, custom_cp and custom_mv

The three tools share one loop: read a block, write it whole, until `read` returns nothing or fails or a `write` fails. They
differ in what they make of its end.
-/

namespace OsLab.Posix

/-- `BUF_SIZE` of the tools. -/
def BUF_SIZE : Nat := 4096

/-- How the loop ends: `n == 0`, `n < 0`, or a `write` that failed inside it. -/
inductive CopyEnd where
  | eof
  | readError (errno : Nat)
  | writeError (errno : Nat)
  deriving DecidableEq, Repr

/-- One turn of `while ((n = read(src, buf, BUF_SIZE)) > 0)`. -/
def copyTurn (x : OpenFile × Fd) : Tool (Cmd.Turn (OpenFile × Fd) CopyEnd) := do
  match ← read x.1 BUF_SIZE with
  | (.error e, _) => pure (.done (.readError e))
  | (.ok [], _) => pure (.done .eof)
  | (.ok (b :: bs), src) =>
    match ← writeAll x.2 (b :: bs) with
    | .error e => pure (.done (.writeError e))
    | .ok dst => pure (.again (src, dst))

/-- The loop, for so many turns at most. -/
def copyLoop (turns : Nat) (src : OpenFile) (dst : Fd) : Tool CopyEnd := Cmd.loop .running copyTurn turns (src, dst)

/-- `dump` of `custom_cat`. A failed `read` is reported, and the function goes on as at the end of the file. -/
def dump (turns : Nat) (path : Path) : Tool Nat := do
  match ← openRead path with
  | .error e =>
    complain "custom_cat" path e
    pure 1
  | .ok fd =>
    match ← copyLoop turns fd .stdout with
    | .writeError e =>
      perror "custom_cat: write" e
      pure 1
    | .readError e =>
      perror "custom_cat: read" e
      pure 0
    | .eof => pure 0

/-- `main` of `custom_cat`, with the arguments after the name of the program. -/
def cat (turns : Nat) (args : List Path) : Tool Nat := do
  if args = [] then
    say (ascii "Usage: custom_cat <file> [file ...]\n")
    pure 1
  else args.foldlM (fun rc path => return rc ||| (← dump turns path)) 0

/-- The mode for the copy: the permission bits of the source, or 0644 when `fstat` fails. -/
def copyMode (src : OpenFile) : Tool Nat := do
  match ← fstat src with
  | none => pure 0o644
  | some mode => pure (mode &&& 0o777)

/-- `main` of `custom_cp`. A failed `read` is reported, and the copy counts as done. -/
def cp (turns : Nat) (args : List Path) : Tool Nat := do
  match args with
  | [srcPath, dstPath] =>
    match ← openRead srcPath with
    | .error e =>
      complain "custom_cp" srcPath e
      pure 1
    | .ok src =>
      let mode ← copyMode src
      match ← openTrunc dstPath mode with
      | .error e =>
        complain "custom_cp" dstPath e
        pure 1
      | .ok dst =>
        match ← copyLoop turns src (.file dst) with
        | .writeError e =>
          perror "custom_cp: write" e
          pure 1
        | .readError e =>
          perror "custom_cp: read" e
          print (ascii "Copied '" ++ srcPath ++ ascii "' -> '" ++ dstPath ++ ascii "'\n")
          pure 0
        | .eof =>
          print (ascii "Copied '" ++ srcPath ++ ascii "' -> '" ++ dstPath ++ ascii "'\n")
          pure 0
  | _ =>
    say (ascii "Usage: custom_cp <source> <destination>\n")
    pure 1

/-- The message of `perror(path)`. -/
def perrorPath (path : Path) (errno : Nat) : Tool Unit := do
  say (path ++ ascii ": " ++ (← get).strerror errno ++ [NL])

/-- `copy_then_unlink` of `custom_mv`. The end of the loop is taken for the end of the file, whatever it was. -/
def copyThenUnlink (turns : Nat) (srcPath dstPath : Path) : Tool Nat := do
  match ← openRead srcPath with
  | .error e =>
    perrorPath srcPath e
    pure 1
  | .ok src =>
    let mode ← copyMode src
    match ← openTrunc dstPath mode with
    | .error e =>
      perrorPath dstPath e
      pure 1
    | .ok dst =>
      match ← copyLoop turns src (.file dst) with
      | .writeError e =>
        perror "write" e
        pure 1
      | _ =>
        match ← unlink srcPath with
        | some e =>
          perror "unlink" e
          pure 1
        | none => pure 0

def EXDEV : Nat := 18

/-- `main` of `custom_mv`. -/
def mv (turns : Nat) (args : List Path) : Tool Nat := do
  match args with
  | [srcPath, dstPath] =>
    match ← rename srcPath dstPath with
    | none =>
      print (ascii "Moved '" ++ srcPath ++ ascii "' -> '" ++ dstPath ++ ascii "'\n")
      pure 0
    | some e =>
      if e = EXDEV then
        if (← copyThenUnlink turns srcPath dstPath) = 0 then
          print (ascii "Moved (cross-device) '" ++ srcPath ++ ascii "' -> '" ++ dstPath ++ ascii "'\n")
          pure 0
        else pure 1
      else
        say (ascii "custom_mv: " ++ (← get).strerror e ++ [NL])
        pure 1
  | _ =>
    say (ascii "Usage: custom_mv <source> <destination>\n")
    pure 1

/-- A `read` fails while bytes are left: `left` of them, with blocks of `size`, under these answers. -/
inductive ReadFails (size : Nat) : Nat → (Nat → Answer) → Prop where
  | now {left : Nat} {r : Nat → Answer} {e : Nat} (hleft : 0 < left) (he : r 0 = .error e) : ReadFails size left r
  | later {left : Nat} {r : Nat → Answer} (hleft : 0 < left) (hok : ∀ e, r 0 ≠ .error e)
      (h : ReadFails size (left - (r 0).amount (min size left)) fun n => r (n + 1)) : ReadFails size left r

/-- The two paths name different files, or the first names none. -/
def DifferentFiles (fs : FileSys) (p q : Path) : Prop := ∀ i, fs.names p = some i → fs.names q ≠ some i

/-- The bytes of the file that a path names; none for a path that names nothing. -/
def FileSys.size (fs : FileSys) (p : Path) : Nat := ((fs.content p).getD []).length

/-- What a move must not lose: the source is gone only when the destination has its content, and after a failure it is as it
was. -/
structure KeepsData (src dst : Path) (fs fs' : FileSys) (status : Nat) : Prop where
  removed : ∀ c, fs.content src = some c → fs'.names src = none → fs'.content dst = some c
  kept : status = 1 → fs'.content src = fs.content src

end OsLab.Posix
