import OsLab.CText

/-!
# custom_head, custom_tail and custom_grep

The tools that go by lines. `custom_head` and `custom_tail` read blocks and take them apart byte by byte; `custom_grep` reads lines with
`fgets`. An access outside an array stops the tool with a fault.
-/

namespace OsLab.Posix

/-- `BUF_SIZE` of `custom_head` and `custom_tail`. -/
def BLOCK : Nat := 4096

/-! ## custom_head -/

/-- The variables of `main` of `custom_head`. -/
structure HeadSt where
  fd : OpenFile
  linesPrinted : Nat
  printBuf : Bytes
  printBufLen : Nat

/-- `write(STDOUT_FILENO, print_buf, print_buf_len)`, whose result is not looked at, and `print_buf_len = 0`. -/
def headFlush (st : HeadSt) : Tool HeadSt := do
  let _ ← write .stdout (st.printBuf.take st.printBufLen)
  pure { st with printBufLen := 0 }

/-- The body of the inner loop, for one byte. -/
def headByte (b : UInt8) (st : HeadSt) : Tool HeadSt := do
  let printBuf ← store st.printBuf st.printBufLen b
  let st := { st with printBuf := printBuf, printBufLen := st.printBufLen + 1 }
  let st ← if b = NL then do
      let st ← headFlush st
      pure { st with linesPrinted := st.linesPrinted + 1 }
    else pure st
  if st.printBufLen = BLOCK - 1 then headFlush st else pure st

/-- The inner loop, over the bytes of a block. -/
def headBytes (nlines : Nat) : Bytes → HeadSt → Tool HeadSt
  | [], st => pure st
  | b :: bs, st => do
    if st.linesPrinted < nlines then
      let st ← headByte b st
      headBytes nlines bs st
    else pure st

/-- One turn of `while (lines_printed < nlines)`: the loop ends in an error, or at its end with the variables as they are. -/
def headTurn (nlines : Nat) (st : HeadSt) : Tool (Cmd.Turn HeadSt (Except Nat HeadSt)) := do
  if st.linesPrinted < nlines then
    match ← read st.fd BLOCK with
    | (.error e, _) => pure (.done (.error e))
    | (.ok [], fd) => pure (.done (.ok { st with fd := fd }))
    | (.ok bs, fd) => return .again (← headBytes nlines bs { st with fd := fd })
  else pure (.done (.ok st))

/-- `main` of `custom_head` once the arguments have been read. -/
def headFile (turns nlines : Nat) (path : Path) : Tool Nat := do
  match ← openRead path with
  | .error e =>
    complain "custom_head" path e
    pure 1
  | .ok fd =>
    let printBuf ← junk BLOCK
    match ← Cmd.loop .running (headTurn nlines) turns ⟨fd, 0, printBuf, 0⟩ with
    | .error e =>
      perror "custom_head: read" e
      pure 1
    | .ok st =>
      if 0 < st.printBufLen then
        let _ ← write .stdout (st.printBuf.take st.printBufLen)
      pure 0

/-- The arguments of `custom_head`: the number of lines and the path, or a message. -/
def headArgs : List Bytes → Nat → Option Path → Except Bytes (Nat × Path)
  | [], _, none => .error (ascii "Usage: custom_head [-n N] <file>\n")
  | [], n, some path => .ok (n, path)
  | arg :: args, n, path =>
    if arg = ascii "-n" then
      match args with
      | [] => .error (ascii "custom_head: option -n requires an argument\n")
      | num :: args =>
        if atoi num ≤ 0 then .error (ascii "custom_head: invalid line count '" ++ num ++ ascii "'\n")
        else headArgs args (atoi num).toNat path
    else headArgs args n (some arg)

/-- `main` of `custom_head`. -/
def head (turns : Nat) (args : List Bytes) : Tool Nat := do
  match headArgs args 10 none with
  | .error msg =>
    say msg
    pure 1
  | .ok (nlines, path) => headFile turns nlines path

/-! ## custom_tail -/

/-- `MAX_LINE_LEN`. -/
def MAX_LINE_LEN : Nat := 4096

/-- The variables of `dump_tail`. -/
structure TailSt where
  fd : OpenFile
  circ : List (Option Bytes)
  tempLine : Bytes
  tLen : Nat
  count : Int

/-- `strdup`: the null pointer when there is no memory. -/
def strdup (bs : Bytes) : Tool (Option Bytes) := call .allocs (fun _ => none) fun _ => pure (some (cstr bs))

/-- The index `i % keep_lines` into `circ`, in `int` arithmetic. -/
def ringIndex (keepLines : Nat) (i : Int) : Tool Nat :=
  let k := i.tmod keepLines
  if 0 ≤ k ∧ k < keepLines then pure k.toNat else throw .fault

/-- The record in `temp_line` goes into the ring. -/
def tailRecord (keepLines : Nat) (st : TailSt) : Tool TailSt := do
  let tempLine ← store st.tempLine st.tLen 0
  let k ← ringIndex keepLines st.count
  let line ← strdup tempLine
  let circ ← store st.circ k line
  pure { st with circ := circ, tempLine := tempLine, tLen := 0, count := int32 (st.count + 1) }

/-- The body of the inner loop, for one byte. -/
def tailByte (keepLines : Nat) (b : UInt8) (st : TailSt) : Tool TailSt := do
  let tempLine ← store st.tempLine st.tLen b
  let st := { st with tempLine := tempLine, tLen := st.tLen + 1 }
  if b = NL ∨ st.tLen = MAX_LINE_LEN - 1 then tailRecord keepLines st else pure st

/-- The inner loop, over the bytes of a block. -/
def tailBytes (keepLines : Nat) : Bytes → TailSt → Tool TailSt
  | [], st => pure st
  | b :: bs, st => do
    let st ← tailByte keepLines b st
    tailBytes keepLines bs st

/-- One turn of the loop around `read`. A failed `read` is reported after the loop. -/
def tailTurn (keepLines : Nat) (st : TailSt) : Tool (Cmd.Turn TailSt (TailSt × Option Nat)) := do
  match ← read st.fd BLOCK with
  | (.error e, fd) => pure (.done ({ st with fd := fd }, some e))
  | (.ok [], fd) => pure (.done ({ st with fd := fd }, none))
  | (.ok bs, fd) => return .again (← tailBytes keepLines bs { st with fd := fd })

/-- The loop that prints what is in the ring, for the last `n` turns, from turn `i` on. A `write` that fails ends the line. -/
def tailPrint (keepLines : Nat) (circ : List (Option Bytes)) (start : Int) : Nat → Nat → Tool Unit
  | 0, _ => pure ()
  | n + 1, i => do
    let k ← ringIndex keepLines (int32 (start + i))
    match circ[k]? with
    | some (some line) =>
      let _ ← writeAll .stdout (cstr line)
      tailPrint keepLines circ start n (i + 1)
    | some none => tailPrint keepLines circ start n (i + 1)
    | none => throw .fault

/-- `dump_tail`. -/
def dumpTail (turns keepLines : Nat) (path : Path) : Tool Nat := do
  match ← openRead path with
  | .error e =>
    complain "custom_tail" path e
    pure 1
  | .ok fd =>
    match ← ask .allocs with
    | .error e =>
      perror "custom_tail: calloc" e
      pure 1
    | _ =>
      let tempLine ← junk MAX_LINE_LEN
      let (st, err) ← Cmd.loop .running (tailTurn keepLines) turns ⟨fd, List.replicate keepLines none, tempLine, 0, 0⟩
      match err with
      | some e => perror "custom_tail: read" e
      | none => pure ()
      let st ← if 0 < st.tLen then tailRecord keepLines st else pure st
      let start : Int := if st.count > keepLines then st.count.tmod keepLines else 0
      let limit : Int := if st.count > keepLines then keepLines else st.count
      tailPrint keepLines st.circ start limit.toNat 0
      pure 0

/-- `main` of `custom_tail`. -/
def tail (turns : Nat) (args : List Bytes) : Tool Nat := do
  match args with
  | [] =>
    say (ascii "Usage: custom_tail [-n N] <file>\n")
    pure 1
  | arg :: rest =>
    if arg = ascii "-n" then
      match rest with
      | num :: path :: _ => dumpTail turns (if atoi num ≤ 0 then 10 else (atoi num).toNat) path
      | _ =>
        say (ascii "Usage: custom_tail [-n N] <file>\n")
        pure 1
    else dumpTail turns 10 arg

/-! ## custom_grep -/

/-- `MAX_LINE`. -/
def MAX_LINE : Nat := 4096

/-- The variables of the loop of `custom_grep`: what is left of the file, `lineno` and `matches`. -/
structure GrepSt where
  rest : Bytes
  lineno : Int
  found : Int

/-- One turn of `while (fgets(line, sizeof line, fp) != NULL)`. -/
def grepTurn (pattern : Bytes) (st : GrepSt) : Tool (Cmd.Turn GrepSt Int) := do
  match fgets MAX_LINE st.rest with
  | none => pure (.done st.found)
  | some (line, rest) =>
    let lineno := int32 (st.lineno + 1)
    if Contains (cstr line) pattern then
      print (decimal lineno ++ ascii ": " ++ cstr line)
      pure (.again ⟨rest, lineno, int32 (st.found + 1)⟩)
    else pure (.again ⟨rest, lineno, st.found⟩)

/-- `main` of `custom_grep`. The stream hands over the content of the file. -/
def grep (turns : Nat) (args : List Bytes) : Tool Nat := do
  match args with
  | [pattern, path] =>
    match ← openRead path with
    | .error e =>
      complain "custom_grep" path e
      pure 1
    | .ok fp =>
      let s ← get
      let found ← Cmd.loop .running (grepTurn pattern) turns ⟨(s.fs.inode fp.ino).data, 0, 0⟩
      pure (if found > 0 then 0 else 1)
  | _ =>
    say (ascii "Usage: custom_grep <pattern> <file>\n")
    pure 1

end OsLab.Posix
