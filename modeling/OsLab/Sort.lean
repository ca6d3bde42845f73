import OsLab.CText
import OsLab.Lib.Compare

/-!
# custom_sort

The file is read into a block that is doubled when it is full, its newlines are overwritten with zeros, and an array of pointers into
the block is sorted. A pointer is an offset into the block, and `qsort` and `strcmp` are any functions that do what the C standard says.
-/

namespace OsLab.Posix

/-- `strcmp`: the order of the strings by unsigned bytes, in an `int` other than the least one. -/
structure Strcmp where
  cmp : Bytes → Bytes → Int
  neg_iff : ∀ a b, cmp a b < 0 ↔ a < b
  pos_iff : ∀ a b, 0 < cmp a b ↔ b < a
  range : ∀ a b, -2 ^ 31 < cmp a b ∧ cmp a b < 2 ^ 31

/-- `cmp_alpha`, for the two strings. -/
def cmpAlpha (strcmp : Strcmp) (optReverse : Bool) (sa sb : Bytes) : Int :=
  let result := strcmp.cmp sa sb
  if optReverse then int32 (-result) else result

/-- `cmp_numeric`, for the two strings. -/
def cmpNumeric (optReverse : Bool) (sa sb : Bytes) : Int :=
  let la := strtol sa
  let lb := strtol sb
  let result : Int := (if la > lb then 1 else 0) - (if la < lb then 1 else 0)
  if optReverse then int32 (-result) else result

/-- The variables of `read_file`; `cap` is the length of `data`. -/
structure LoadSt where
  fd : OpenFile
  data : Bytes
  len : Nat

/-- One turn of the loop of `read_file`: it is over with nothing when a call fails. -/
def loadTurn (st : LoadSt) : Tool (Cmd.Turn LoadSt (Option (Bytes × Nat))) := do
  match ← read st.fd (st.data.length - st.len) with
  | (.error e, _) =>
    perror "custom_sort: read" e
    pure (.done none)
  | (.ok [], _) => pure (.done (some (st.data, st.len)))
  | (.ok bs, fd) =>
    let data := st.data.take st.len ++ bs ++ st.data.drop (st.len + bs.length)
    let len := st.len + bs.length
    if len = data.length then
      match ← malloc (data.length * 2) with
      | .error e =>
        perror "custom_sort: realloc" e
        pure (.done none)
      | .ok tmp => pure (.again ⟨fd, data ++ tmp.drop data.length, len⟩)
    else pure (.again ⟨fd, data, len⟩)

/-- `BUF_SIZE` of `custom_sort`. -/
def LOAD_SIZE : Nat := 4096

/-- `read_file`: the block and how much of it has been read, or nothing. -/
def readFile (turns : Nat) (path : Path) : Tool (Option (Bytes × Nat)) := do
  match ← openRead path with
  | .error e =>
    complain "custom_sort" path e
    pure none
  | .ok fd =>
    match ← malloc LOAD_SIZE with
    | .error e =>
      perror "custom_sort: malloc" e
      pure none
    | .ok data => Cmd.loop .running loadTurn turns ⟨fd, data, 0⟩

/-- `INITIAL_LINES`. -/
def INITIAL_LINES : Nat := 256

/-- The block, the array `lines` of offsets into it, and `lines_cap`. -/
structure LinesSt where
  data : Bytes
  lines : List Nat
  linesCap : Nat

/-- The body of the loop that splits the block, at `i`. -/
def splitByte (dataLen i : Nat) (st : LinesSt) : Tool (Option LinesSt) := do
  if st.data[i]? = some NL then
    let data ← store st.data i 0
    if i + 1 < dataLen then
      if st.lines.length = st.linesCap then
        match ← ask .allocs with
        | .error e =>
          perror "custom_sort: realloc" e
          pure none
        | _ => pure (some ⟨data, st.lines ++ [i + 1], st.linesCap * 2⟩)
      else pure (some ⟨data, st.lines ++ [i + 1], st.linesCap⟩)
    else pure (some { st with data := data })
  else pure (some st)

/-- The loop that splits the block, with `n` turns to go from `i` on. -/
def splitLines (dataLen : Nat) : Nat → Nat → LinesSt → Tool (Option LinesSt)
  | 0, _, st => pure (some st)
  | n + 1, i, st => do
    match ← splitByte dataLen i st with
    | none => pure none
    | some st => splitLines dataLen n (i + 1) st

/-- The part of `main` before the sort: how much has been read and the lines, or the status with which `main` is over. -/
def loadLines (turns : Nat) (path : Path) : Tool (Except Nat (Nat × LinesSt)) := do
  match ← readFile turns path with
  | none => pure (.error 1)
  | some (data, dataLen) =>
    if dataLen = 0 then pure (.error 0)
    else
      match ← ask .allocs with
      | .error e =>
        perror "custom_sort: malloc" e
        pure (.error 1)
      | _ =>
        match ← splitLines dataLen dataLen 0 ⟨data, [0], INITIAL_LINES⟩ with
        | none => pure (.error 1)
        | some st => pure (.ok (dataLen, st))

/-- The loop that prints the lines. A string without an end in the block is read beyond it. -/
def printLines (data : Bytes) : List Nat → Tool Unit
  | [] => pure ()
  | p :: ps => do
    if 0 ∈ data.drop p then
      print (cstr (data.drop p) ++ [NL])
      printLines data ps
    else throw .fault

/-- The options and the path. -/
structure SortArgs where
  optReverse : Bool
  optNumeric : Bool
  path : Option Path
  deriving DecidableEq, Repr

/-- The loop over the arguments. -/
def sortArgs (args : List Bytes) : SortArgs :=
  args.foldl (fun opts arg =>
    if arg = ascii "-r" then { opts with optReverse := true }
    else if arg = ascii "-n" then { opts with optNumeric := true }
    else { opts with path := some arg }) ⟨false, false, none⟩

/-- The comparator that `main` takes, for the two strings. -/
def sortCmp (strcmp : Strcmp) (opts : SortArgs) : Bytes → Bytes → Int :=
  if opts.optNumeric then cmpNumeric opts.optReverse else cmpAlpha strcmp opts.optReverse

/-- `main` of `custom_sort`. A comparison reads strings that are printed afterwards: one without an end is found out there at the latest. -/
def sort (qsort : Sorter Nat) (strcmp : Strcmp) (turns : Nat) (args : List Bytes) : Tool Nat := do
  let opts := sortArgs args
  match opts.path with
  | none =>
    say (ascii "Usage: custom_sort [-r] [-n] <file>\n")
    pure 1
  | some path =>
    match ← loadLines turns path with
    | .error status => pure status
    | .ok (_, st) =>
      let cmp p q := sortCmp strcmp opts (cstr (st.data.drop p)) (cstr (st.data.drop q))
      printLines st.data (qsort.sort cmp st.lines)
      pure 0

end OsLab.Posix
