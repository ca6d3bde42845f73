import OsLab.CText

/-!
# custom_chmod

`parse_mode` leaves the reading of the mode to `strtol` with base eight and checks what comes back. `strtol` is any function that does
what the C standard says (`Strtol`): it skips white space, takes a sign, and then as many digits as there are.
-/

namespace OsLab.Posix

/-- A digit in base eight. -/
def isOctal (b : UInt8) : Bool := 48 ≤ b && b ≤ 55

/-- The number that a run of octal digits stands for. -/
def octalValue (bs : Bytes) : Nat := bs.foldl (fun n b => n * 8 + (b.toNat - 48)) 0

/-- The number that a sign and octal digits stand for. -/
def signedValue (sign digits : Bytes) : Int := if sign = [45] then -(octalValue digits : Int) else octalValue digits

/-- The parts of a text that can be converted in base eight: white space, a sign or none, the digits, and what follows them. -/
structure Subject (s blanks sign digits rest : Bytes) : Prop where
  text : s = blanks ++ sign ++ digits ++ rest
  blanks_space : ∀ b ∈ blanks, isSpace b = true
  sign_cases : sign = [] ∨ sign = [43] ∨ sign = [45]
  digits_ne_nil : digits ≠ []
  digits_octal : ∀ b ∈ digits, isOctal b = true
  rest_head : ∀ b ∈ rest.head?, isOctal b = false

/-- What `strtol` comes back with: its value, the distance of `end` from the beginning, and `errno`. -/
structure StrtolResult where
  val : Int
  stop : Nat
  errno : Nat
  deriving DecidableEq, Repr

/-- The C standard on `strtol(s, &end, 8)`, with `errno` zero before the call. It leaves open what `errno` is when there is nothing to
convert. -/
inductive StrtolStd (s : Bytes) : StrtolResult → Prop where
  | converts {blanks sign digits rest : Bytes} (h : Subject s blanks sign digits rest)
      (hmin : LONG_MIN ≤ signedValue sign digits) (hmax : signedValue sign digits ≤ LONG_MAX) :
      StrtolStd s ⟨signedValue sign digits, (blanks ++ sign ++ digits).length, 0⟩
  | overflows {blanks sign digits rest : Bytes} (h : Subject s blanks sign digits rest) (hmax : LONG_MAX < signedValue sign digits) :
      StrtolStd s ⟨LONG_MAX, (blanks ++ sign ++ digits).length, ERANGE⟩
  | underflows {blanks sign digits rest : Bytes} (h : Subject s blanks sign digits rest) (hmin : signedValue sign digits < LONG_MIN) :
      StrtolStd s ⟨LONG_MIN, (blanks ++ sign ++ digits).length, ERANGE⟩
  | nothing (h : ∀ blanks sign digits rest, ¬ Subject s blanks sign digits rest) (errno : Nat) : StrtolStd s ⟨0, 0, errno⟩

/-- A `strtol` of the C standard, in base eight. -/
structure Strtol where
  run : Bytes → StrtolResult
  std : ∀ s, StrtolStd s (run s)

/-- The sign that a text begins with, if it does. -/
def signOf (s : Bytes) : Bytes := if s.head? = some 43 then [43] else if s.head? = some 45 then [45] else []

/-- An implementation. -/
def strtolOctal (s : Bytes) : StrtolResult :=
  let blanks := s.takeWhile isSpace
  let sign := signOf (s.dropWhile isSpace)
  let digits := ((s.dropWhile isSpace).drop sign.length).takeWhile isOctal
  let len := (blanks ++ sign ++ digits).length
  if digits = [] then ⟨0, 0, 0⟩
  else if LONG_MAX < signedValue sign digits then ⟨LONG_MAX, len, ERANGE⟩
  else if signedValue sign digits < LONG_MIN then ⟨LONG_MIN, len, ERANGE⟩
  else ⟨signedValue sign digits, len, 0⟩

/-- `parse_mode`, with what is in `*mode` before: the result, and what is in `*mode` then. A string is its bytes before the zero, so
`*end` is the zero when `end` is at their end. -/
def parseMode (strtol : Strtol) (str : Option Bytes) (mode : Nat) : Int × Nat :=
  match str with
  | none => (-1, mode)
  | some s =>
    if s = [] then (-1, mode)
    else
      let r := strtol.run s
      if r.errno ≠ 0 ∨ r.stop ≠ s.length then (-1, mode)
      else if r.val < 0 ∨ r.val > 0o7777 then (-1, mode)
      else (0, r.val.toNat)

/-- `usage`. -/
def chmodUsage (progname : Bytes) : Tool Unit := do
  say (ascii "Usage: " ++ progname ++ ascii " <mode> <file> [file ...]\n")
  say (ascii "  <mode>  Octal permission (e.g. 755, 644, 400)\n")
  say (ascii "\nExamples:\n")
  say (ascii "  " ++ progname ++ ascii " 755 script.sh\n")
  say (ascii "  " ++ progname ++ ascii " 644 readme.txt notes.txt\n")

/-- What `%04o` prints. -/
def octalText (n : Nat) : Bytes := ((Nat.digits 8 n).reverse.map fun d => UInt8.ofNat (48 + d)).leftpad 4 48

/-- The loop over the files: the number of failures. `chmod` is the system call, with its error if it fails. -/
def chmodFiles (chmod : Path → Nat → Tool (Option Nat)) (mode : Nat) : List Path → Nat → Tool Nat
  | [], errors => pure errors
  | f :: fs, errors => do
    match ← chmod f mode with
    | some e =>
      say (ascii "custom_chmod: cannot change permissions of '" ++ f ++ ascii "': " ++ (← get).strerror e ++ [NL])
      chmodFiles chmod mode fs (errors + 1)
    | none =>
      print (ascii "'" ++ f ++ ascii "' -> " ++ octalText mode ++ [NL])
      chmodFiles chmod mode fs errors

/-- `main` of `custom_chmod`, with what is in `mode` before. -/
def chmodMain (strtol : Strtol) (chmod : Path → Nat → Tool (Option Nat)) (junk : Nat) : List Bytes → Tool Nat
  | _ :: arg :: f :: fs => do
    let r := parseMode strtol (some arg) junk
    if r.1 < 0 then
      say (ascii "custom_chmod: invalid mode '" ++ arg ++ ascii "'\n")
      pure 1
    else return if (← chmodFiles chmod r.2 (f :: fs) 0) > 0 then 1 else 0
  | args => do
    chmodUsage (args.headD [])
    pure 1

end OsLab.Posix
