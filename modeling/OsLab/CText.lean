import OsLab.Posix
import OsLab.Machine
import Mathlib.Data.Nat.Digits.Defs

/-!
# Texts of the C library

The functions of the C library that the tools use on texts: C strings, `strtol` and `atoi` in base ten, the conversion `%d`,
`fgets` and `strstr`.
-/

namespace OsLab.Posix

/-- The C string at the start of a block: the bytes before the first zero. -/
def cstr (bs : Bytes) : Bytes := bs.takeWhile (· ≠ 0)

/-- `isspace` in the C locale. -/
def isSpace (b : UInt8) : Bool := b == 32 || (9 ≤ b && b ≤ 13)

def isDigit (b : UInt8) : Bool := 48 ≤ b && b ≤ 57

def LONG_MAX : Int := 2 ^ 63 - 1

def LONG_MIN : Int := -2 ^ 63

def ERANGE : Nat := 34

/-- The number that a run of digits stands for. -/
def digitsValue (bs : Bytes) : Nat := bs.foldl (fun n b => n * 10 + (b.toNat - 48)) 0

/-- `strtol(s, NULL, 10)`: blanks, a sign, and digits; out of range it saturates. -/
def strtol (s : Bytes) : Int :=
  match s.dropWhile isSpace with
  | 45 :: s => max LONG_MIN (-(digitsValue (s.takeWhile isDigit) : Int))
  | 43 :: s => min LONG_MAX (digitsValue (s.takeWhile isDigit))
  | s => min LONG_MAX (digitsValue (s.takeWhile isDigit))

/-- `atoi`. -/
def atoi (s : Bytes) : Int := int32 (strtol s)

/-- A number in decimal. -/
def decimalNat (n : Nat) : Bytes := if n = 0 then [48] else (Nat.digits 10 n).reverse.map fun d => UInt8.ofNat (48 + d)

/-- What `%d` prints. -/
def decimal (n : Int) : Bytes := if n < 0 then 45 :: decimalNat n.natAbs else decimalNat n.natAbs

/-- The bytes of a text up to the first newline and with it, but at most `n` of them. -/
def takeLine : Nat → Bytes → Bytes
  | 0, _ => []
  | _, [] => []
  | n + 1, b :: bs => if b = NL then [b] else b :: takeLine n bs

/-- `fgets(line, size, fp)` with this much of the file left: the line, and what is left then. -/
def fgets (size : Nat) (rest : Bytes) : Option (Bytes × Bytes) :=
  if rest = [] then none else some (takeLine (size - 1) rest, rest.drop (takeLine (size - 1) rest).length)

/-- `strstr(s, pattern) != NULL`. -/
def Contains (s pattern : Bytes) : Prop := pattern <:+: s

instance (s pattern : Bytes) : Decidable (Contains s pattern) := inferInstanceAs (Decidable (_ <:+: _))

end OsLab.Posix
