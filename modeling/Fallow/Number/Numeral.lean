import Fallow.Text.Lines

/-!
# Integer numerals

Decimal text of integers, and the reading of integers from loosely written text: blanks around,
one sign, digits of any script, single underscores between digits. Numerals of more than `maxDigits`
digits are neither read nor printed.
-/

namespace Fallow.Numeral

def digitChar (n : Nat) : Char :=
  Char.ofNat (0x30 + n)

def natDigits (n : Nat) : List Char :=
  if n < 10 then [digitChar n] else natDigits (n / 10) ++ [digitChar (n % 10)]
termination_by n
decreasing_by omega

def intDigits (i : Int) : List Char :=
  if i < 0 then '-' :: natDigits i.natAbs else natDigits i.natAbs

/-- The text of an integer of any size. -/
def text (i : Int) : String :=
  String.ofList (intDigits i)

def maxDigits : Nat := 4300

def isPrintable (i : Int) : Bool :=
  (natDigits i.natAbs).length ≤ maxDigits

def text? (i : Int) : Option String :=
  if isPrintable i then some (text i) else none

/-- The number that digits write, after what was read before them. -/
def value (start : Nat) (digits : List Nat) : Nat :=
  digits.foldl (fun n d => n * 10 + d) start

/-- Digits with single underscores between them. -/
def looseDigits? : List Char → Option (List Nat)
  | [] => none
  | [c] => (Text.digitValue? c).map ([·])
  | c :: '_' :: rest => do return (← Text.digitValue? c) :: (← looseDigits? rest)
  | c :: rest => do return (← Text.digitValue? c) :: (← looseDigits? rest)

def ofDigits? (s : List Char) : Option Nat := do
  let digits ← looseDigits? s
  if digits.length ≤ maxDigits then some (value 0 digits) else none

/-- Blanks that may stand around a numeral: all but the four ASCII separators. -/
def isAround (c : Char) : Bool :=
  Text.isBlank c && !(0x1c ≤ c.toNat && c.toNat ≤ 0x1f)

def read? (s : String) : Option Int :=
  match Text.trim isAround s.toList with
  | '-' :: rest => (ofDigits? rest).map fun n => -(n : Int)
  | '+' :: rest => (ofDigits? rest).map fun n => (n : Int)
  | rest => (ofDigits? rest).map fun n => (n : Int)

end Fallow.Numeral
