import Fallow.Json.Basic

/-!
# Reading of documents

Numbers without fraction and exponent are integers of any size up to `Numeral.maxDigits` digits;
the words `NaN`, `Infinity` and `-Infinity` are numbers. Control characters inside texts and a
byte order mark before the document are refused.
-/

namespace Fallow.Json

inductive ReadError where
  | malformed
  | tooManyDigits
  deriving DecidableEq, Repr

def isSpace (c : Char) : Bool :=
  c == ' ' || c == '\t' || c == '\n' || c == '\r'

def skipSpace (s : List Char) : List Char :=
  s.dropWhile isSpace

def hexValue? (c : Char) : Option Nat :=
  if '0' ≤ c && c ≤ '9' then some (c.toNat - 0x30)
  else if 'a' ≤ c && c ≤ 'f' then some (c.toNat - 0x57)
  else if 'A' ≤ c && c ≤ 'F' then some (c.toNat - 0x37)
  else none

def unit? (a b c d : Char) : Option Nat := do
  return (((← hexValue? a) * 16 + (← hexValue? b)) * 16 + (← hexValue? c)) * 16 + (← hexValue? d)

def isHigh (n : Nat) : Bool :=
  0xd800 ≤ n && n < 0xdc00

def isLow (n : Nat) : Bool :=
  0xdc00 ≤ n && n < 0xe000

/-- The character of one code unit; half a pair stands for no character. -/
def unitChar (n : Nat) : Char :=
  if isHigh n || isLow n then '�' else Char.ofNat n

def pairChar (high low : Nat) : Char :=
  Char.ofNat (0x10000 + (high - 0xd800) * 0x400 + (low - 0xdc00))

def simpleEscape? : Char → Option Char
  | '"' => some '"'
  | '\\' => some '\\'
  | '/' => some '/'
  | 'b' => some '\x08'
  | 'f' => some '\x0c'
  | 'n' => some '\n'
  | 'r' => some '\r'
  | 't' => some '\t'
  | _ => none

inductive TextStep where
  | close (rest : List Char)
  | char (c : Char) (rest : List Char)
  | bad

/-- The half of a pair that follows a high one, with what comes after it. -/
def lowUnit? : List Char → Option (Nat × List Char)
  | '\\' :: 'u' :: a :: b :: c :: d :: rest => do
    let n ← unit? a b c d
    if isLow n then some (n, rest) else none
  | _ => none

def textStep : List Char → TextStep
  | [] => .bad
  | '"' :: rest => .close rest
  | '\\' :: 'u' :: a :: b :: c :: d :: rest =>
    match unit? a b c d with
    | none => .bad
    | some n =>
      if isHigh n then
        match lowUnit? rest with
        | some (low, rest) => .char (pairChar n low) rest
        | none => .char (unitChar n) rest
      else .char (unitChar n) rest
  | '\\' :: e :: rest =>
    match simpleEscape? e with
    | some c => .char c rest
    | none => .bad
  | c :: rest => if c.toNat < 0x20 || c = '\\' then .bad else .char c rest

def readText : Nat → List Char → Option (List Char × List Char)
  | 0, _ => none
  | fuel + 1, s =>
    match textStep s with
    | .close rest => some ([], rest)
    | .char c rest => (readText fuel rest).map fun (cs, rest) => (c :: cs, rest)
    | .bad => none

def digitsOf (s : List Char) : List Nat :=
  s.map fun c => c.toNat - 0x30

def readFraction : List Char → List Char × List Char
  | '.' :: rest =>
    match rest.takeWhile Text.isAsciiDigit with
    | [] => ([], '.' :: rest)
    | ds => (ds, rest.dropWhile Text.isAsciiDigit)
  | s => ([], s)

/-- The exponent, if a mark, perhaps a sign, and a digit stand there. -/
def readExponent (s : List Char) : Option (Int × List Char) :=
  match s with
  | e :: rest =>
    if e = 'e' || e = 'E' then
      let (negative, rest) := match rest with
        | '-' :: rest => (true, rest)
        | '+' :: rest => (false, rest)
        | rest => (false, rest)
      match rest.takeWhile Text.isAsciiDigit with
      | [] => none
      | ds =>
        let n : Int := Numeral.value 0 (digitsOf ds)
        some (if negative then -n else n, rest.dropWhile Text.isAsciiDigit)
    else none
  | [] => none

/-- The digits before the point: a zero alone, or digits that start with another one. -/
def readWhole : List Char → List Char × List Char
  | '0' :: rest => (['0'], rest)
  | s => (s.takeWhile Text.isAsciiDigit, s.dropWhile Text.isAsciiDigit)

def readNumber (negative : Bool) (s : List Char) : Except ReadError (Json × List Char) :=
  let (whole, rest) := readWhole s
  if whole.isEmpty then .error .malformed
  else
    let (fraction, rest) := readFraction rest
    match fraction, readExponent rest with
    | [], none =>
      if whole.length ≤ Numeral.maxDigits then
        let n : Int := Numeral.value 0 (digitsOf whole)
        .ok (.int (if negative then -n else n), rest)
      else .error .tooManyDigits
    | fraction, exponent =>
      let (power, rest) := exponent.getD (0, rest)
      let digits := Numeral.value 0 (digitsOf (whole ++ fraction))
      .ok (.real (Binary64.ofDecimal negative digits (power - fraction.length)), rest)

def readWord (word : String) (value : Json) (s : List Char) :
    Except ReadError (Json × List Char) :=
  if s.take word.length = word.toList then .ok (value, s.drop word.length) else .error .malformed

/-- Values, items and members share one supply of steps, of which each value, item and member
takes one; a text has more characters than that. -/
def readLeaf (s : List Char) : Except ReadError (Json × List Char) :=
  match s with
  | 'n' :: _ => readWord "null" .null s
  | 't' :: _ => readWord "true" (.bool true) s
  | 'f' :: _ => readWord "false" (.bool false) s
  | 'N' :: _ => readWord "NaN" (.real .nan) s
  | 'I' :: _ => readWord "Infinity" (.real (.infinite false)) s
  | '-' :: 'I' :: _ => readWord "-Infinity" (.real (.infinite true)) s
  | '-' :: rest => readNumber true rest
  | '"' :: rest =>
    match readText (rest.length + 1) rest with
    | some (cs, rest) => .ok (.str (String.ofList cs), rest)
    | none => .error .malformed
  | _ => readNumber false s

mutual

def readValue : Nat → List Char → Except ReadError (Json × List Char)
  | 0, _ => .error .malformed
  | fuel + 1, '[' :: rest =>
    match skipSpace rest with
    | ']' :: rest => .ok (.arr [], rest)
    | s => do
      let (items, rest) ← readItems fuel s
      return (.arr items, rest)
  | fuel + 1, '\x7b' :: rest =>
    match skipSpace rest with
    | '\x7d' :: rest => .ok (.obj [], rest)
    | s => do
      let (members, rest) ← readMembers fuel s
      return (.obj (ofMembers members), rest)
  | _ + 1, s => readLeaf s

def readItems : Nat → List Char → Except ReadError (List Json × List Char)
  | 0, _ => .error .malformed
  | fuel + 1, s => do
    let (item, rest) ← readValue fuel s
    match skipSpace rest with
    | ']' :: rest => return ([item], rest)
    | ',' :: rest => do
      let (items, rest) ← readItems fuel (skipSpace rest)
      return (item :: items, rest)
    | _ => .error .malformed

def readMembers : Nat → List Char → Except ReadError (List (String × Json) × List Char)
  | 0, _ => .error .malformed
  | fuel + 1, '"' :: rest =>
    match readText (rest.length + 1) rest with
    | none => .error .malformed
    | some (name, rest) =>
      match skipSpace rest with
      | ':' :: rest => do
        let (value, rest) ← readValue fuel (skipSpace rest)
        match skipSpace rest with
        | '\x7d' :: rest => return ([(String.ofList name, value)], rest)
        | ',' :: rest => do
          let (members, rest) ← readMembers fuel (skipSpace rest)
          return ((String.ofList name, value) :: members, rest)
        | _ => .error .malformed
      | _ => .error .malformed
  | _ + 1, _ => .error .malformed

end

def parse (text : String) : Except ReadError Json := do
  let (value, rest) ← readValue (text.length + 1) (skipSpace text.toList)
  if skipSpace rest = [] then return value else .error .malformed

end Fallow.Json
