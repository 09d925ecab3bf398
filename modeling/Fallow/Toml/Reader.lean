import Fallow.Calendar
import Fallow.Json.Reader
import Fallow.Toml.Basic

/-!
# Reading of TOML

Statements are read one by one; a carriage return before a line feed is no part of the text.
-/

namespace Fallow.Toml

def isGap (c : Char) : Bool :=
  c == ' ' || c == '\t'

def skipGap (s : List Char) : List Char :=
  s.dropWhile isGap

def isControl (c : Char) : Bool :=
  c.toNat < 0x20 || c.toNat = 0x7f

/-- Control characters other than the tab stand in no text. -/
def isIllegal (c : Char) : Bool :=
  isControl c && c != '\t'

def isIllegalInBlock (c : Char) : Bool :=
  isControl c && c != '\t' && c != '\n'

/-- The rest after a comment, at the end of its line. -/
def skipComment (s : List Char) : Except Error (List Char) :=
  match s with
  | '#' :: rest =>
    if (rest.takeWhile (· != '\n')).any isIllegal then .error .malformed
    else .ok (rest.dropWhile (· != '\n'))
  | s => .ok s

def skipLines : Nat → List Char → Except Error (List Char)
  | 0, s => .ok s
  | fuel + 1, s =>
    match s.dropWhile fun c => isGap c || c == '\n' with
    | '#' :: rest => do
      let s ← skipComment ('#' :: rest)
      skipLines fuel s
    | s => .ok s

def scalar? (count : Nat) (s : List Char) : Option (Char × List Char) := do
  let ds ← (s.take count).mapM Json.hexValue?
  let n := ds.foldl (fun n d => n * 16 + d) 0
  if ds.length = count && (n < 0xd800 || (0xe000 ≤ n && n < 0x110000)) then
    some (Char.ofNat n, s.drop count)
  else none

def escaped? : Char → Option Char
  | 'b' => some '\x08'
  | 't' => some '\t'
  | 'n' => some '\n'
  | 'f' => some '\x0c'
  | 'r' => some '\r'
  | '"' => some '"'
  | '\\' => some '\\'
  | _ => none

/-- The rest after the line end that a backslash joins over; nothing but blanks may come before the
line end. -/
def joinLines (s : List Char) : Except Error (List Char) :=
  match skipGap s with
  | [] => .ok []
  | '\n' :: rest => .ok (rest.dropWhile fun c => isGap c || c == '\n')
  | _ => .error .malformed

def readBasic : Nat → Bool → List Char → Except Error (List Char × List Char)
  | 0, _, _ => .error .malformed
  | fuel + 1, block, s =>
    match s with
    | [] => .error .malformed
    | '"' :: rest =>
      if !block then .ok ([], rest)
      else match rest with
        | '"' :: '"' :: rest => .ok ([], rest)
        | rest => do
          let (cs, rest) ← readBasic fuel block rest
          return ('"' :: cs, rest)
    | '\\' :: e :: rest =>
      if block && (isGap e || e == '\n') then do
        let rest ← joinLines (e :: rest)
        readBasic fuel block rest
      else
        let char := if e = 'u' then scalar? 4 rest
          else if e = 'U' then scalar? 8 rest
          else (escaped? e).map fun c => (c, rest)
        match char with
        | some (c, rest) => do
          let (cs, rest) ← readBasic fuel block rest
          return (c :: cs, rest)
        | none => .error .malformed
    | c :: rest =>
      if c = '\\' || (if block then isIllegalInBlock c else isIllegal c) then .error .malformed
      else do
        let (cs, rest) ← readBasic fuel block rest
        return (c :: cs, rest)

def readLiteral (s : List Char) : Except Error (List Char × List Char) :=
  let cs := s.takeWhile (· != '\'')
  match s.dropWhile (· != '\'') with
  | _ :: rest => if cs.any isIllegal then .error .malformed else .ok (cs, rest)
  | [] => .error .malformed

def readLiteralBlock : List Char → Except Error (List Char × List Char)
  | [] => .error .malformed
  | '\'' :: '\'' :: '\'' :: rest => .ok ([], rest)
  | c :: rest =>
    if isIllegalInBlock c then .error .malformed
    else do
      let (cs, rest) ← readLiteralBlock rest
      return (c :: cs, rest)

/-- Up to two quotes before the closing ones belong to a block. -/
def extraQuotes (mark : Char) (cs rest : List Char) : List Char × List Char :=
  let extra := (rest.take 2).takeWhile (· == mark)
  (cs ++ extra, rest.drop extra.length)

/-- A line end right after the opening quotes does not count. -/
def dropFirstBreak : List Char → List Char
  | '\n' :: rest => rest
  | s => s

/-- A text in any of its four forms, or nothing if none starts here. -/
def readText? (s : List Char) : Option (Except Error (String × List Char)) :=
  let done (r : Except Error (List Char × List Char)) : Except Error (String × List Char) :=
    r.map fun (cs, rest) => (String.ofList cs, rest)
  match s with
  | '"' :: '"' :: '"' :: rest =>
    some (done ((readBasic (rest.length + 1) true (dropFirstBreak rest)).map
      fun (cs, rest) => extraQuotes '"' cs rest))
  | '"' :: rest => some (done (readBasic (rest.length + 1) false rest))
  | '\'' :: '\'' :: '\'' :: rest =>
    some (done ((readLiteralBlock (dropFirstBreak rest)).map
      fun (cs, rest) => extraQuotes '\'' cs rest))
  | '\'' :: rest => some (done (readLiteral rest))
  | _ => none

def isBareKey (c : Char) : Bool :=
  c.isAlphanum || c == '-' || c == '_'

def readKeyPart (s : List Char) : Except Error (String × List Char) :=
  match s with
  | '"' :: rest =>
    (readBasic (rest.length + 1) false rest).map fun (cs, rest) => (String.ofList cs, rest)
  | '\'' :: rest => (readLiteral rest).map fun (cs, rest) => (String.ofList cs, rest)
  | s =>
    match s.takeWhile isBareKey with
    | [] => .error .malformed
    | cs => .ok (String.ofList cs, s.dropWhile isBareKey)

/-- A key, with blanks around the dots between its parts. -/
def readKey : Nat → List Char → Except Error (Key × List Char)
  | 0, _ => .error .malformed
  | fuel + 1, s => do
    let (part, rest) ← readKeyPart s
    match skipGap rest with
    | '.' :: rest => do
      let (parts, rest) ← readKey fuel (skipGap rest)
      return (part :: parts, rest)
    | rest => return ([part], rest)

/-- Digits of a class with single underscores between them. -/
def looseRun (isDigit : Char → Bool) : List Char → List Char × List Char
  | [] => ([], [])
  | c :: rest =>
    if isDigit c then
      match rest with
      | '_' :: d :: rest' =>
        if isDigit d then
          let (ds, rest) := looseRun isDigit (d :: rest')
          (c :: ds, rest)
        else ([c], rest)
      | rest =>
        let (ds, rest) := looseRun isDigit rest
        (c :: ds, rest)
    else ([], c :: rest)

def digits (s : List Char) : Nat :=
  Numeral.value 0 (Json.digitsOf s)

def isBase (base : Nat) (c : Char) : Bool :=
  (Json.hexValue? c).any (· < base)

def ofBase (base : Nat) (s : List Char) : Nat :=
  s.foldl (fun n c => n * base + (Json.hexValue? c).getD 0) 0

def readBased? (s : List Char) : Option (Value × List Char) :=
  let go (base : Nat) (s : List Char) : Option (Value × List Char) :=
    match looseRun (isBase base) s with
    | ([], _) => none
    | (ds, rest) => some (.int (ofBase base ds), rest)
  match s with
  | '0' :: 'x' :: rest => go 16 rest
  | '0' :: 'b' :: rest => go 2 rest
  | '0' :: 'o' :: rest => go 8 rest
  | _ => none

def readSign : List Char → Bool × List Char
  | '-' :: rest => (true, rest)
  | '+' :: rest => (false, rest)
  | s => (false, s)

def readFraction? : List Char → Option (List Char × List Char)
  | '.' :: rest =>
    match looseRun Text.isAsciiDigit rest with
    | ([], _) => none
    | (ds, rest) => some (ds, rest)
  | _ => none

def readExponent? : List Char → Option (Int × List Char)
  | e :: rest =>
    if e = 'e' || e = 'E' then
      let (negative, rest) := readSign rest
      match looseRun Text.isAsciiDigit rest with
      | ([], _) => none
      | (ds, rest) => some (if negative then -(digits ds : Int) else digits ds, rest)
    else none
  | [] => none

def readDecimal? (s : List Char) : Option (Except Error (Value × List Char)) :=
  let (negative, s) := readSign s
  let whole := match s with
    | '0' :: rest => (['0'], rest)
    | s => looseRun Text.isAsciiDigit s
  match whole with
  | ([], _) => none
  | (ds, rest) =>
    let fraction := readFraction? rest
    let rest := (fraction.map (·.2)).getD rest
    let exponent := readExponent? rest
    let rest := (exponent.map (·.2)).getD rest
    match fraction, exponent with
    | none, none =>
      if ds.length ≤ Numeral.maxDigits then
        some (.ok (.int (if negative then -(digits ds : Int) else digits ds), rest))
      else some (.error .tooManyDigits)
    | _, _ =>
      let part := (fraction.map (·.1)).getD []
      let power := (exponent.map (·.1)).getD 0 - part.length
      some (.ok (.real (Binary64.ofDecimal negative (digits (ds ++ part)) power), rest))

/-- Exactly `count` digits whose number lies between two bounds. -/
def fixedDigits? (count low high : Nat) (s : List Char) : Option (Nat × List Char) :=
  let ds := s.take count
  if ds.length = count && ds.all Text.isAsciiDigit && low ≤ digits ds && digits ds ≤ high then
    some (digits ds, s.drop count)
  else none

def expect? (c : Char) : List Char → Option (List Char)
  | d :: rest => if c = d then some rest else none
  | [] => none

def skipTime? (s : List Char) : Option (List Char) := do
  let (_, s) ← fixedDigits? 2 0 23 s
  let s ← expect? ':' s
  let (_, s) ← fixedDigits? 2 0 59 s
  let s ← expect? ':' s
  let (_, s) ← fixedDigits? 2 0 59 s
  match s with
  | '.' :: d :: rest =>
    if Text.isAsciiDigit d then return rest.dropWhile Text.isAsciiDigit else return s
  | s => return s

/-- The rest after a distance from universal time, if there is one. -/
def skipOffset (s : List Char) : List Char :=
  match s with
  | 'Z' :: rest | 'z' :: rest => rest
  | sign :: rest =>
    if sign = '+' || sign = '-' then
      ((do
        let (_, rest) ← fixedDigits? 2 0 23 rest
        let rest ← expect? ':' rest
        let (_, rest) ← fixedDigits? 2 0 59 rest
        return rest) : Option (List Char)).getD s
    else s
  | [] => []

/-- A date, perhaps with a time; or a time alone. -/
def readTime? (s : List Char) : Option (Except Error (Value × List Char)) :=
  let date : Option ((Nat × Nat × Nat) × List Char) := do
    let (year, s) ← fixedDigits? 4 0 9999 s
    let s ← expect? '-' s
    let (month, s) ← fixedDigits? 2 1 12 s
    let s ← expect? '-' s
    let (day, s) ← fixedDigits? 2 1 31 s
    return ((year, month, day), s)
  match date with
  | some ((year, month, day), rest) =>
    let rest := match rest with
      | c :: tail =>
        if c = 'T' || c = 't' || c = ' ' then ((skipTime? tail).map skipOffset).getD rest
        else rest
      | [] => []
    if 1 ≤ year && (day : Int) ≤ Stamp.daysInMonth year month then some (.ok (.time, rest))
    else some (.error .malformed)
  | none => (skipTime? s).map fun rest => .ok (.time, rest)

def words : List (String × Value) :=
  [("true", .bool true), ("false", .bool false), ("inf", .real (.infinite false)),
    ("nan", .real .nan), ("+inf", .real (.infinite false)), ("-inf", .real (.infinite true)),
    ("+nan", .real .nan), ("-nan", .real .nan)]

def readWord? (s : List Char) : Option (Value × List Char) :=
  words.findSome? fun (word, value) =>
    if word.toList.isPrefixOf s then some (value, s.drop word.length) else none

def readScalar (s : List Char) : Except Error (Value × List Char) :=
  match readText? s with
  | some r => r.map fun (t, rest) => (.text t, rest)
  | none =>
    match readTime? s with
    | some r => r
    | none =>
      match readBased? s with
      | some r => .ok r
      | none =>
        match readDecimal? s with
        | some r => r
        | none =>
          match readWord? s with
          | some r => .ok r
          | none => .error .malformed

structure Inline where
  members : Table := []
  closed : List Key := []

def Inline.add (t : Inline) (key : Key) (value : Value) : Except Error Inline := do
  if t.closed.any (·.isPrefixOf key) then .error .redeclared
  else
    let members ← changeAt false (addMember (key.getLastD "") value) key.dropLast t.members
    return ⟨members, if Document.isContainer value then key :: t.closed else t.closed⟩

mutual

def readValue : Nat → List Char → Except Error (Value × List Char)
  | 0, _ => .error .malformed
  | fuel + 1, '[' :: rest => do
    let rest ← skipLines (rest.length + 1) rest
    let (items, rest) ← readItems fuel rest
    return (.array items, rest)
  | fuel + 1, '\x7b' :: rest =>
    match skipGap rest with
    | '\x7d' :: rest => .ok (.table [], rest)
    | rest => do
      let (members, rest) ← readInline fuel {} rest
      return (.table members, rest)
  | _ + 1, s => readScalar s

/-- The items of an array up to its closing bracket; a comma may stand before it. -/
def readItems : Nat → List Char → Except Error (List Value × List Char)
  | 0, _ => .error .malformed
  | _ + 1, ']' :: rest => .ok ([], rest)
  | fuel + 1, s => do
    let (item, rest) ← readValue fuel s
    let rest ← skipLines (rest.length + 1) rest
    match rest with
    | ']' :: rest => return ([item], rest)
    | ',' :: rest => do
      let rest ← skipLines (rest.length + 1) rest
      let (items, rest) ← readItems fuel rest
      return (item :: items, rest)
    | _ => .error .malformed

def readInline : Nat → Inline → List Char → Except Error (Table × List Char)
  | 0, _, _ => .error .malformed
  | fuel + 1, t, s => do
    let (key, value, rest) ← readPair fuel s
    let t ← t.add key value
    match skipGap rest with
    | '\x7d' :: rest => return (t.members, rest)
    | ',' :: rest => readInline fuel t (skipGap rest)
    | _ => .error .malformed

def readPair : Nat → List Char → Except Error (Key × Value × List Char)
  | 0, _ => .error .malformed
  | fuel + 1, s => do
    let (key, rest) ← readKey (s.length + 1) s
    match rest with
    | '=' :: rest => do
      let (value, rest) ← readValue fuel (skipGap rest)
      return (key, value, rest)
    | _ => .error .malformed

end

def readStatement (d : Document) (s : List Char) : Except Error (Document × List Char) :=
  match s with
  | '[' :: '[' :: rest => do
    let (key, rest) ← readKey (rest.length + 1) (skipGap rest)
    let d ← d.openItem key
    match rest with
    | ']' :: ']' :: rest => return (d, rest)
    | _ => .error .malformed
  | '[' :: rest => do
    let (key, rest) ← readKey (rest.length + 1) (skipGap rest)
    let d ← d.openTable key
    match rest with
    | ']' :: rest => return (d, rest)
    | _ => .error .malformed
  | '#' :: _ => .ok (d, s)
  | s => do
    let (key, value, rest) ← readPair (2 * s.length + 2) s
    return (← d.addPair key value, rest)

def readStatements : Nat → Document → List Char → Except Error Document
  | 0, _, _ => .error .malformed
  | fuel + 1, d, s =>
    match skipGap s with
    | [] => .ok d
    | '\n' :: rest => readStatements fuel d rest
    | s => do
      let (d, rest) ← readStatement d s
      match ← skipComment (skipGap rest) with
      | [] => return d
      | '\n' :: rest => readStatements fuel d rest
      | _ => .error .malformed

def dropReturns : List Char → List Char
  | [] => []
  | '\r' :: '\n' :: rest => '\n' :: dropReturns rest
  | c :: rest => c :: dropReturns rest

def parse (text : String) : Except Error Table := do
  let s := dropReturns text.toList
  return (← readStatements (s.length + 1) {} s).data

end Fallow.Toml
