import Fallow.Json.Basic

/-!
# Text of documents

Two layouts: `render` sorts members by name and puts every item on a line of its own, two blanks
deeper; `compact` keeps the order of members and breaks no line. Everything but printable ASCII is
escaped, beyond the basic plane as a pair of surrogates. A document with an integer that is too long
to be printed has no text.
-/

namespace Fallow.Json

def unitEscape (n : Nat) : List Char :=
  '\\' :: 'u' :: Text.hexDigits 4 n

def escapeChar (c : Char) : List Char :=
  if c = '"' then ['\\', '"']
  else if c = '\\' then ['\\', '\\']
  else if c = '\n' then ['\\', 'n']
  else if c = '\r' then ['\\', 'r']
  else if c = '\t' then ['\\', 't']
  else if c.toNat = 0x08 then ['\\', 'b']
  else if c.toNat = 0x0c then ['\\', 'f']
  else if 0x20 ≤ c.toNat && c.toNat < 0x7f then [c]
  else if c.toNat < 0x10000 then unitEscape c.toNat
  else unitEscape (0xd800 + (c.toNat - 0x10000) / 0x400)
    ++ unitEscape (0xdc00 + (c.toNat - 0x10000) % 0x400)

def renderText (s : String) : List Char :=
  '"' :: s.toList.flatMap escapeChar ++ ['"']

def renderReal : Binary64 → List Char
  | .nan => "NaN".toList
  | .infinite negative => if negative then "-Infinity".toList else "Infinity".toList
  | x => x.text.toList

def newline (depth : Nat) : List Char :=
  '\n' :: List.replicate (2 * depth) ' '

/-- Puts a member before the first one whose name is not smaller. -/
def insertMember {α : Type} (member : String × α) : List (String × α) → List (String × α)
  | [] => [member]
  | other :: rest =>
    if member.1 ≤ other.1 then member :: other :: rest else other :: insertMember member rest

def sortMembers {α : Type} (members : List (String × α)) : List (String × α) :=
  members.foldr insertMember []

mutual

def integers : Json → List Int
  | .int i => [i]
  | .arr items => integersOfItems items
  | .obj members => integersOfMembers members
  | _ => []

def integersOfItems : List Json → List Int
  | [] => []
  | item :: rest => integers item ++ integersOfItems rest

def integersOfMembers : List (String × Json) → List Int
  | [] => []
  | (_, value) :: rest => integers value ++ integersOfMembers rest

end

def legible (value : Json) : Bool :=
  value.integers.all Numeral.isPrintable

mutual

def sorted : Json → Json
  | .arr items => .arr (sortedItems items)
  | .obj members => .obj (sortMembers (sortedMembers members))
  | value => value

def sortedItems : List Json → List Json
  | [] => []
  | item :: rest => sorted item :: sortedItems rest

def sortedMembers : List (String × Json) → List (String × Json)
  | [] => []
  | (name, value) :: rest => (name, sorted value) :: sortedMembers rest

end

mutual

def layOut (depth : Nat) : Json → List Char
  | .null => "null".toList
  | .bool b => (if b then "true" else "false").toList
  | .int i => Numeral.intDigits i
  | .real x => renderReal x
  | .str s => renderText s
  | .arr [] => ['[', ']']
  | .arr (item :: rest) =>
    '[' :: newline (depth + 1) ++ layOut (depth + 1) item ++ layOutItems (depth + 1) rest
      ++ newline depth ++ [']']
  | .obj [] => ['\x7b', '\x7d']
  | .obj ((name, value) :: rest) =>
    '\x7b' :: newline (depth + 1) ++ renderText name ++ ':' :: ' ' :: layOut (depth + 1) value
      ++ layOutMembers (depth + 1) rest ++ newline depth ++ ['\x7d']

def layOutItems (depth : Nat) : List Json → List Char
  | [] => []
  | item :: rest => ',' :: newline depth ++ layOut depth item ++ layOutItems depth rest

def layOutMembers (depth : Nat) : List (String × Json) → List Char
  | [] => []
  | (name, value) :: rest =>
    ',' :: newline depth ++ renderText name ++ ':' :: ' ' :: layOut depth value
      ++ layOutMembers depth rest

end

/-- The document on many lines, members sorted by name. -/
def render (value : Json) : Option String :=
  if value.legible then some (String.ofList (layOut 0 (sorted value))) else none

mutual

def pack : Json → List Char
  | .null => "null".toList
  | .bool b => (if b then "true" else "false").toList
  | .int i => Numeral.intDigits i
  | .real x => renderReal x
  | .str s => renderText s
  | .arr [] => ['[', ']']
  | .arr (item :: rest) => '[' :: pack item ++ packItems rest
  | .obj [] => ['\x7b', '\x7d']
  | .obj ((name, value) :: rest) =>
    '\x7b' :: renderText name ++ ':' :: pack value ++ packMembers rest

def packItems : List Json → List Char
  | [] => [']']
  | item :: rest => ',' :: pack item ++ packItems rest

def packMembers : List (String × Json) → List Char
  | [] => ['\x7d']
  | (name, value) :: rest => ',' :: renderText name ++ ':' :: pack value ++ packMembers rest

end

/-- The document on one line, members in their order. -/
def compact (value : Json) : Option String :=
  if value.legible then some (String.ofList (pack value)) else none

end Fallow.Json
