import Fallow.Text.Character

/-!
# Parameters of a command line

Options are spelled out, cut short as long as no other option could be meant, or, if they are
single letters, written together. A value stands in the next argument or after an equals sign.
-/

namespace Fallow.CommandLine

/-- An option; one of a single letter takes no value. -/
structure Parameter where
  spellings : List String
  takesValue : Bool := false
  deriving DecidableEq, Repr

def Parameter.name (p : Parameter) : String :=
  p.spellings.getLastD ""

/-- What stands in the same argument as an option, and whether an equals sign comes first. -/
structure Attached where
  equals : Bool
  text : List Char
  deriving DecidableEq, Repr

inductive Shape where
  | word
  | option (spelling : String) (attached : Option Attached)
  | unknownOption
  | ambiguous
  deriving DecidableEq, Repr

/-- A negative number is a word. -/
def isNegativeNumber (s : List Char) : Bool :=
  match s with
  | '-' :: rest =>
    let rest := if rest.getLast? = some '\n' then rest.dropLast else rest
    let whole := rest.takeWhile fun c => (Text.digitValue? c).isSome
    match rest.drop whole.length with
    | [] => !whole.isEmpty
    | '.' :: part => !part.isEmpty && part.all fun c => (Text.digitValue? c).isSome
    | _ => false
  | _ => false

/-- The text before the first equals sign and what is attached after it. -/
def cutAtEquals (s : List Char) : List Char × Option Attached :=
  match s.dropWhile (· != '=') with
  | _ :: rest => (s.takeWhile (· != '='), some ⟨true, rest⟩)
  | [] => (s, none)

/-- The options that a shortened or combined argument can stand for. -/
def candidates (spellings : List String) (s : List Char) : List (String × Option Attached) :=
  match s with
  | '-' :: '-' :: _ =>
    let (start, attached) := cutAtEquals s
    (spellings.filter (start.isPrefixOf ·.toList)).map fun spelling => (spelling, attached)
  | '-' :: letter :: rest =>
    (spellings.filter (·.toList = ['-', letter])).map fun spelling => (spelling, some ⟨false, rest⟩)
  | _ => []

def shapeOf (spellings : List String) (arg : String) : Shape :=
  let s := arg.toList
  if s.head? != some '-' then .word
  else if spellings.contains arg then .option arg none
  else if s.length = 1 then .word
  else
    let (start, attached) := cutAtEquals s
    if attached.isSome && spellings.contains (String.ofList start) then
      .option (String.ofList start) attached
    else
      match candidates spellings s with
      | [(spelling, attached)] => .option spelling attached
      | [] => if isNegativeNumber s || s.contains ' ' then .word else .unknownOption
      | _ => .ambiguous

inductive Item where
  | flag (name : String)
  | setting (name value : String)
  /-- An argument that has no place here. -/
  | stray
  /-- Reading ends at an option that is used wrongly. -/
  | misuse
  deriving DecidableEq, Repr

abbrev Parameters := List Parameter

namespace Parameters

def spellings (ps : Parameters) : List String :=
  ps.flatMap (·.spellings)

def find? (ps : Parameters) (spelling : String) : Option Parameter :=
  List.find? (fun p : Parameter => p.spellings.contains spelling) ps

/-- The options written together in one argument; `none` if a value is attached to one that takes
none. -/
def together? (ps : Parameters) (p : Parameter) : List Char → Option (List Item)
  | [] => some [.flag p.name]
  | letter :: rest =>
    if letter = '-' || letter = '=' then none
    else match ps.find? (String.ofList ['-', letter]) with
      | some q => do return .flag p.name :: (← ps.together? q rest)
      | none => some [.flag p.name, .stray]

def attachedItems (ps : Parameters) (p : Parameter) (spelling : String) (a : Attached) :
    List Item :=
  if p.takesValue then [.setting p.name (String.ofList a.text)]
  else if spelling.startsWith "--" || a.equals || a.text.isEmpty then [.misuse]
  else (ps.together? p a.text).getD [.misuse]

/-- Reads items. At the first word, or at two hyphens, reading stops or, if words have no place
here, goes on. -/
def items (ps : Parameters) (stopsAtWord : Bool) : List String → List Item × List String
  | [] => ([], [])
  | arg :: rest =>
    if arg = "--" then (if stopsAtWord then [] else [.stray], arg :: rest)
    else match shapeOf ps.spellings arg with
      | .word =>
        if stopsAtWord then ([], arg :: rest)
        else
          let (found, left) := ps.items stopsAtWord rest
          (.stray :: found, left)
      | .unknownOption =>
        let (found, left) := ps.items stopsAtWord rest
        (.stray :: found, left)
      | .ambiguous => ([.misuse], [])
      | .option spelling attached =>
        match ps.find? spelling, attached with
        | none, _ => ([.misuse], [])
        | some p, some a =>
          let (found, left) := ps.items stopsAtWord rest
          (ps.attachedItems p spelling a ++ found, left)
        | some p, none =>
          if p.takesValue then
            match rest with
            | value :: rest =>
              if value != "--" && shapeOf ps.spellings value = .word then
                let (found, left) := ps.items stopsAtWord rest
                (.setting p.name value :: found, left)
              else ([.misuse], [])
            | [] => ([.misuse], [])
          else
            let (found, left) := ps.items stopsAtWord rest
            (.flag p.name :: found, left)

/-- Whether an argument before two hyphens can stand for several options. -/
def hasAmbiguity (ps : Parameters) (args : List String) : Bool :=
  (args.takeWhile (· != "--")).any fun arg => shapeOf ps.spellings arg = .ambiguous

end Parameters
end Fallow.CommandLine
