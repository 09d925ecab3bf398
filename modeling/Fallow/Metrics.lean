import Fallow.Json.Reader

/-!
# Metrics

Counters from a metrics document of the Sorbet type checker, and the summary that is printed of
them.
-/

namespace Fallow

/-- Counters under their names, each name once, in the order in which they first occurred. -/
structure Metrics where
  counters : List (String × Int) := []
  deriving DecidableEq, Repr

namespace Metrics

inductive Error where
  | document (e : Json.ReadError)
  /-- The document has no members. -/
  | notAnObject
  /-- The metrics cannot be gone through. -/
  | notAList
  /-- A metric has no members. -/
  | notAMetric
  | nameless
  | nameNotText
  | valueNotANumber
  | valueInfinite
  | valueNotScalar
  /-- A number is too long to be shown. -/
  | tooManyDigits
  deriving DecidableEq, Repr

/-- The type checker puts this before every name unless told otherwise. -/
def defaultPrefix : String := "ruby_typer.unknown.."

def withoutFirst (piece : List Char) : List Char → List Char
  | [] => []
  | c :: rest =>
    if piece.isPrefixOf (c :: rest) then (c :: rest).drop piece.length
    else c :: withoutFirst piece rest

def stripped (mark name : String) : String :=
  String.ofList (withoutFirst mark.toList name.toList)

/-- The number that a value stands for; what is empty or absent stands for zero. -/
def count : Json → Except Error Int
  | .null => .ok 0
  | .bool b => .ok (if b then 1 else 0)
  | .int i => .ok i
  | .real x =>
    match x with
    | .nan => .error .valueNotANumber
    | .infinite _ => .error .valueInfinite
    | x => .ok (x.truncate?.getD 0)
  | .str s =>
    if s = "" then .ok 0
    else match Numeral.read? s with
      | some i => .ok i
      | none => .error .valueNotANumber
  | .arr items => if items.isEmpty then .ok 0 else .error .valueNotScalar
  | .obj members => if members.isEmpty then .ok 0 else .error .valueNotScalar

def entry (mark : String) : Json → Except Error (String × Int)
  | .obj members =>
    match members.lookup "name" with
    | none => .error .nameless
    | some (.str name) => do
      return (stripped mark name, ← count ((members.lookup "value").getD .null))
    | some _ => .error .nameNotText
  | _ => .error .notAMetric

/-- What one goes through under the name of metrics: items, or the names of members, or the
characters of a text. -/
def entries : Json → Except Error (List Json)
  | .arr items => .ok items
  | .obj members => .ok (members.map fun m => .str m.1)
  | .str s => .ok (s.toList.map fun c => .str (String.singleton c))
  | _ => .error .notAList

def ofDocument (mark : String) : Json → Except Error Metrics
  | .obj members => do
    let listed ← entries ((members.lookup "metrics").getD (.arr []))
    return ⟨Json.ofMembers (← listed.mapM (entry mark))⟩
  | _ => .error .notAnObject

def parse (mark text : String) : Except Error Metrics :=
  match Json.parse text with
  | .ok document => ofDocument mark document
  | .error e => .error (.document e)

def get (m : Metrics) (name : String) : Int :=
  (m.counters.lookup name).getD 0

def sigils : List String :=
  ["ignore", "false", "true", "strict", "strong", "__STDLIB_INTERNAL"]

def filesByStrictness (m : Metrics) : List (String × Int) :=
  sigils.map fun sigil => (sigil, m.get ("types.input.files.sigil." ++ sigil))

def filesCount (m : Metrics) : Int :=
  m.filesByStrictness.foldl (fun total (_, n) => total + n) 0

/-- A share in percent, rounded down; there is none of nothing. -/
def percent (value total : Int) : Option String :=
  if total = 0 then some ""
  else do return " (" ++ (← Numeral.text? ((value * 100).fdiv total)) ++ "%)"

def line (label : String) (value : Int) (note : Option String := some "") : Option String := do
  return "  " ++ label ++ ": " ++ (← Numeral.text? value) ++ (← note)

/-- The lines of the summary, with gaps for those that cannot be printed. -/
def summary (m : Metrics) : List (Option String) :=
  let files := m.filesCount
  let methods := m.get "types.input.methods.total"
  let signatures := m.get "types.sig.count"
  let sends := m.get "types.input.sends.total"
  let typed := m.get "types.input.sends.typed"
  [some "Sigils:", line "files" files]
    ++ (m.filesByStrictness.filter (·.2 ≠ 0)).map (fun (sigil, n) => line sigil n (percent n files))
    ++ [some "", some "Classes & Modules:",
      line "classes" (m.get "types.input.classes.total") (some " (including singleton classes)"),
      line "modules" (m.get "types.input.modules.total"),
      some "", some "Methods:", line "methods" methods,
      line "signatures" signatures (percent signatures methods),
      some "", some "Sends:", line "sends" sends, line "typed" typed (percent typed sends)]

/-- Prints lines up to the first gap. -/
def printed : List (Option String) → String × Except Error Unit
  | [] => ("", .ok ())
  | none :: _ => ("", .error .tooManyDigits)
  | some line :: rest => (line ++ "\n" ++ (printed rest).1, (printed rest).2)

def shown (m : Metrics) : String × Except Error Unit :=
  printed m.summary

end Metrics
end Fallow
