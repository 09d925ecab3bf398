import Fallow.Json.Basic
import Fallow.Location

/-!
# Descriptors

Which method names a plugin ignores: some names exactly, and those in which a pattern is found. A
pattern is known by its text and by the names in which it is found, so that descriptors work with
any pattern language.
-/

namespace Fallow

structure Finder where
  text : String
  found : String → Bool

/-- Why a compiler of patterns breaks off without a verdict. -/
inductive Breakdown where
  /-- A number of repetitions is too large. -/
  | overflow
  /-- A number of repetitions has too many digits to be read. -/
  | tooManyDigits
  /-- Flags exclude each other. -/
  | clash
  deriving DecidableEq, Repr

def Breakdown.message : Breakdown → String
  | .overflow => "the repetition number is too large"
  | .tooManyDigits => "the repetition number has too many digits"
  | .clash => "ASCII and UNICODE flags are incompatible"

inductive Finder.Failure where
  | refused (reason : String)
  | broke (b : Breakdown)
  deriving DecidableEq, Repr

structure Descriptor where
  names : List String := []
  finders : List Finder := []

namespace Descriptor

def covers (d : Descriptor) (name : String) : Bool :=
  d.names.contains name || d.finders.any (·.found name)

/-- The names without repetition, in order. -/
def nameListing (d : Descriptor) : List String :=
  sortedBy textOrder d.names.eraseDups

/-- What a list of ignored names can hold besides names and patterns is an error. -/
inductive Item where
  | name (s : String)
  | finder (f : Finder)
  | foreign (value : Json)

inductive Error where
  | foreign (value : Json)
  | badPattern (entry reason : String)
  | broke (b : Breakdown)

def Error.message : Error → String
  | .foreign value =>
    "ignore_method_names expects strings or compiled patterns, got " ++ value.described
  | .badPattern entry reason => "Invalid pattern " ++ Text.quoted entry ++ ": " ++ reason
  | .broke b => b.message

/-- Whether the user is told about an error; any other one is not expected. -/
def Error.isComplaint : Error → Bool
  | .broke _ => false
  | _ => true

def ofItems : List Item → Except Error Descriptor
  | [] => .ok {}
  | .name s :: rest => do
    let d ← ofItems rest
    return { d with names := s :: d.names }
  | .finder f :: rest => do
    let d ← ofItems rest
    return { d with finders := f :: d.finders }
  | .foreign value :: _ => .error (.foreign value)

/-- A pattern entry is written between slashes. -/
def slashed? (entry : String) : Option String :=
  let s := entry.toList
  if 2 ≤ s.length && s.head? = some '/' && s.getLast? = some '/' then
    some (String.ofList (s.drop 1).dropLast)
  else none

/-- Reads a configured entry. Only a refused pattern is complained about by name. -/
def itemOfEntry (compile : String → Except Finder.Failure Finder) (entry : String) :
    Except Error Item :=
  match slashed? entry with
  | none => .ok (.name entry)
  | some pattern =>
    match compile pattern with
    | .ok f => .ok (.finder f)
    | .error (.refused reason) => .error (.badPattern entry reason)
    | .error (.broke b) => .error (.broke b)

def ofEntries (compile : String → Except Finder.Failure Finder) (entries : List String) :
    Except Error Descriptor := do
  ofItems (← entries.mapM (itemOfEntry compile))

end Descriptor
end Fallow
