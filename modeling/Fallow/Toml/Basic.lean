import Fallow.Config
import Fallow.Number.Binary64

/-!
# Tables of settings in TOML

The values of the TOML format and the rules by which statements build a table: no value is
overwritten, no table declared twice, and what is written as one value is closed afterwards.
-/

namespace Fallow

namespace Toml

inductive Value where
  | text (s : String)
  | int (i : Int)
  | real (x : Binary64)
  | bool (b : Bool)
  /-- A date, a time or both. -/
  | time
  | array (items : List Value)
  | table (members : List (String × Value))

abbrev Key := List String

inductive Error where
  | malformed
  /-- A table or value is declared twice. -/
  | redeclared
  | tooManyDigits
  deriving DecidableEq, Repr

def Error.message : Error → String
  | .malformed => "invalid statement"
  | .redeclared => "cannot overwrite a value"
  | .tooManyDigits => "too many digits"

abbrev Table := List (String × Value)

def changeLast (f : Table → Except Error Table) : List Value → Except Error (List Value)
  | [] => .error .redeclared
  | [.table members] => return [.table (← f members)]
  | [_] => .error .redeclared
  | item :: rest => return item :: (← changeLast f rest)

/-- Changes the table at the end of a key, creating those on the way. An array of tables stands
for its last one, if `throughArrays`. -/
def changeAt (throughArrays : Bool) (f : Table → Except Error Table) :
    Key → Table → Except Error Table
  | [], t => f t
  | part :: rest, t =>
    match t.lookup part with
    | none => do return t ++ [(part, .table (← changeAt throughArrays f rest []))]
    | some (.table inner) => do
      return Json.setMember part (.table (← changeAt throughArrays f rest inner)) t
    | some (.array items) =>
      if throughArrays then do
        return Json.setMember part (.array (← changeLast (changeAt throughArrays f rest) items)) t
      else .error .redeclared
    | some _ => .error .redeclared

def addMember (name : String) (value : Value) (t : Table) : Except Error Table :=
  if (t.lookup name).isSome then .error .redeclared else .ok (t ++ [(name, value)])

def appendTable (name : String) (t : Table) : Except Error Table :=
  match t.lookup name with
  | none => .ok (t ++ [(name, .array [.table []])])
  | some (.array items) => .ok (Json.setMember name (.array (items ++ [.table []])) t)
  | some _ => .error .redeclared

structure Document where
  data : Table := []
  /-- The table that key-value pairs go to. -/
  header : Key := []
  /-- Keys of values that are closed with all below them. -/
  closed : List Key := []
  /-- Keys of tables that may not be declared again. -/
  declared : List Key := []
  /-- Keys that may not be declared from the next table on. -/
  pending : List Key := []

namespace Document

def isClosed (d : Document) (key : Key) : Bool :=
  d.closed.any (·.isPrefixOf key)

def isDeclared (d : Document) (key : Key) : Bool :=
  d.declared.contains key

def isContainer : Value → Bool
  | .array _ => true
  | .table _ => true
  | _ => false

/-- The tables that a dotted key goes through, below the header. -/
def throughKeys (header : Key) (key : Key) : List Key :=
  (List.range (key.length - 1)).map fun i => header ++ key.take (i + 1)

def addPair (d : Document) (key : Key) (value : Value) : Except Error Document := do
  let through := throughKeys d.header key
  let parent := d.header ++ key.dropLast
  if through.any d.isDeclared || (!parent.isEmpty && d.isClosed parent) then .error .redeclared
  else
    let data ← changeAt true (addMember (key.getLastD "") value) parent d.data
    return { d with
      data
      closed := if isContainer value then (d.header ++ key) :: d.closed else d.closed
      pending := through ++ d.pending }

/-- What was pending holds from now on. -/
def settle (d : Document) : Document :=
  { d with declared := d.pending ++ d.declared, pending := [] }

def openTable (d : Document) (key : Key) : Except Error Document := do
  let d := d.settle
  if d.isDeclared key || d.isClosed key then .error .redeclared
  else
    let data ← changeAt true .ok key d.data
    return { d with data, header := key, declared := key :: d.declared }

def openItem (d : Document) (key : Key) : Except Error Document := do
  let d := d.settle
  if d.isClosed key then .error .redeclared
  else
    let data ← changeAt true (appendTable (key.getLastD "")) key.dropLast d.data
    return { d with
      data
      header := key
      closed := d.closed.filter (!key.isPrefixOf ·)
      declared := key :: d.declared.filter (!key.isPrefixOf ·) }

end Document
end Toml

mutual

def Config.Setting.ofToml : Toml.Value → Config.Setting
  | .text s => .text s
  | .int i => .int i
  | .bool b => .bool b
  | .array items => .list (Config.Setting.ofTomlItems items)
  | _ => .other

def Config.Setting.ofTomlItems : List Toml.Value → List Config.Setting
  | [] => []
  | item :: rest => Config.Setting.ofToml item :: Config.Setting.ofTomlItems rest

end

end Fallow
