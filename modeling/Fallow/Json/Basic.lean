import Fallow.Number.Binary64
import Fallow.Text.Quoted

/-!
# Documents

JSON values. Objects keep their members in order; a member written twice keeps its first place and
its last value.
-/

namespace Fallow

inductive Json where
  | null
  | bool (b : Bool)
  | int (i : Int)
  | real (x : Binary64)
  | str (s : String)
  | arr (items : List Json)
  | obj (members : List (String × Json))
  deriving Inhabited

namespace Json

/-- Sets a member: in its place if there is one of that name, at the end otherwise. -/
def setMember {α : Type} (name : String) (value : α) : List (String × α) → List (String × α)
  | [] => [(name, value)]
  | (key, old) :: rest =>
    if key = name then (key, value) :: rest else (key, old) :: setMember name value rest

def ofMembers {α : Type} (members : List (String × α)) : List (String × α) :=
  members.foldl (fun done (name, value) => setMember name value done) []

def get? (name : String) : Json → Option Json
  | .obj members => members.lookup name
  | _ => none

mutual

/-- How messages show a value. -/
def described : Json → String
  | .null => "None"
  | .bool true => "True"
  | .bool false => "False"
  | .int i => Numeral.text i
  | .real x => x.text
  | .str s => Text.quoted s
  | .arr items => "[" ++ ", ".intercalate (describedItems items) ++ "]"
  | .obj members => "\x7b" ++ ", ".intercalate (describedMembers members) ++ "\x7d"

def describedItems : List Json → List String
  | [] => []
  | item :: rest => described item :: describedItems rest

def describedMembers : List (String × Json) → List String
  | [] => []
  | (name, value) :: rest =>
    (Text.quoted name ++ ": " ++ described value) :: describedMembers rest

end

/-- How running text shows a value: a text stands for itself. -/
def plain : Json → String
  | .str s => s
  | value => described value

end Json
end Fallow
