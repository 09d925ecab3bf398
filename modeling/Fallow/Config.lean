import Fallow.Json.Basic
import Fallow.Location

/-!
# Configuration

The table of settings of a project, and the checks it has to pass. A check that fails names the
file and the setting.
-/

namespace Fallow

structure Config where
  included : List String := []
  excluded : List String := []
  /-- Without plugins of its own a project gets those that its gems call for. -/
  plugins : Option (List String) := none
  ignoredNames : List String := []
  jobs : Option Int := none
  deriving DecidableEq, Repr

namespace Config

/-- A value in a table of settings, as far as settings tell values apart. -/
inductive Setting where
  | null
  | bool (b : Bool)
  | int (i : Int)
  | text (s : String)
  | list (items : List Setting)
  | other

mutual

def Setting.ofJson : Json → Setting
  | .null => .null
  | .bool b => .bool b
  | .int i => .int i
  | .str s => .text s
  | .arr items => .list (Setting.ofItems items)
  | _ => .other

def Setting.ofItems : List Json → List Setting
  | [] => []
  | item :: rest => Setting.ofJson item :: Setting.ofItems rest

end

inductive Fault where
  | unknownKeys (keys : List String)
  | badJobs
  | notTexts (key : String)
  deriving DecidableEq, Repr

def Fault.message : Fault → String
  | .unknownKeys keys => "unknown keys: " ++ ", ".intercalate keys
  | .badJobs => "'jobs' must be a positive integer"
  | .notTexts key => Text.quoted key ++ " must be a list of strings"

def knownKeys : List String :=
  ["include", "exclude", "plugins", "ignore_method_names", "jobs"]

def text? : Setting → Option String
  | .text s => some s
  | _ => none

/-- A list of texts; an absent one is empty. -/
def textsAt (table : List (String × Setting)) (key : String) : Except Fault (List String) :=
  match table.lookup key with
  | none => .ok []
  | some (.list items) =>
    match items.mapM text? with
    | some texts => .ok texts
    | none => .error (.notTexts key)
  | some _ => .error (.notTexts key)

def jobsAt (table : List (String × Setting)) : Except Fault (Option Int) :=
  match table.lookup "jobs" with
  | none | some .null => .ok none
  | some (.int i) => if i < 1 then .error .badJobs else .ok (some i)
  | some _ => .error .badJobs

def pluginsAt (table : List (String × Setting)) : Except Fault (Option (List String)) :=
  match table.lookup "plugins" with
  | none | some .null => .ok none
  | some _ => return some (← textsAt table "plugins")

/-- Reads a table of settings; of several faults the first in this order counts: unknown keys,
jobs, include, exclude, plugins, ignored names. -/
def ofTable (table : List (String × Setting)) : Except Fault Config := do
  let unknown := (table.map (·.1)).filter (!knownKeys.contains ·)
  if !unknown.isEmpty then .error (.unknownKeys (sortedBy textOrder unknown.eraseDups))
  else
    let jobs ← jobsAt table
    return {
      included := ← textsAt table "include"
      excluded := ← textsAt table "exclude"
      plugins := ← pluginsAt table
      ignoredNames := ← textsAt table "ignore_method_names"
      jobs }

end Config
end Fallow
