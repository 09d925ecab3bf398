import Fallow.Pattern.Search
import Fallow.Plugin.Basic

/-!
# Choice of plugins

Plugins by name, the plugins that the gems of a project call for, and the plugin that a configured
list of names stands for.
-/

namespace Fallow.Plugin

def builtIn : List Plugin :=
  [ruby, minitest, actionPack, activeRecord]

def ofName? (name : String) : Option Plugin :=
  builtIn.find? (·.name == name)

inductive Error where
  | unknown (name : String)
  | descriptor (e : Descriptor.Error)

def knownNames : List String :=
  sortedBy textOrder (builtIn.map (·.name))

def Error.message : Error → String
  | .unknown name =>
    "Unknown plugin " ++ Text.quoted name ++ " (known plugins: "
      ++ ", ".intercalate knownNames ++ ")"
  | .descriptor e => e.message

def Error.isComplaint : Error → Bool
  | .unknown _ => true
  | .descriptor e => e.isComplaint

/-- The plugins of the given names, each once, but for those already seen. -/
def loadAfter (seen : List String) : List String → Except Error (List Plugin)
  | [] => .ok []
  | name :: rest =>
    if seen.contains name then loadAfter seen rest
    else match ofName? name with
      | some p => do return p :: (← loadAfter (name :: seen) rest)
      | none => .error (.unknown name)

def load (names : List String) : Except Error (List Plugin) :=
  loadAfter [] names

def gemPlugins : List (String × String) :=
  [("minitest", "minitest"), ("actionpack", "actionpack"), ("activerecord", "active_record")]

def addForGem (names : List String) (gem : String) : List String :=
  match gemPlugins.lookup gem with
  | some name => if names.contains name then names else names ++ [name]
  | none => names

/-- The names of the plugins that a set of gems calls for, by the order of the gems' names. -/
def namesForGems (gems : List String) : List String :=
  (sortedBy textOrder gems.eraseDups).foldl addForGem ["ruby"]

/-- The plugin of a list of ignored names, with the given compiler of patterns. -/
def ofEntriesWith (compile : String → Except Finder.Failure Finder) (entries : List String) :
    Except Error Plugin :=
  match Descriptor.ofEntries compile entries with
  | .ok d => .ok (.configured d)
  | .error e => .error (.descriptor e)

def ofEntries (entries : List String) : Except Error Plugin :=
  ofEntriesWith Pattern.finder entries

end Fallow.Plugin
