import Fallow.Definition
import Fallow.Plugin.Descriptor
import Fallow.Send
import Fallow.Text.Lines

/-!
# Plugins

What is known about the frameworks that call code by themselves. A plugin ignores definitions when
they are recorded, ignores the actions of a class when its body is closed, and supplies references
for the sends it understands.
-/

namespace Fallow

inductive Plugin where
  | ruby
  | minitest
  | actionPack
  | activeRecord
  | configured (descriptor : Descriptor)

namespace Plugin

def endsWith (suffix s : String) : Bool :=
  suffix.toList.isSuffixOf s.toList

def startsWith (start s : String) : Bool :=
  start.toList.isPrefixOf s.toList

def name : Plugin → String
  | ruby => "ruby"
  | minitest => "minitest"
  | actionPack => "actionpack"
  | activeRecord => "active_record"
  | configured _ => "configured"

def description : Plugin → String
  | ruby => "<Ruby plugin>"
  | minitest => "<Minitest plugin>"
  | actionPack => "<ActionPack plugin>"
  | activeRecord => "<ActiveRecord plugin>"
  | configured _ => "<ConfiguredPlugin plugin>"

def descriptor : Plugin → Descriptor
  | ruby =>
    { names := ["==", "extended", "included", "inherited", "initialize", "method_added",
        "method_missing", "prepended", "respond_to_missing?", "to_s"] }
  | minitest =>
    { names := ["after_all", "around", "around_all", "before_all", "setup", "teardown"]
      finders := [⟨"^test_", startsWith "test_"⟩] }
  | configured descriptor => descriptor
  | _ => {}

/-- Whether a definition is taken out of the search as soon as it is recorded. -/
def ignores (p : Plugin) (d : Definition) : Bool :=
  match d.kind with
  | .methodDef | .singletonDef => p.descriptor.covers d.name
  | .classDef => match p with
    | minitest => endsWith "Test" d.name
    | _ => false
  | _ => false

/-- Whether the closing of a class makes a recorded method of its file an action: the public
instance methods of a controller are called by the router. -/
def isAction (p : Plugin) (closed method : Definition) : Bool :=
  match p with
  | actionPack =>
    closed.kind = .classDef && endsWith "Controller" closed.name
      && method.kind = .methodDef && method.visibility = .pub
      && Text.beforeLast '#' method.fullName.toList = closed.fullName.toList
  | _ => false

def methodReflections : List String :=
  ["send", "__send__", "public_send", "try", "respond_to?", "method"]

def constantReflections : List String :=
  ["const_get", "const_defined?", "const_source_location"]

def actionCallbacks : List String :=
  ["after_action", "append_after_action", "append_around_action", "append_before_action",
    "around_action", "before_action", "helper_method", "prepend_after_action",
    "prepend_around_action", "prepend_before_action", "skip_after_action", "skip_around_action",
    "skip_before_action"]

def recordCallbacks : List String :=
  ["after_commit", "after_create", "after_create_commit", "after_destroy",
    "after_destroy_commit", "after_find", "after_initialize", "after_rollback", "after_save",
    "after_save_commit", "after_touch", "after_update", "after_update_commit",
    "after_validation", "around_create", "around_destroy", "around_save", "around_update",
    "before_create", "before_destroy", "before_save", "before_update", "before_validation",
    "validate", "validates", "validates_each", "validates_with"]

def segments : List Char → List (List Char)
  | [] => [[]]
  | ':' :: ':' :: rest => [] :: segments rest
  | c :: rest =>
    match segments rest with
    | [] => [[c]]
    | piece :: pieces => (c :: piece) :: pieces

def lastSegment (s : String) : String :=
  String.ofList ((segments s.toList).getLastD [])

def nameOf? (a : Argument) : Option String :=
  if a.isName then some a.value else none

def conditionNames (s : Send) : List String :=
  ["if", "unless"].filterMap fun key =>
    match s.keyword? key with
    | some a => if a.isSymbol then some a.value else none
    | none => none

/-- The methods that a callback declaration names: every symbol, and the conditions. -/
def callbackNames (s : Send) : List String :=
  (s.args.filter (·.isSymbol)).map (·.value) ++ conditionNames s

def referred (p : Plugin) (s : Send) : List String :=
  match p with
  | ruby =>
    if methodReflections.contains s.name then (s.args.head?.bind nameOf?).toList
    else if constantReflections.contains s.name then
      ((s.args.head?.bind nameOf?).map lastSegment).toList
    else if s.name = "alias_method" then (s.args.getLast?.bind nameOf?).toList
    else []
  | actionPack =>
    if s.hasReceiver || !actionCallbacks.contains s.name then [] else callbackNames s
  | activeRecord =>
    if s.hasReceiver || !recordCallbacks.contains s.name then []
    else if startsWith "validates" s.name then conditionNames s
    else callbackNames s
  | _ => []

end Plugin
end Fallow
