import Fallow.Location
import Fallow.Text.Quoted

/-!
# Definitions

A place where a class, module, method, accessor or constant is defined. Two definitions are the
same when kind, full name and location agree; the visibility may change, and the mark that takes a
definition out of the search for unused code can only be set.
-/

namespace Fallow

inductive Visibility where
  | pub
  | priv
  | prot
  deriving DecidableEq, Repr, Inhabited

namespace Visibility

def text : Visibility → String
  | pub => "public"
  | priv => "private"
  | prot => "protected"

def all : List Visibility := [pub, priv, prot]

def ofText? (s : String) : Option Visibility :=
  all.find? (·.text == s)

def label : Visibility → String
  | pub => "Visibility.PUBLIC"
  | priv => "Visibility.PRIVATE"
  | prot => "Visibility.PROTECTED"

end Visibility

namespace Definition

inductive Kind where
  | classDef
  | moduleDef
  | methodDef
  | singletonDef
  | accessorDef
  | constantDef
  deriving DecidableEq, Repr, Inhabited

namespace Kind

def text : Kind → String
  | classDef => "class"
  | moduleDef => "module"
  | methodDef => "method"
  | singletonDef => "singleton_method"
  | accessorDef => "accessor"
  | constantDef => "constant"

def all : List Kind :=
  [classDef, moduleDef, methodDef, singletonDef, accessorDef, constantDef]

def ofText? (s : String) : Option Kind :=
  all.find? (·.text == s)

def label : Kind → String
  | classDef => "DefinitionKind.CLASS"
  | moduleDef => "DefinitionKind.MODULE"
  | methodDef => "DefinitionKind.METHOD"
  | singletonDef => "DefinitionKind.SINGLETON_METHOD"
  | accessorDef => "DefinitionKind.ACCESSOR"
  | constantDef => "DefinitionKind.CONSTANT"

end Kind
end Definition

structure Definition where
  kind : Definition.Kind
  name : String
  fullName : String
  location : Location
  visibility : Visibility
  ignored : Bool := false
  deriving DecidableEq, Repr, Inhabited

namespace Definition

/-- The same definition, whatever its bare name, visibility and mark. -/
def same (a b : Definition) : Bool :=
  a.kind = b.kind && a.fullName = b.fullName && a.location = b.location

@[simp] theorem same_refl (d : Definition) : d.same d = true := by
  simp [same]

def ignore (d : Definition) : Definition :=
  { d with ignored := true }

def mark (visibility : Visibility) (d : Definition) : Definition :=
  { d with visibility }

/-- The order of listings. -/
def compare (a b : Definition) : Ordering :=
  (a.location.compare b.location).then <|
    (textOrder a.kind.text b.kind.text).then (textOrder a.fullName b.fullName)

/-- The order of verdicts, which looks at the place and the name only. -/
def comparePlace (a b : Definition) : Ordering :=
  (a.location.compare b.location).then (textOrder a.fullName b.fullName)

def description (d : Definition) : String :=
  "Definition(kind=" ++ d.kind.label ++ ", full_name=" ++ Text.quoted d.fullName
    ++ ", location=" ++ d.location.text ++ ", visibility=" ++ d.visibility.label
    ++ ", ignored=" ++ (if d.ignored then "True" else "False") ++ ")"

end Definition
end Fallow
