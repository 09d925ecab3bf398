import Fallow.Definition
import Fallow.Send
import Fallow.Syntax.Node

/-!
# Acts

What the source of a file does to the record of names, as a tree. An act belongs to the visit of
the node that gives rise to it.
-/

namespace Fallow

inductive NamespaceKind where
  | classSpace
  | moduleSpace
  deriving DecidableEq, Repr

def NamespaceKind.definitionKind : NamespaceKind → Definition.Kind
  | classSpace => .classDef
  | moduleSpace => .moduleDef

inductive Act where
  /-- The visit of a node, with all it does. -/
  | visit (site : Syntax.Node) (acts : List Act)
  /-- A name is used without a call. -/
  | refer (name : String) (location : Location)
  | send (call : Send)
  /-- A visibility word alone: what follows in this body has that visibility. -/
  | declare (visibility : Visibility)
  /-- A visibility word with a name: what was recorded under that name has that visibility. -/
  | remark (visibility : Visibility) (name : String)
  /-- A visibility word before a declaration: it holds for that declaration only. -/
  | inline (visibility : Visibility) (acts : List Act)
  | constant (name qualified : String) (location : Location)
  | accessor (name : String) (location : Location)
  /-- A method is defined, on the object itself if `onSelf`. -/
  | method (onSelf : Bool) (name : String) (location : Location)
  | methodBody (acts : List Act)
  | enclosure (kind : NamespaceKind) (name qualified : String) (location : Location)
    (acts : List Act)
  | singletonBody (acts : List Act)

namespace Act

/-- The visit of a node that is still to be filled with what it does. -/
def walk (n : Syntax.Node) : Act :=
  .visit n []

def walk? : Option Syntax.Node → List Act
  | some n => [walk n]
  | none => []

mutual

/-- Fills every visit with what `acts` says its node does, inside method bodies and outside. -/
def fill (acts : Bool → Syntax.Node → List Act) (inMethod : Bool) : Act → Act
  | .visit site _ => .visit site (acts inMethod site)
  | .inline visibility inner => .inline visibility (fillAll acts inMethod inner)
  | .methodBody inner => .methodBody (fillAll acts true inner)
  | .enclosure kind name qualified location inner =>
    .enclosure kind name qualified location (fillAll acts inMethod inner)
  | .singletonBody inner => .singletonBody (fillAll acts inMethod inner)
  | act => act

def fillAll (acts : Bool → Syntax.Node → List Act) (inMethod : Bool) : List Act → List Act
  | [] => []
  | act :: rest => fill acts inMethod act :: fillAll acts inMethod rest

end

mutual

def sites : Act → List Syntax.Node
  | .visit site inner => site :: sitesAll inner
  | .inline _ inner => sitesAll inner
  | .methodBody inner => sitesAll inner
  | .enclosure _ _ _ _ inner => sitesAll inner
  | .singletonBody inner => sitesAll inner
  | _ => []

def sitesAll : List Act → List Syntax.Node
  | [] => []
  | act :: rest => sites act ++ sitesAll rest

end

end Act
end Fallow
