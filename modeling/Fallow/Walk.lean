import Fallow.Index.Basic
import Fallow.Outline.Basic
import Fallow.Plugin.Basic

/-!
# Walks

A walk carries out the acts of an outline. It knows the namespaces and bodies it is in, fills an
index, and announces definitions, sends and closed namespaces to the plugins. The trace lists what
was announced, each time with the index at that moment.
-/

namespace Fallow

/-- An open body: the visibility in force, and whether its methods belong to the object itself. -/
structure Body where
  mode : Visibility := .pub
  singleton : Bool := false
  deriving DecidableEq, Repr

inductive Event where
  | defined (d : Definition)
  | closed (d : Definition)
  | sent (s : Send)

/-- An announcement, with the index just before the plugins react. -/
structure Moment where
  event : Event
  index : Index

/-- The state of a walk; `nesting` and `trace` have their latest entry first. -/
structure Walk where
  nesting : List String := []
  body : Body := {}
  outer : List Body := []
  methodDepth : Nat := 0
  index : Index := {}
  trace : List Moment := []

structure Walk.Setting where
  path : String
  plugins : List Plugin := []

namespace Walk

def space (w : Walk) : String :=
  "::".intercalate w.nesting.reverse

def qualifyConstant (w : Walk) (qualified : String) : String :=
  "::".intercalate (w.nesting.reverse ++ [qualified])

def qualifyMethod (w : Walk) (onSelf : Bool) (name : String) : String :=
  if w.space = "" then name else w.space ++ (if onSelf then "." else "#") ++ name

def announce (w : Walk) (event : Event) : Walk :=
  { w with trace := ⟨event, w.index⟩ :: w.trace }

def refer (w : Walk) (name : String) (location : Location) (origin : Origin) : Walk :=
  { w with index := w.index.addReference ⟨name, location, origin⟩ }

def judged (plugins : List Plugin) (d : Definition) : Definition :=
  plugins.foldl (fun d p => if p.ignores d then d.ignore else d) d

/-- Records a definition and announces it. The plugins' marks reach the index only if the
definition was not there before. -/
def define (setting : Setting) (kind : Definition.Kind) (name fullName : String)
    (location : Location) (w : Walk) : Definition × Walk :=
  let fresh : Definition := ⟨kind, name, fullName, location, w.body.mode, false⟩
  let d := judged setting.plugins fresh
  (d, { w with
    index := w.index.addDefinition d
    trace := ⟨.defined d, w.index.addDefinition fresh⟩ :: w.trace })

/-- Marks the definitions of this file that bear a name, when they were recorded under the full
name that the name has here. -/
def remark (setting : Setting) (visibility : Visibility) (name : String) (w : Walk) : Walk :=
  let fullName := w.qualifyMethod w.body.singleton name
  { w with index := { w.index with
    definitions := w.index.definitions.mapAt name fun d =>
      if d.fullName = fullName && d.location.file = setting.path then d.mark visibility else d } }

/-- Announces a send, after its reference; the plugins add theirs. -/
def send (setting : Setting) (s : Send) (w : Walk) : Walk :=
  let w := (w.refer s.name s.location .syntactic).announce (.sent s)
  (setting.plugins.flatMap (·.referred s)).foldl
    (fun w name => w.refer name s.location .synthetic) w

/-- Announces that a namespace is closed; the plugins mark the actions in it. -/
def close (setting : Setting) (d : Definition) (w : Walk) : Walk :=
  let w := w.announce (.closed d)
  { w with index := { w.index with
    definitions := w.index.definitions.map fun m =>
      if m.location.file = setting.path && setting.plugins.any (·.isAction d m) then m.ignore
      else m } }

def enterBody (singleton : Bool) (w : Walk) : Walk :=
  { w with body := { singleton }, outer := w.body :: w.outer }

def exitBody (w : Walk) : Walk :=
  match w.outer with
  | body :: outer => { w with body, outer }
  | [] => w

def setMode (visibility : Visibility) (w : Walk) : Walk :=
  { w with body := { w.body with mode := visibility } }

mutual

def act (setting : Setting) : Act → Walk → Walk
  | .visit _ acts, w => actAll setting acts w
  | .refer name location, w => w.refer name location .syntactic
  | .send s, w => w.send setting s
  | .declare visibility, w => w.setMode visibility
  | .remark visibility name, w => w.remark setting visibility name
  | .inline visibility acts, w =>
    (actAll setting acts (w.setMode visibility)).setMode w.body.mode
  | .constant name qualified location, w =>
    (w.define setting .constantDef name (w.qualifyConstant qualified) location).2
  | .accessor name location, w =>
    (w.define setting .accessorDef name (w.qualifyMethod w.body.singleton name) location).2
  | .method onSelf name location, w =>
    let onSelf := onSelf || w.body.singleton
    (w.define setting (if onSelf then .singletonDef else .methodDef) name
      (w.qualifyMethod onSelf name) location).2
  | .methodBody acts, w =>
    let w := actAll setting acts { w with methodDepth := w.methodDepth + 1 }
    { w with methodDepth := w.methodDepth - 1 }
  | .enclosure kind name qualified location acts, w =>
    let (d, w) := w.define setting kind.definitionKind name (w.qualifyConstant qualified) location
    let w := enterBody false { w with nesting := qualified :: w.nesting }
    let w := (actAll setting acts w).exitBody
    close setting d { w with nesting := w.nesting.tail }
  | .singletonBody acts, w => (actAll setting acts (w.enterBody true)).exitBody

def actAll (setting : Setting) : List Act → Walk → Walk
  | [], w => w
  | a :: rest, w => actAll setting rest (act setting a w)

end

/-- Visits a node in whatever state the walk is. -/
def visit (src : Source) (plugins : List Plugin) (n : Syntax.Node) (w : Walk) : Walk :=
  act ⟨src.path, plugins⟩ (.visit n (src.outline (w.methodDepth ≠ 0) n)) w

/-- Walks through a whole file, on top of an index. -/
def run (src : Source) (plugins : List Plugin) (root : Syntax.Node) (index : Index := {}) : Walk :=
  visit src plugins root { index }

def events (w : Walk) : List Event :=
  w.trace.reverse.map (·.event)

end Walk
end Fallow
