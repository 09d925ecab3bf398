import Fallow.Index.Unused

/-!
# Stores

Several named indexes that share definition objects. Marking an object shows in every index that
holds it. `Store.index` is what one of the indexes looks like at a moment.
-/

namespace Fallow

/-- One index of a store: it holds definitions by the numbers of their objects. -/
structure Shelf where
  definitions : Buckets Nat := {}
  references : Buckets Reference := {}

structure Store where
  objects : List Definition := []
  /-- The number of the object that each handle stands for; the latest use of a handle counts. -/
  handles : List (String × Nat) := []
  shelves : List (String × Shelf) := []

namespace Store

inductive Operation where
  | create (handle : String) (d : Definition)
  | addDefinition (index handle : String)
  | addReference (index : String) (r : Reference)
  | merge (index other : String)
  | ignore (handle : String)
  | mark (handle : String) (visibility : Visibility)

def object (s : Store) (number : Nat) : Definition :=
  s.objects.getD number default

def shelf (s : Store) (index : String) : Shelf :=
  (s.shelves.lookup index).getD {}

/-- An index of the store, with the objects it holds put in. -/
def index (s : Store) (name : String) : Index where
  definitions := (s.shelf name).definitions.map s.object
  references := (s.shelf name).references

def number? (s : Store) (handle : String) : Option Nat :=
  s.handles.lookup handle

def definition? (s : Store) (handle : String) : Option Definition :=
  (s.number? handle).map s.object

def setShelf (s : Store) (index : String) (shelf : Shelf) : Store :=
  { s with shelves := (index, shelf) :: s.shelves.filter (·.1 != index) }

def sameObject (s : Store) (a b : Nat) : Bool :=
  (s.object a).same (s.object b)

def changeObject (s : Store) (number : Nat) (f : Definition → Definition) : Store :=
  { s with objects := s.objects.modify number f }

/-- Does an operation; none is done with a handle that stands for nothing. -/
def perform? (s : Store) : Operation → Option Store
  | .create handle d =>
    some { s with
      objects := s.objects ++ [d]
      handles := (handle, s.objects.length) :: s.handles }
  | .addDefinition index handle => do
    let number ← s.number? handle
    let shelf := s.shelf index
    return s.setShelf index { shelf with
      definitions := shelf.definitions.insert s.sameObject (s.object number).name number }
  | .addReference index r =>
    let shelf := s.shelf index
    some (s.setShelf index { shelf with
      references := shelf.references.insert (· == ·) r.name r })
  | .merge index other =>
    let shelf := s.shelf index
    some (s.setShelf index {
      definitions := shelf.definitions.merge s.sameObject (s.shelf other).definitions
      references := shelf.references.merge (· == ·) (s.shelf other).references })
  | .ignore handle => do
    return s.changeObject (← s.number? handle) (·.ignore)
  | .mark handle visibility => do
    return s.changeObject (← s.number? handle) (·.mark visibility)

def run? (s : Store) (ops : List Operation) : Option Store :=
  ops.foldlM perform? s

@[simp] theorem run?_nil (s : Store) : s.run? [] = some s := rfl

end Store
end Fallow
