import Fallow.Definition
import Fallow.Index.Buckets
import Fallow.Reference

/-!
# Indexes

Definitions and references under their bare names. An index keeps the first of several equal
definitions, and lists what it holds in an order that does not depend on how it was filled.
-/

namespace Fallow

@[ext] structure Index where
  definitions : Buckets Definition := {}
  references : Buckets Reference := {}
  deriving Repr

namespace Index

def empty : Index := {}

def addDefinition (x : Index) (d : Definition) : Index :=
  { x with definitions := x.definitions.insert Definition.same d.name d }

def addReference (x : Index) (r : Reference) : Index :=
  { x with references := x.references.insert (· == ·) r.name r }

def definitionsFor (x : Index) (name : String) : List Definition :=
  x.definitions.get name

def referencesFor (x : Index) (name : String) : List Reference :=
  x.references.get name

/-- Whether a definition equal to the given one is stored under its name. -/
def holds (x : Index) (d : Definition) : Bool :=
  (x.definitionsFor d.name).any d.same

def listing (x : Index) : List Definition :=
  sortedBy Definition.compare x.definitions.values

def referenceListing (x : Index) : List Reference :=
  sortedBy Reference.compare x.references.values

def size (x : Index) : Nat :=
  x.definitions.size

def merge (x other : Index) : Index where
  definitions := x.definitions.merge Definition.same other.definitions
  references := x.references.merge (· == ·) other.references

end Index
end Fallow
