/-!
# Buckets

Values grouped by a name, the groups in the order in which they were opened. A group takes a value
only if it holds none that counts as the same.
-/

namespace Fallow

structure Buckets (α : Type) where
  groups : List (String × List α) := []
  deriving Repr

namespace Buckets

variable {α : Type}

def get (b : Buckets α) (name : String) : List α :=
  (b.groups.lookup name).getD []

def values (b : Buckets α) : List α :=
  b.groups.flatMap (·.2)

def size (b : Buckets α) : Nat :=
  b.values.length

/-- Adds a value to a group unless the group holds the same. -/
def addTo (same : α → α → Bool) (a : α) (group : List α) : List α :=
  if group.any (same a) then group else group ++ [a]

def insertInto (same : α → α → Bool) (name : String) (a : α) :
    List (String × List α) → List (String × List α)
  | [] => [(name, [a])]
  | (key, group) :: rest =>
    if key = name then (key, addTo same a group) :: rest
    else (key, group) :: insertInto same name a rest

def insert (same : α → α → Bool) (b : Buckets α) (name : String) (a : α) : Buckets α :=
  ⟨insertInto same name a b.groups⟩

/-- Adds every value of every group of another collection. -/
def merge (same : α → α → Bool) (b other : Buckets α) : Buckets α :=
  other.groups.foldl (fun b (name, group) => group.foldl (fun b a => b.insert same name a) b) b

def map {β : Type} (f : α → β) (b : Buckets α) : Buckets β :=
  ⟨b.groups.map fun (name, group) => (name, group.map f)⟩

def mapAt (name : String) (f : α → α) (b : Buckets α) : Buckets α :=
  ⟨b.groups.map fun (key, group) => (key, if key = name then group.map f else group)⟩

@[simp] theorem values_empty : (⟨[]⟩ : Buckets α).values = [] := rfl

@[simp] theorem get_empty (name : String) : (⟨[]⟩ : Buckets α).get name = [] := rfl

end Buckets
end Fallow
