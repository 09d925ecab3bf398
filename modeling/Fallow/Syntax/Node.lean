/-!
# Syntax trees

The concrete syntax tree of a Ruby file, as far as names are concerned. A node knows its kind, the
bytes and the place it covers, its children, and which child plays which role.
-/

namespace Fallow.Syntax

/-- The kinds of nodes that matter; all the others are known by name only. -/
inductive Kind where
  | classDecl
  | moduleDecl
  | singletonClass
  | methodDecl
  | singletonMethodDecl
  | methodParameters
  | blockParameters
  | lambdaParameters
  | assignment
  | operatorAssignment
  | call
  | identifier
  | binary
  | elementReference
  | blockArgument
  | pair
  | aliasDecl
  | constant
  | scopeResolution
  | simpleSymbol
  | delimitedSymbol
  | string
  | stringContent
  | hash
  | comment
  | instanceVariable
  | classVariable
  | globalVariable
  | error
  | other (name : String)
  deriving DecidableEq, Repr, Inhabited

def Kind.table : List (String × Kind) :=
  [("class", .classDecl), ("module", .moduleDecl), ("singleton_class", .singletonClass),
    ("method", .methodDecl), ("singleton_method", .singletonMethodDecl),
    ("method_parameters", .methodParameters), ("block_parameters", .blockParameters),
    ("lambda_parameters", .lambdaParameters), ("assignment", .assignment),
    ("operator_assignment", .operatorAssignment), ("call", .call), ("identifier", .identifier),
    ("binary", .binary), ("element_reference", .elementReference),
    ("block_argument", .blockArgument), ("pair", .pair), ("alias", .aliasDecl),
    ("constant", .constant), ("scope_resolution", .scopeResolution),
    ("simple_symbol", .simpleSymbol), ("delimited_symbol", .delimitedSymbol),
    ("string", .string), ("string_content", .stringContent), ("hash", .hash),
    ("comment", .comment), ("instance_variable", .instanceVariable),
    ("class_variable", .classVariable), ("global_variable", .globalVariable), ("ERROR", .error)]

def Kind.ofName (name : String) : Kind :=
  (Kind.table.lookup name).getD (.other name)

inductive Field where
  | aliased
  | arguments
  | key
  | left
  | method
  | name
  | object
  | operator
  | receiver
  | right
  | scope
  | value
  deriving DecidableEq, Repr

def Field.table : List (String × Field) :=
  [("alias", .aliased), ("arguments", .arguments), ("key", .key), ("left", .left),
    ("method", .method), ("name", .name), ("object", .object), ("operator", .operator),
    ("receiver", .receiver), ("right", .right), ("scope", .scope), ("value", .value)]

def Field.ofName? (name : String) : Option Field :=
  Field.table.lookup name

/-- A place in the source: rows count from zero, columns count bytes from zero. -/
structure Point where
  row : Nat
  column : Nat
  deriving DecidableEq, Repr

structure Span where
  startByte : Nat
  endByte : Nat
  start : Point
  stop : Point
  deriving DecidableEq, Repr

/-- `named` nodes stand for something; `missing` ones were inserted to repair the text, and
`faulty` ones have an error at or below them. -/
structure Flags where
  named : Bool
  missing : Bool
  faulty : Bool
  deriving DecidableEq, Repr

inductive Node where
  | mk (kind : Kind) (span : Span) (flags : Flags) (fields : List (Field × Nat))
    (children : List Node)

namespace Node

def kind : Node → Kind
  | mk kind _ _ _ _ => kind

def span : Node → Span
  | mk _ span _ _ _ => span

def flags : Node → Flags
  | mk _ _ flags _ _ => flags

def fields : Node → List (Field × Nat)
  | mk _ _ _ fields _ => fields

def children : Node → List Node
  | mk _ _ _ _ children => children

def field? (n : Node) (f : Field) : Option Node :=
  (n.fields.lookup f).bind (n.children[·]?)

def named (n : Node) : List Node :=
  n.children.filter (·.flags.named)

theorem mem_children_of_mem_named {n c : Node} (h : c ∈ n.named) : c ∈ n.children :=
  (List.mem_filter.1 h).1

theorem mem_children_of_field? {n c : Node} {f : Field} (h : n.field? f = some c) :
    c ∈ n.children := by
  simp only [field?, Option.bind_eq_some_iff] at h
  obtain ⟨i, _, hi⟩ := h
  exact List.mem_of_getElem? hi

/-- Two nodes stand at the same place when they cover the same bytes and are of one kind. -/
def sameSite (a b : Node) : Bool :=
  a.span.startByte = b.span.startByte && a.span.endByte = b.span.endByte && a.kind = b.kind

/-- The named children without those that stand where one of the given nodes stands. -/
def namedExcept (n : Node) (skipped : List (Option Node)) : List Node :=
  n.named.filter fun c => !skipped.any fun s => s.any (sameSite c)

theorem mem_children_of_mem_namedExcept {n c : Node} {skipped : List (Option Node)}
    (h : c ∈ n.namedExcept skipped) : c ∈ n.children :=
  mem_children_of_mem_named (List.mem_filter.1 h).1

mutual

def height : Node → Nat
  | mk _ _ _ _ children => tallest children + 1

def tallest : List Node → Nat
  | [] => 0
  | c :: rest => max (height c) (tallest rest)

end

theorem height_le_tallest {c : Node} {cs : List Node} (h : c ∈ cs) : c.height ≤ tallest cs := by
  induction cs with
  | nil => simp at h
  | cons d rest ih =>
      rw [tallest]
      rcases List.mem_cons.1 h with rfl | h
      · exact Nat.le_max_left _ _
      · exact Nat.le_trans (ih h) (Nat.le_max_right _ _)

theorem height_lt_of_mem_children {n c : Node} (h : c ∈ n.children) : c.height < n.height := by
  cases n with
  | mk kind span flags fields children =>
      rw [height]
      exact Nat.lt_succ_of_le (height_le_tallest h)

mutual

/-- The node and all below it, parents before children, in the order of the source. -/
def preorder : Node → List Node
  | mk kind span flags fields children =>
    mk kind span flags fields children :: preorderAll children

def preorderAll : List Node → List Node
  | [] => []
  | c :: rest => preorder c ++ preorderAll rest

end

end Node
end Fallow.Syntax
