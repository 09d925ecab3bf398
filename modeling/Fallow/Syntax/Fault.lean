import Fallow.Syntax.Node

/-!
# Syntax errors

The first faulty node of a tree, parents before children, going down only where a fault is
announced.
-/

namespace Fallow.Syntax

namespace Node

def isFault (n : Node) : Bool :=
  n.kind = .error || n.flags.missing

mutual

def firstFault? : Node → Option Node
  | mk kind span flags fields children =>
    if isFault (mk kind span flags fields children) then some (mk kind span flags fields children)
    else firstFaultAmong? children

def firstFaultAmong? : List Node → Option Node
  | [] => none
  | c :: rest =>
    if c.flags.faulty || c.flags.missing then (firstFault? c).or (firstFaultAmong? rest)
    else firstFaultAmong? rest

end

end Node

/-- Why a tree cannot be used: an error at a place, or at none that could be found. -/
inductive Fault where
  | located (line column : Nat)
  | unlocated
  deriving DecidableEq, Repr

/-- A tree is sound when its root announces no fault. -/
def Node.check (root : Node) : Except Fault Unit :=
  if root.flags.faulty then
    match root.firstFault? with
    | some n => .error (.located (n.span.start.row + 1) n.span.start.column)
    | none => .error .unlocated
  else .ok ()

end Fallow.Syntax
