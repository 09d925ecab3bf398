import Fallow.Outline.Plan

/-!
# Outlines

The outline of a node is its plan with every visit filled by the outline of the visited node. All
visited nodes lie below, so that the height of a node bounds the depth of its outline.
-/

namespace Fallow.Source

open Syntax

/-- The outline down to a number of levels. -/
def outlineTo (src : Source) : Nat → Bool → Node → List Act
  | 0, _, _ => []
  | depth + 1, inMethod, n => Act.fillAll (src.outlineTo depth) inMethod (src.plan inMethod n)

def outline (src : Source) (inMethod : Bool) (n : Node) : List Act :=
  src.outlineTo n.height inMethod n

end Fallow.Source
