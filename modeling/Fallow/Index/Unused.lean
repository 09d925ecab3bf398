import Fallow.Index.Basic

/-!
# Unused definitions

A definition is in use when a reference anywhere in the index bears its bare name. What is neither
in use nor ignored is unused.
-/

namespace Fallow

/-- The resolver cannot judge a definition without a bare name. -/
inductive Verdict.Error where
  | nameless (d : Definition)

def Verdict.Error.message : Verdict.Error → String
  | .nameless d => "definition without a name: " ++ d.description

namespace Index

def isReferenced (x : Index) (name : String) : Bool :=
  !(x.referencesFor name).isEmpty

def isUsed (x : Index) (d : Definition) : Except Verdict.Error Bool :=
  if d.name = "" then .error (.nameless d) else .ok (x.isReferenced d.name)

def unusedAmong (x : Index) : List Definition → Except Verdict.Error (List Definition)
  | [] => .ok []
  | d :: rest =>
    if d.ignored then x.unusedAmong rest
    else do
      let used ← x.isUsed d
      let others ← x.unusedAmong rest
      return if used then others else d :: others

/-- The unused definitions, by location and full name. -/
def unused (x : Index) : Except Verdict.Error (List Definition) :=
  return sortedBy Definition.comparePlace (← x.unusedAmong x.listing)

end Index
end Fallow
