import Fallow.Location

/-!
# References

A place where a bare name is used: written in the source, or supplied by a plugin.
-/

namespace Fallow

inductive Origin where
  | syntactic
  | synthetic
  deriving DecidableEq, Repr, Inhabited

namespace Origin

def text : Origin → String
  | syntactic => "syntactic"
  | synthetic => "synthetic"

def ofText? (s : String) : Option Origin :=
  [syntactic, synthetic].find? (·.text == s)

end Origin

structure Reference where
  name : String
  location : Location
  origin : Origin
  deriving DecidableEq, Repr, Inhabited

namespace Reference

def compare (a b : Reference) : Ordering :=
  (a.location.compare b.location).then <|
    (textOrder a.name b.name).then (textOrder a.origin.text b.origin.text)

end Reference
end Fallow
