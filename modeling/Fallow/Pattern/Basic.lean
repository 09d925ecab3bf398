import Fallow.Text.Character

/-!
# Patterns

Regular expressions over characters, with look-around, groups that can be referred to, and
repetition that gives back what it took or not.
-/

namespace Fallow

namespace Pattern

inductive Item where
  | range (first last : Nat)
  | digit (negated : Bool)
  | space (negated : Bool)
  | word (negated : Bool)
  deriving DecidableEq, Repr

/-- A set of characters; `folded` ones do not tell cases apart, `ascii` ones know the classes of
ASCII only. -/
structure Chars where
  items : List Item
  negated : Bool := false
  folded : Bool := false
  ascii : Bool := false
  deriving DecidableEq, Repr

inductive Anchor where
  | textStart
  | textEnd
  | lineStart
  | lineEnd
  | beforeLastBreak
  | boundary (negated ascii : Bool)
  deriving DecidableEq, Repr

inductive Greed where
  | greedy
  | lazy
  | possessive
  deriving DecidableEq, Repr

end Pattern

inductive Pattern where
  | nothing
  | chars (set : Pattern.Chars)
  | anchor (a : Pattern.Anchor)
  | seq (a b : Pattern)
  | alt (a b : Pattern)
  | repeated (greed : Pattern.Greed) (least : Nat) (most : Option Nat) (a : Pattern)
  | group (number : Nat) (a : Pattern)
  | back (number : Nat) (folded : Bool)
  | choice (number : Nat) (ifSet ifUnset : Pattern)
  | ahead (negated : Bool) (a : Pattern)
  | behind (negated : Bool) (width : Nat) (a : Pattern)
  | atomic (a : Pattern)
  deriving Repr

namespace Pattern

def Item.has (ascii : Bool) (n : Nat) : Item → Bool
  | .range first last => first ≤ n && n ≤ last
  | .digit negated =>
    let c := Char.ofNat n
    (if ascii then Text.isAsciiDigit c else (Text.digitValue? c).isSome) != negated
  | .space negated =>
    let c := Char.ofNat n
    (Text.isBlank c && (!ascii || (n < 0x80 && !(0x1c ≤ n && n < 0x20)))) != negated
  | .word negated =>
    let c := Char.ofNat n
    (Text.isWord c && (!ascii || n < 0x80)) != negated

def Chars.has (set : Chars) (c : Char) : Bool :=
  let variants := if set.folded then Text.caseVariants c.toNat else [c.toNat]
  (set.items.any fun item => variants.any (item.has set.ascii)) != set.negated

/-- The least and the greatest number of characters that can match; the latter may be unlimited. -/
def width : Pattern → Nat × Option Nat
  | .nothing => (0, some 0)
  | .chars _ => (1, some 1)
  | .anchor _ => (0, some 0)
  | .seq a b =>
    (a.width.1 + b.width.1, do return (← a.width.2) + (← b.width.2))
  | .alt a b =>
    (min a.width.1 b.width.1, do return max (← a.width.2) (← b.width.2))
  | .repeated _ least most a =>
    (least * a.width.1, do return (← most) * (← a.width.2))
  | .group _ a => a.width
  | .back _ _ => (0, none)
  | .choice _ a b =>
    (min a.width.1 b.width.1, do return max (← a.width.2) (← b.width.2))
  | .ahead _ _ => (0, some 0)
  | .behind _ _ _ => (0, some 0)
  | .atomic a => a.width

def looksBack : Pattern → Bool
  | .back _ _ => true
  | .choice _ _ _ => true
  | .seq a b => a.looksBack || b.looksBack
  | .alt a b => a.looksBack || b.looksBack
  | .repeated _ _ _ a => a.looksBack
  | .group _ a => a.looksBack
  | .ahead _ a => a.looksBack
  | .behind _ _ a => a.looksBack
  | .atomic a => a.looksBack
  | _ => false

/-- The same pattern without a memory of what its groups take. -/
def forgetful : Pattern → Pattern
  | .seq a b => .seq a.forgetful b.forgetful
  | .alt a b => .alt a.forgetful b.forgetful
  | .repeated greed least most a => .repeated greed least most a.forgetful
  | .group _ a => a.forgetful
  | .choice number a b => .choice number a.forgetful b.forgetful
  | .ahead negated a => .ahead negated a.forgetful
  | .behind negated width a => .behind negated width a.forgetful
  | .atomic a => .atomic a.forgetful
  | p => p

def inOrder (ps : List Pattern) : Pattern :=
  ps.foldr .seq .nothing

def written (s : String) : List Pattern :=
  s.toList.map fun c => .chars { items := [.range c.toNat c.toNat] }

/-- As many characters of a set as there are, and fewer if that is needed. -/
def run (least : Nat) (set : Chars) : Pattern :=
  .repeated .greedy least none (.chars set)

def fixedWidth? (p : Pattern) : Option Nat :=
  if p.width.2 = some p.width.1 then some p.width.1 else none

end Pattern
end Fallow
