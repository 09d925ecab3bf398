import Fallow.Pattern.Reader
import Fallow.Plugin.Descriptor

/-!
# Searching with patterns

A cursor stands between two characters of a text. `Pattern.ends` lists where a pattern can end
when it starts at a cursor; a pattern is found in a text when it can end somewhere from some start.
-/

namespace Fallow.Pattern

/-- What has been passed, last character first, what is to come, and what groups have taken. -/
structure Cursor where
  passed : List Char
  rest : List Char
  groups : List (Nat × List Char) := []
  deriving DecidableEq

namespace Cursor

def wordBefore (ascii : Bool) (c : Cursor) : Bool :=
  c.passed.head?.any fun x => (Item.word false).has ascii x.toNat

def wordAfter (ascii : Bool) (c : Cursor) : Bool :=
  c.rest.head?.any fun x => (Item.word false).has ascii x.toNat

/-- Whether an anchor holds here. An empty text has neither boundaries nor places between them. -/
def atAnchor (c : Cursor) : Anchor → Bool
  | .textStart => c.passed.isEmpty
  | .textEnd => c.rest.isEmpty
  | .lineStart => c.passed.isEmpty || c.passed.head? = some '\n'
  | .lineEnd => c.rest.isEmpty || c.rest.head? = some '\n'
  | .beforeLastBreak => c.rest.isEmpty || c.rest = ['\n']
  | .boundary negated ascii =>
    !(c.passed.isEmpty && c.rest.isEmpty)
      && (c.wordBefore ascii != c.wordAfter ascii) != negated

def since (start c : Cursor) : List Char :=
  start.rest.take (start.rest.length - c.rest.length)

def back (width : Nat) (c : Cursor) : Option Cursor :=
  if width ≤ c.passed.length then
    some { c with passed := c.passed.drop width, rest := (c.passed.take width).reverse ++ c.rest }
  else none

/-- Passes a text that is written out, perhaps without telling cases apart. -/
def pass (folded : Bool) : List Char → Cursor → List Cursor
  | [], c => [c]
  | x :: xs, c =>
    match c.rest with
    | y :: ys =>
      if x = y || (folded && Text.caseKey x.toNat = Text.caseKey y.toNat) then
        pass folded xs { c with passed := y :: c.passed, rest := ys }
      else []
    | [] => []

end Cursor

def exactly (step : Cursor → List Cursor) : Nat → List Cursor → List Cursor
  | 0, cs => cs
  | count + 1, cs => exactly step count (cs.flatMap step).eraseDups

/-- Adds the places that repetition reaches from a cursor to those already reached, each with the
number of steps that could follow (`none` if there is no limit). They are in the order of
preference: places after more steps first if `eager`, those after fewer steps first otherwise. A
step that stands still is the last one, and a place reached before leads nowhere new. -/
def reach (eager : Bool) (step : Cursor → List Cursor) :
    Nat → Option Nat → List (Option Nat × Cursor) → Cursor → List (Option Nat × Cursor)
  | 0, more, done, c => if done.contains (more, c) then done else done ++ [(more, c)]
  | fuel + 1, more, done, c =>
    let onward (done : List (Option Nat × Cursor)) :=
      if more = some 0 then done
      else (step c).foldl (fun done d =>
        if d.rest.length < c.rest.length then reach eager step fuel (more.map (· - 1)) done d
        else if done.contains (some 0, d) then done
        else done ++ [(some 0, d)]) done
    if done.contains (more, c) then done
    else if eager then onward done ++ [(more, c)]
    else onward (done ++ [(more, c)])

/-- The places after at least `least` and at most `most` steps, in the order of preference. -/
def repetitions (eager : Bool) (step : Cursor → List Cursor) (least : Nat) (most : Option Nat)
    (c : Cursor) : List Cursor :=
  ((exactly step least [c]).foldl
    (reach eager step (c.rest.length + 1) (most.map (· - least))) []).map (·.2) |>.eraseDups

/-- Where a pattern can end that starts at a cursor, in the order of preference. -/
def ends : Pattern → Cursor → List Cursor
  | .nothing, c => [c]
  | .chars set, c =>
    match c.rest with
    | x :: rest => if set.has x then [{ c with passed := x :: c.passed, rest }] else []
    | [] => []
  | .anchor a, c => if c.atAnchor a then [c] else []
  | .seq a b, c => ((ends a c).flatMap (ends b)).eraseDups
  | .alt a b, c => (ends a c ++ ends b c).eraseDups
  | .repeated greed least most a, c =>
    match greed with
    | .greedy => repetitions true (ends a) least most c
    | .lazy => repetitions false (ends a) least most c
    | .possessive => (repetitions true (ends a) least most c).take 1
  | .group number a, c =>
    (ends a c).map fun d =>
      { d with groups := (number, c.since d) :: d.groups.filter (·.1 != number) }
  | .back number folded, c =>
    match c.groups.lookup number with
    | some taken => c.pass folded taken
    | none => []
  | .choice number a b, c => if (c.groups.lookup number).isSome then ends a c else ends b c
  | .ahead negated a, c =>
    if negated then (if (ends a c).isEmpty then [c] else [])
    else (ends a c).take 1 |>.map fun d => { c with groups := d.groups }
  | .behind negated width a, c =>
    let found : List Cursor := match c.back width with
      | some start => (ends a start).filter fun d => d.rest.length = c.rest.length
      | none => []
    if negated then (if found.isEmpty then [c] else [])
    else found.take 1 |>.map fun d => { c with groups := d.groups }
  | .atomic a, c => (ends a c).take 1

def starts (passed : List Char) : List Char → List Cursor
  | [] => [⟨passed, [], []⟩]
  | x :: rest => ⟨passed, x :: rest, []⟩ :: starts (x :: passed) rest

def foundIn (p : Pattern) (s : String) : Bool :=
  (starts [] s.toList).any fun c => !(p.ends c).isEmpty

structure Match where
  start : Cursor
  stop : Cursor

namespace Match

def text (m : Match) : List Char :=
  m.start.since m.stop

def group? (m : Match) (number : Nat) : Option (List Char) :=
  m.stop.groups.lookup number

end Match

def match? (p : Pattern) (c : Cursor) : Option Match :=
  (p.ends c).head?.map (⟨c, ·⟩)

def search? (p : Pattern) (s : List Char) : Option Match :=
  (starts [] s).findSome? p.match?

/-- The matches at a cursor that are listed before the search goes on: the preferred one, and
after a match without characters the first one with some. -/
def matchesAt (p : Pattern) (c : Cursor) : List Match :=
  let found := p.ends c
  let bare := found.head?.filter (·.rest.length = c.rest.length)
  let full := found.find? (·.rest.length < c.rest.length)
  (bare.toList ++ full.toList).map (⟨c, ·⟩)

/-- The matches from left to right that do not overlap, after the given number of places. -/
def matchesAfter (p : Pattern) : Nat → List Cursor → List Match
  | _, [] => []
  | skipped + 1, _ :: cs => matchesAfter p skipped cs
  | 0, c :: cs =>
    let here := p.matchesAt c
    here ++ matchesAfter p ((here.getLast?.map (·.text.length)).getD 0 - 1) cs

def findAll (p : Pattern) (s : List Char) : List Match :=
  p.matchesAfter 0 (starts [] s)

def Error.failure : Error → Finder.Failure
  | .hugeRepeat => .broke .overflow
  | .longBound => .broke .tooManyDigits
  | .clashingFlags => .broke .clash
  | e => .refused e.message

/-- Compiles the text of a pattern. What groups take is remembered only if it matters. -/
def finder (text : String) : Except Finder.Failure Finder :=
  match read text with
  | .ok p => .ok ⟨text, (if p.looksBack then p else p.forgetful).foundIn⟩
  | .error e => .error e.failure

end Fallow.Pattern
