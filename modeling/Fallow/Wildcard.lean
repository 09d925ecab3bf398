/-!
# Wildcards

File name patterns. A pattern is a sequence of tokens, each of which takes one character of a path
or, for a star, any number of them; slashes are characters like any other. The whole path has to
be taken.
-/

namespace Fallow

namespace Wildcard

inductive Token where
  | star
  | any
  /-- One character inside the closed ranges, or outside all of them. -/
  | set (negated : Bool) (ranges : List (Char × Char))
  | literal (c : Char)
  deriving DecidableEq, Repr

/-- The text of a set up to its closing bracket, which in front belongs to the set; `none` if the
set is never closed. -/
def closed? (s : List Char) : Option (List Char) :=
  let negation := if s.head? = some '!' then ['!'] else []
  let s := s.drop negation.length
  let bracket := if s.head? = some ']' then [']'] else []
  let s := s.drop bracket.length
  if s.contains ']' then some (negation ++ bracket ++ s.takeWhile (· != ']')) else none

/-- Cuts at hyphens that stand between two characters; the next `skip` characters are no place for
one. What has been read of a piece is given last character first. -/
def cut : Nat → List Char → List Char → List (List Char)
  | _, piece, [] => [piece.reverse]
  | skip + 1, piece, c :: rest => cut skip (c :: piece) rest
  | 0, piece, c :: rest =>
    if c = '-' then piece.reverse :: cut 2 [] rest else cut 0 (c :: piece) rest

/-- A hyphen at the end is a character of the set. -/
def closeCut : List (List Char) → List (List Char)
  | [] => []
  | [piece, []] => [piece ++ ['-']]
  | piece :: rest => piece :: closeCut rest

/-- Takes out a range whose ends are in the wrong order, with both its ends. -/
def joinPieces (piece : List Char) : List (List Char) → List (List Char)
  | [] => [piece]
  | next :: rest =>
    match piece.getLast?, next.head? with
    | some last, some first =>
      if first < last then (piece.dropLast ++ next.drop 1) :: rest else piece :: next :: rest
    | _, _ => piece :: next :: rest

def pieces (s : List Char) : List (List Char) :=
  if s.contains '-' then
    (closeCut (cut (if s.head? = some '!' then 2 else 1) [] s)).foldr joinPieces []
  else [s]

/-- A character of a set, or the hyphen of a range. -/
inductive Sign where
  | char (c : Char)
  | hyphen

def Sign.toChar : Sign → Char
  | .char c => c
  | .hyphen => '-'

def signs : List (List Char) → List Sign
  | [] => []
  | [piece] => piece.map .char
  | piece :: rest => piece.map .char ++ .hyphen :: signs rest

def ranges : List Sign → List (Char × Char)
  | [] => []
  | a :: .hyphen :: b :: rest => (a.toChar, b.toChar) :: ranges rest
  | a :: rest => (a.toChar, a.toChar) :: ranges rest

def setToken (s : List Char) : Token :=
  match signs (pieces s) with
  | .char '!' :: rest => .set true (ranges rest)
  | all => .set false (ranges all)

/-- The tokens after the next `skip` characters, which belong to what was read before. A bracket
that is never closed is a character. -/
def tokensAfter : Nat → List Char → List Token
  | _, [] => []
  | skip + 1, _ :: rest => tokensAfter skip rest
  | 0, c :: rest =>
    if c = '*' then .star :: tokensAfter 0 rest
    else if c = '?' then .any :: tokensAfter 0 rest
    else if c = '[' then
      match closed? rest with
      | some inner => setToken inner :: tokensAfter (inner.length + 1) rest
      | none => .literal c :: tokensAfter 0 rest
    else .literal c :: tokensAfter 0 rest

def tokens (pattern : String) : List Token :=
  tokensAfter 0 pattern.toList

def Token.takes (c : Char) : Token → Bool
  | .star => true
  | .any => true
  | .set negated ranges => (ranges.any fun (first, last) => first ≤ c && c ≤ last) != negated
  | .literal d => c = d

/-- All the ends of a text, the text itself and the empty one included. -/
def suffixes : List Char → List (List Char)
  | [] => [[]]
  | c :: rest => (c :: rest) :: suffixes rest

@[simp] theorem head?_suffixes (s : List Char) : (suffixes s).head? = some s := by
  cases s <;> rfl

/-- Whether tokens take a whole text. -/
def takes : List Token → List Char → Bool
  | [], s => s.isEmpty
  | .star :: ts, s => (suffixes s).any (takes ts)
  | _ :: _, [] => false
  | t :: ts, c :: s => t.takes c && takes ts s

/-- For every end of a text, whether no tokens take it. -/
def startRow : List Char → List Bool
  | [] => [true]
  | _ :: rest => false :: startRow rest

/-- For every end of a text, whether what a row says holds of it or of an end of it. -/
def starRow : List Bool → List Bool
  | [] => []
  | b :: rest =>
    let done := starRow rest
    (b || done.headD false) :: done

/-- For every end of a text, whether a token takes its first character and what a row says holds of
the rest. -/
def stepRow (t : Token) : List Char → List Bool → List Bool
  | [], _ => [false]
  | c :: s, row => (t.takes c && row.tail.headD false) :: stepRow t s row.tail

/-- For every end of a text, whether tokens take it. The row of a list of tokens comes from the row
of its tail, so that no end is looked at twice for the same tokens. -/
def rowOf (s : List Char) : List Token → List Bool
  | [] => startRow s
  | .star :: ts => starRow (rowOf s ts)
  | t :: ts => stepRow t s (rowOf s ts)

theorem startRow_eq (s : List Char) : startRow s = (suffixes s).map (takes []) := by
  induction s with
  | nil => rfl
  | cons c s ih => rw [startRow, ih]; rfl

theorem starRow_eq (p : List Char → Bool) (s : List Char) :
    starRow ((suffixes s).map p) = (suffixes s).map fun r => (suffixes r).any p := by
  induction s with
  | nil => simp [suffixes, starRow]
  | cons c s ih =>
    rw [suffixes, List.map_cons, starRow, ih, List.map_cons]
    cases s <;> simp [suffixes]

theorem stepRow_eq (t : Token) (p : List Char → Bool) (s : List Char) :
    stepRow t s ((suffixes s).map p) =
      (suffixes s).map fun
        | [] => false
        | c :: r => t.takes c && p r := by
  induction s with
  | nil => rfl
  | cons c s ih =>
    rw [suffixes, List.map_cons, stepRow, List.tail_cons, ih, List.map_cons]
    cases s <;> rfl

/-- The row of tokens says of every end whether they take it. -/
theorem rowOf_eq (s : List Char) (ts : List Token) : rowOf s ts = (suffixes s).map (takes ts) := by
  induction ts with
  | nil => exact startRow_eq s
  | cons t ts ih =>
    have step (h : t ≠ .star) : stepRow t s (rowOf s ts) = (suffixes s).map (takes (t :: ts)) := by
      rw [ih, stepRow_eq]
      congr 1
      funext r
      cases t <;> cases r <;> simp_all [takes]
    cases t with
    | star =>
      rw [rowOf, ih, starRow_eq]
      congr 1
    | any => exact step (by simp)
    | set negated ranges => exact step (by simp)
    | literal c => exact step (by simp)

/-- Whether tokens take a whole text, worked out row by row. -/
def covers (ts : List Token) (s : List Char) : Bool :=
  (rowOf s ts).headD false

theorem covers_eq_takes (ts : List Token) (s : List Char) : covers ts s = takes ts s := by
  rw [covers, rowOf_eq]
  cases s <;> rfl

def fits (pattern path : String) : Bool :=
  covers (tokens pattern) path.toList

def fitsAny (patterns : List String) (path : String) : Bool :=
  patterns.any (fits · path)

end Wildcard
end Fallow
