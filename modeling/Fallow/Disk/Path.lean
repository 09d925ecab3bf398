import Fallow.Text.Character

/-!
# Paths

A path has an anchor, which is empty for relative paths, and names. Empty names and single dots
are dropped when a path is read; double dots are kept.
-/

namespace Fallow

structure Path where
  anchor : String := ""
  names : List String := []
  deriving DecidableEq, Repr, Inhabited

namespace Path

def slashPieces : List Char → List (List Char)
  | [] => [[]]
  | c :: rest =>
    if c = '/' then [] :: slashPieces rest
    else match slashPieces rest with
      | [] => [[c]]
      | piece :: pieces => (c :: piece) :: pieces

def namesOf (s : List Char) : List String :=
  ((slashPieces s).filter fun piece => piece != [] && piece != ['.']).map String.ofList

/-- Reads a path. One slash in front, or more than two, make it absolute; exactly two are kept. -/
def ofText (text : String) : Path :=
  let s := text.toList
  let slashes := (s.takeWhile (· == '/')).length
  let anchor := if slashes = 0 then "" else if slashes = 2 then "//" else "/"
  ⟨anchor, namesOf s⟩

def isAbsolute (p : Path) : Bool :=
  p.anchor != ""

def text (p : Path) : String :=
  if p.anchor = "" && p.names.isEmpty then "." else p.anchor ++ "/".intercalate p.names

def join (p q : Path) : Path :=
  if q.isAbsolute then q else { p with names := p.names ++ q.names }

def child (p : Path) (name : String) : Path :=
  { p with names := p.names ++ [name] }

def parent (p : Path) : Path :=
  { p with names := p.names.dropLast }

/-- The last name, empty if there is none. -/
def name (p : Path) : String :=
  p.names.getLastD ""

/-- The end of a name from its last dot on, unless the dot is the first or the last character. -/
def suffixOf (name : String) : String :=
  let s := name.toList
  let tail := (s.reverse.takeWhile (· != '.')).reverse
  let stem := s.take (s.length - tail.length - 1)
  if s.contains '.' && tail != [] && stem != [] then String.ofList ('.' :: tail) else ""

def smallSuffixOf (name : String) : String :=
  String.ofList ((suffixOf name).toList.map Text.toSmall)

/-- Double dots taken away together with the name before them. -/
def collapse (names : List String) : List String :=
  (names.foldl (fun done name => if name = ".." then done.drop 1 else name :: done) []).reverse

def resolve (cwd p : Path) : Path :=
  ⟨"/", collapse (cwd.join p).names⟩

end Path
end Fallow
