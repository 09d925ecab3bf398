import Fallow.Disk.Basic
import Fallow.Location
import Fallow.Wildcard

/-!
# Globs

Patterns over the names of a path. A double star stands for directories at any depth, other
wildcards for one name each; only files are found.
-/

namespace Fallow.Disk

inductive GlobError where
  | emptyPattern
  | absolutePattern
  /-- A double star has to be a whole name. -/
  | badDoubleStar
  /-- Nothing but dots. -/
  | noNames
  | noNamesButSlash
  deriving DecidableEq, Repr

inductive Step where
  | anyDepth
  | wildcard (pattern : String)
  | exact (name : String)
  /-- The end of a pattern that ends in a slash. -/
  | here
  deriving DecidableEq, Repr

def hasDoubleStar : List Char → Bool
  | '*' :: '*' :: _ => true
  | _ :: rest => hasDoubleStar rest
  | [] => false

def isWild (name : String) : Bool :=
  name.toList.any fun c => c == '*' || c == '?' || c == '['

def stepOf (name : String) : Except GlobError Step :=
  if name = "**" then .ok .anyDepth
  else if hasDoubleStar name.toList then .error .badDoubleStar
  else if isWild name then .ok (.wildcard name)
  else .ok (.exact name)

def stepsOf (pattern : String) : Except GlobError (List Step) := do
  let p := Path.ofText pattern
  let slash := pattern.toList.getLast? = some '/'
  if pattern = "" then .error .emptyPattern
  else if p.isAbsolute then .error .absolutePattern
  else if p.names.isEmpty then .error (if slash then .noNamesButSlash else .noNames)
  else
    let steps ← p.names.mapM stepOf
    return if slash then steps ++ [.here] else steps

/-- The names at which steps can end, from a directory. A step that is not the last leads to
directories only. -/
def select (d : Disk) : List Step → Path → List Path
  | [], place => [place]
  | .here :: _, place => [place]
  | .exact name :: rest, place =>
    let next := place.child name
    if (if rest.isEmpty then d.exists? next else d.isDir next) then d.select rest next else []
  | .wildcard pattern :: rest, place =>
    match d.lookup place with
    | .ok (.dir entries) =>
      (entries.filter fun (name, e) => (rest.isEmpty || e.isDir) && Wildcard.fits pattern name).flatMap
        fun (name, _) => d.select rest (place.child name)
    | _ => []
  | .anyDepth :: rest, place =>
    match d.lookup place with
    | .ok e =>
      ((dirsBelow e).flatMap fun names =>
        d.select rest { place with names := place.names ++ names }).eraseDups
    | _ => []

/-- The files below a directory that a pattern finds, by their paths from there. -/
def glob (d : Disk) (root : Path) (pattern : String) : Except GlobError (List String) := do
  let steps ← stepsOf pattern
  let found := if d.isDir root then d.select steps root else []
  return sortedBy textOrder ((found.filter d.isFile).map fun p =>
    "/".intercalate (p.names.drop root.names.length))

end Fallow.Disk
