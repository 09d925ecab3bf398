import Fallow.Disk.Glob

/-!
# Collecting Ruby files

The Ruby files of a directory, except those that a pattern excludes by their own path or by the
path of a directory they are in. An excluded directory is not entered.
-/

namespace Fallow

/-- A file to analyse: where it is, and how it is called in reports. -/
structure FileInfo where
  path : Path
  relPath : String
  size : Nat
  suffix : String

namespace Collect

def rubySuffixes : List String :=
  [".rb", ".rake", ".ru", ".gemspec"]

def defaultExcludes : List String :=
  [".git/**", ".bundle/**", "vendor/**", "node_modules/**", "tmp/**", "log/**", "sorbet/rbi/**"]

def pathText (names : List String) : String :=
  "/".intercalate names

def isRuby (name : String) : Bool :=
  rubySuffixes.contains (Path.smallSuffixOf name)

/-- Whether a directory below the root is passed over with all it holds. -/
def prunes (excludes : List String) (names : List String) : Bool :=
  !names.isEmpty && Wildcard.fitsAny excludes (pathText names ++ "/")

def wants (includes excludes : List String) (names : List String) : Bool :=
  isRuby (names.getLastD "") && !Wildcard.fitsAny excludes (pathText names)
    && (includes.isEmpty || Wildcard.fitsAny includes (pathText names))

mutual

/-- The wanted files at or below an entry, by the names that lead to them and their size. -/
def below (includes excludes : List String) (names : List String) :
    Entry → List (List String × Nat)
  | .file bytes => if wants includes excludes names then [(names, bytes.length)] else []
  | .dir entries =>
    if prunes excludes names then [] else among includes excludes names entries

def among (includes excludes : List String) (names : List String) :
    List (String × Entry) → List (List String × Nat)
  | [] => []
  | (name, e) :: rest =>
    below includes excludes (names ++ [name]) e ++ among includes excludes names rest

end

def info (root : Path) (file : List String × Nat) : FileInfo where
  path := { root with names := root.names ++ file.1 }
  relPath := pathText file.1
  size := file.2
  suffix := Path.smallSuffixOf (file.1.getLastD "")

def files (disk : Disk) (root : Path) (includes excludes : List String) : List FileInfo :=
  match disk.lookup root with
  | .ok (.dir entries) =>
    sortedBy (fun a b => textOrder a.relPath b.relPath)
      ((among includes (defaultExcludes ++ excludes) [] entries).map (info root))
  | _ => []

end Collect
end Fallow
