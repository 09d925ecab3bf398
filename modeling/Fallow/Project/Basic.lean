import Fallow.Disk.Glob

/-!
# Projects

A project is a directory of a disk. Paths of its files are relative to it; they may lead out of
it.
-/

namespace Fallow

structure Project where
  root : Path
  deriving DecidableEq, Repr

namespace Project

def pathOf (p : Project) (relPath : String) : Path :=
  p.root.join (Path.ofText relPath)

/-- Writes to a file, after its old content if `append`. The directories above it are created
first. -/
def writeBytes (p : Project) (disk : Disk) (relPath : String) (bytes : List UInt8)
    (append : Bool := false) : Disk.Change :=
  let path := p.pathOf relPath
  (disk.mkdir path.parent).andThen fun disk => disk.attempt (disk.writeFile path bytes append)

def write (p : Project) (disk : Disk) (relPath contents : String) (append : Bool := false) :
    Disk.Change :=
  p.writeBytes disk relPath (Utf8.encode contents) append

def read (p : Project) (disk : Disk) (relPath : String) : Except Disk.Error String :=
  disk.readText (p.pathOf relPath)

def read? (p : Project) (disk : Disk) (relPath : String) :
    Except Disk.Error (Option String) :=
  if disk.exists? (p.pathOf relPath) then return some (← p.read disk relPath) else .ok none

def move (p : Project) (disk : Disk) (source target : String) : Disk.Change :=
  (disk.mkdir (p.pathOf target).parent).andThen fun disk =>
    disk.attempt (disk.move (p.pathOf source) (p.pathOf target))

def glob (p : Project) (disk : Disk) (pattern : String := "**/*") :
    Except Disk.GlobError (List String) :=
  disk.glob p.root pattern

end Project
end Fallow
