import Fallow.CommandLine.Basic
import Fallow.Snapshot

/-!
# The program

A snapshot of the project is read from standard input; `root` and `now` say where the project lies
and what time it is. The files that a run leaves new or changed are written to the disk.
-/

namespace Fallow

/-- The snapshot that a document writes, with the place of the project and the time. -/
def readSnapshot? (text : String) : Option (Snapshot × Path × String) := do
  let document ← (Json.parse text).toOption
  let root := Path.ofText (← (document.get? "root").bind Snapshot.text?)
  let now := ((document.get? "now").bind Snapshot.text?).getD ""
  let disk ← Snapshot.emptyDisk? root
  return (← Snapshot.ofJson? disk root document, root, now)

def messageOf : CommandLine.Ending → String
  | .exit _ => ""
  | .refused r => r.message ++ "\n"
  | .failed _ => "unexpected failure\n"

def writeChange (root : Path) (names : List String) (bytes : List UInt8) : IO Unit := do
  let path : Path := { root with names := root.names ++ names }
  IO.FS.createDirAll path.parent.text
  IO.FS.writeBinFile path.text ⟨bytes.toArray⟩

end Fallow

open Fallow in
def main (args : List String) : IO UInt32 := do
  let input ← (← IO.getStdin).readToEnd
  match readSnapshot? input with
  | none =>
    IO.eprintln "no snapshot on standard input"
    return 2
  | some (snapshot, root, now) =>
    let session : Session := { disk := snapshot.disk, home := root, replies := snapshot.replies }
    let outcome := CommandLine.run { grammar := snapshot.grammar, cwd := root, now } session args
    for (names, bytes) in Snapshot.changes root snapshot.disk outcome.session.disk do
      writeChange root names bytes
    IO.print outcome.out
    for line in outcome.log do
      IO.eprintln line.text
    IO.eprint (messageOf outcome.ending)
    return UInt32.ofNat outcome.ending.code
