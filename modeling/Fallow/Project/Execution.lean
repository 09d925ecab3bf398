import Fallow.Project.Command
import Fallow.Shell.Run

/-!
# Execution

Running a command line in the directory of a project with the shell of `Fallow.Shell.Run`.
-/

namespace Fallow.Project

/-- The text of output, every kind of line end read as a line feed. -/
def outputText (bytes : List UInt8) : Except Disk.Error String :=
  match Utf8.text? bytes with
  | some s => .ok (Text.readText s)
  | none => .error .notText

def replyOf (s : Shell.State) : Except Disk.Error Reply := do
  return { out := ← outputText s.out, err := ← outputText s.err, exitCode := s.code }

/-- Runs a command line. The directory of the project has to exist. -/
def execute (p : Project) (disk : Disk) (c : Command) : Except Disk.Error Reply × Disk :=
  if disk.isDir p.root then
    let s := Shell.run { disk, cwd := p.root, bindings := c.environment.getD [] } c.text
    (replyOf s, s.disk)
  else (.error .missing, disk)

end Fallow.Project
