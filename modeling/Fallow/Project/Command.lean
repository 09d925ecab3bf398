import Fallow.Project.Basic

/-!
# Commands

A project runs commands of the shell. What a command answers and which files it writes is up to
the outside world: a session holds the disk and the replies to come, and remembers the commands
that were run.
-/

namespace Fallow

abbrev Environment := List (String × String)

structure Command where
  /-- Where the command is run. -/
  directory : Path
  text : String
  environment : Option Environment := none
  deriving DecidableEq, Repr

/-- The answer to a command, with the files that it writes. -/
structure Reply where
  out : String := ""
  err : String := ""
  exitCode : Int := 0
  writes : List (String × List UInt8) := []
  deriving DecidableEq, Repr

def Reply.succeeded (r : Reply) : Bool :=
  r.exitCode = 0

structure Session where
  disk : Disk
  /-- The directory below which replies write. -/
  home : Path
  replies : List Reply := []
  /-- The commands run so far, the latest first. -/
  ran : List Command := []

namespace Session

/-- Carries out what a reply writes; what cannot be written is not. -/
def writeAll (home : Path) (disk : Disk) (writes : List (String × List UInt8)) : Disk :=
  writes.foldl (fun disk (relPath, bytes) =>
    ((⟨home⟩ : Project).writeBytes disk relPath bytes).1) disk

/-- Runs a command. When no reply is left a command succeeds silently. -/
def exec (c : Command) (s : Session) : Reply × Session :=
  let reply := s.replies.headD {}
  (reply, { s with
    disk := writeAll s.home s.disk reply.writes
    replies := s.replies.drop 1
    ran := c :: s.ran })

end Session
end Fallow
