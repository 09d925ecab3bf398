import Fallow.Calendar
import Fallow.Project.Command
import Fallow.Shell.Quote

/-!
# History

The git commands of a project, and the commits that a log lists.
-/

namespace Fallow

structure Commit where
  sha : String
  time : Stamp
  deriving DecidableEq, Repr

namespace Commit

inductive Error where
  | badEpoch
  | time (e : Stamp.Error)
  deriving DecidableEq, Repr

/-- The commit of a line of a log: a line of other than two words is none. -/
def ofLine (line : List Char) : Except Error (Option Commit) :=
  match Text.words line with
  | [sha, epoch] =>
    match Numeral.read? (String.ofList epoch) with
    | none => .error .badEpoch
    | some seconds =>
      match Stamp.ofEpoch seconds with
      | .ok time => .ok (some ⟨String.ofList sha, time⟩)
      | .error e => .error (.time e)
  | _ => .ok none

/-- The commits that a log lists; a failed command lists none. -/
def ofReply (r : Reply) : Except Error (List Commit) :=
  if r.succeeded then return (← (Text.lines r.out.toList).mapM ofLine).filterMap id else .ok []

end Commit

namespace Project

def git (p : Project) (command : String) (s : Session) : Reply × Session :=
  s.exec ⟨p.root, "git " ++ command, none⟩

def gitInit (p : Project) (branch : String := "main") (s : Session) : Reply × Session :=
  p.git ("init -q -b " ++ branch) s

/-- The words of a commit command, of which message and date are quoted. -/
def commitCommand (message date : String) (allowEmpty : Bool) : String :=
  "git " ++ " ".intercalate (["-c commit.gpgsign=false commit -q", "-m " ++ Shell.quote message,
    "--date " ++ Shell.quote date] ++ (if allowEmpty then ["--allow-empty"] else []))

def gitCommit (p : Project) (message : String) (time : Stamp) (allowEmpty : Bool) (s : Session) :
    Reply × Session :=
  let (_, s) := p.git "add --all" s
  s.exec ⟨p.root, commitCommand message time.text allowEmpty,
    some [("GIT_COMMITTER_DATE", time.text)]⟩

def gitLog (p : Project) (args : List String) (s : Session) : Reply × Session :=
  p.git (" ".intercalate ("log" :: args)) s

def commitFormat : String := "--format='%h %at'"

def firstCommit (r : Reply) : Except Commit.Error (Option Commit) :=
  return (← Commit.ofReply r).head?

def lastCommit (r : Reply) : Except Commit.Error (Option Commit) :=
  return (← Commit.ofReply r).getLast?

def gitLastCommit (p : Project) (s : Session) :
    Except Commit.Error (Option Commit) × Session :=
  let (r, s) := p.gitLog ["-1", commitFormat] s
  (firstCommit r, s)

def findArguments (pattern : String) : List String :=
  ["-1", "-E", Shell.quote ("--grep=" ++ pattern), commitFormat]

/-- The latest commit whose message a pattern matches. -/
def gitFindCommit (p : Project) (pattern : String) (s : Session) :
    Except Commit.Error (Option Commit) × Session :=
  let (r, s) := p.gitLog (findArguments pattern) s
  (firstCommit r, s)

end Project
end Fallow
