import Fallow.Metrics
import Fallow.Project.Gems
import Fallow.Project.History

/-!
# Bundler and Sorbet

The commands of the bundler and of the type checker, the metrics of a run of the type checker, and
the commits that brought in and took out its configuration.
-/

namespace Fallow.Project

def sorbetConfig : String := "sorbet/config"

def bundle (p : Project) (command : String) (s : Session) : Reply × Session :=
  s.exec ⟨p.root, "bundle " ++ command, none⟩

def bundleInstall (p : Project) (s : Session) : Reply × Session :=
  p.bundle "install" s

def bundleExec (p : Project) (command : String) (s : Session) : Reply × Session :=
  p.bundle ("exec " ++ command) s

/-- Runs the type checker, that of the bundle unless another one is given. -/
def srb (p : Project) (args : List String) (binary : Option String) (s : Session) :
    Reply × Session :=
  match binary with
  | none => p.bundleExec (" ".intercalate ("srb" :: args)) s
  | some binary => s.exec ⟨p.root, " ".intercalate (binary :: args), none⟩

def metricsFile : String := "metrics.tmp"

inductive MetricsError where
  | disk (e : Disk.Error)
  | metrics (e : Metrics.Error)
  deriving DecidableEq, Repr

def readMetrics (disk : Disk) (path : Path) (mark : String) : Except MetricsError Metrics :=
  match disk.readText path with
  | .error e => .error (.disk e)
  | .ok contents =>
    match Metrics.parse mark contents with
    | .ok m => .ok m
    | .error e => .error (.metrics e)

/-- Runs the type checker and reads the metrics file that lies there afterwards, which is
removed. -/
def srbMetrics (p : Project) (args : List String) (binary : Option String) (mark : String)
    (s : Session) : Except MetricsError (Option Metrics) × Session :=
  let (_, s) := p.srb (["tc", "--metrics-file", metricsFile] ++ args) binary s
  let path := p.pathOf metricsFile
  if s.disk.exists? path then
    ((readMetrics s.disk path mark).map some, { s with disk := (s.disk.remove path).1 })
  else (.ok none, s)

def configLog (p : Project) (filter : String) (s : Session) : Reply × Session :=
  p.gitLog ["--diff-filter=" ++ filter, commitFormat, "--", sorbetConfig] s

/-- The oldest commit that added the configuration; a log lists the newest first. -/
def sorbetIntroCommit (p : Project) (s : Session) :
    Except Commit.Error (Option Commit) × Session :=
  let (r, s) := p.configLog "A" s
  (lastCommit r, s)

def sorbetRemovalCommit (p : Project) (s : Session) :
    Except Commit.Error (Option Commit) × Session :=
  let (r, s) := p.configLog "D" s
  (firstCommit r, s)

end Fallow.Project
