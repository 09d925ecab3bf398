import Fallow.Analysis
import Fallow.CommandLine.Request
import Fallow.Plugin.Choice
import Fallow.Project.Configured
import Fallow.Project.Sorbet

/-!
# The command line

Running a request on a session. An outcome says how the run ended, what was printed and logged, and
what it left.
-/

namespace Fallow

/-- Where paths lead. A path leads to itself unless a link lies there. -/
structure Links where
  place : Path → Path
  notMem_place {p : Path} (h : ".." ∉ p.names) : ".." ∉ (place p).names

def Links.none : Links where
  place := id
  notMem_place := id

namespace Report

inductive SaveError where
  | report (e : Report.Error)
  | disk (e : Disk.Error)

/-- Writes both forms of a report into a directory. The page is made after the document is
written. -/
def save (r : Report) (links : Links) (disk : Disk) (dir : Path) : Disk × Except SaveError Unit :=
  match r.json with
  | .error e => (disk, .error (.report e))
  | .ok document =>
    match disk.writeFile (links.place (dir.child "deadcode.json")) (Utf8.encode document) with
    | .error e => (disk, .error (.disk e))
    | .ok disk =>
      match r.markdown with
      | .error e => (disk, .error (.report e))
      | .ok page =>
        match disk.writeFile (links.place (dir.child "deadcode.md")) (Utf8.encode page) with
        | .error e => (disk, .error (.disk e))
        | .ok disk => (disk, .ok ())

end Report

namespace CommandLine

def versionText : String := "deadwood 0.1.0"

inductive Refusal where
  | badPath (p : Path)
  | config (e : Config.Error)
  | plugin (e : Plugin.Error)
  | badJobs
  | noMetricsFile (p : Path)
  | noMetrics

def Refusal.message : Refusal → String
  | .badPath p => "Path does not exist or is not a directory: " ++ p.text
  | .config e => e.message
  | .plugin e => e.message
  | .badJobs => "--jobs must be a positive integer"
  | .noMetricsFile p => "Metrics file not found: " ++ p.text
  | .noMetrics => "Could not collect metrics from `srb tc`"

inductive Failure where
  | config (e : Config.Error)
  | plugin (e : Plugin.Error)
  | disk (e : Disk.Error)
  | analysis (e : Analysis.Error)
  | save (e : Report.SaveError)
  | metrics (e : Metrics.Error)

inductive Ending where
  | exit (code : Nat)
  | refused (r : Refusal)
  | failed (f : Failure)

def Ending.code : Ending → Nat
  | .exit code => code
  | .refused _ => 1
  | .failed _ => 1

structure Outcome where
  ending : Ending
  out : String := ""
  log : List Logged := []
  session : Session

/-- What surrounds a run: the grammar of Ruby, the working directory, the time, and the links at the
files of a report. -/
structure Setting where
  grammar : Grammar
  cwd : Path
  now : String
  links : Links := .none

/-- An empty option counts as absent. -/
def given? (option : Option String) : Option Path :=
  match option with
  | some "" => none
  | option => option.map Path.ofText

def loadConfig (w : Setting) (disk : Disk) (p : Project) (o : UnusedOptions) :
    Except Ending Config :=
  match Config.load disk w.cwd p (given? o.config) with
  | .ok c => .ok c
  | .error e => .error (if e.isComplaint then .refused (.config e) else .failed (.config e))

/-- The names of the plugins to use: those asked for, those configured, or those that the gems of
the project call for. -/
def pluginNames (disk : Disk) (p : Project) (o : UnusedOptions) (c : Config) :
    Except Ending (List String) :=
  if !o.plugins.isEmpty then .ok o.plugins
  else match c.plugins with
    | some names => .ok names
    | none =>
      match p.lockedGems disk with
      | .ok gems => .ok (Plugin.namesForGems gems)
      | .error e => .error (.failed (.disk e))

def loadPlugins (names : List String) (c : Config) : Except Ending (List Plugin) :=
  match Plugin.load names with
  | .error e => .error (.refused (.plugin e))
  | .ok chosen =>
    if c.ignoredNames.isEmpty then .ok chosen
    else match Plugin.ofEntries c.ignoredNames with
      | .ok p => .ok (chosen ++ [p])
      | .error e => .error (if e.isComplaint then .refused (.plugin e) else .failed (.plugin e))

def jobsOf (o : UnusedOptions) (c : Config) : Except Ending (Option Int) :=
  match o.jobs.or c.jobs with
  | some jobs => if jobs < 1 then .error (.refused .badJobs) else .ok (some jobs)
  | none => .ok none

/-- What is settled before any file is read. -/
structure Plan where
  config : Config
  plugins : List Plugin
  jobs : Option Int

def plan (w : Setting) (disk : Disk) (p : Project) (o : UnusedOptions) : Except Ending Plan := do
  let config ← loadConfig w disk p o
  let names ← pluginNames disk p o config
  let plugins ← loadPlugins names config
  let jobs ← jobsOf o config
  return ⟨config, plugins, jobs⟩

def candidateLine (d : Definition) : String :=
  "  " ++ d.kind.text ++ " " ++ d.fullName ++ " " ++ d.location.text

def skippedLine (s : Skipped) : String :=
  "  " ++ Report.skippedLine s

def counted (label : String) (lines : List String) : List String :=
  (label ++ " (" ++ Numeral.text lines.length ++ "):") :: lines

def reportLines (plan : Plan) (files : List FileInfo) (r : Report) : List String :=
  ["Analyzed " ++ Numeral.text (files.length - r.skipped.length : Int) ++ " files with plugins: "
    ++ ", ".intercalate (plan.plugins.map (·.name))]
    ++ (if r.unused.isEmpty then ["No dead code found"]
      else counted "Candidates" (r.unused.map candidateLine))
    ++ (if r.skipped.isEmpty then [] else counted "Skipped files" (r.skipped.map skippedLine))

def unlines (lines : List String) : String :=
  String.join (lines.map (· ++ "\n"))

def saveReport (w : Setting) (disk : Disk) (root : Path) (o : UnusedOptions) (r : Report) :
    Disk × Except Report.SaveError Unit :=
  if o.noReport then (disk, .ok ())
  else
    let dir := match given? o.reportDir with
      | some p => w.cwd.resolve p
      | none => root
    match disk.mkdir dir with
    | (disk, .error e) => (disk, .error (.disk e))
    | (disk, .ok ()) => r.save w.links disk dir

def findUnused (w : Setting) (s : Session) (root : Path) (o : UnusedOptions) : Outcome :=
  match plan w s.disk ⟨root⟩ o with
  | .error ending => { ending, session := s }
  | .ok plan =>
    let includes := plan.config.included ++ o.includes
    let excludes := plan.config.excluded ++ o.excludes
    let files := Collect.files s.disk root includes excludes
    let log := Analysis.log w.grammar plan.plugins s.disk files
    match Analysis.run w.grammar plan.plugins plan.jobs s.disk root w.now includes excludes with
    | .error e => { ending := .failed (.analysis e), log, session := s }
    | .ok report =>
      let (disk, saved) := saveReport w s.disk root o report
      let s := { s with disk }
      match saved with
      | .error e => { ending := .failed (.save e), log, session := s }
      | .ok () => {
          ending := .exit (if report.unused.isEmpty then 0 else 1)
          out := unlines (reportLines plan files report)
          log
          session := s }

def metricsFailure : Project.MetricsError → Failure
  | .disk e => .disk e
  | .metrics e => .metrics e

def shownOutcome (m : Metrics) (s : Session) : Outcome where
  ending := match m.shown.2 with
    | .ok () => .exit 0
    | .error e => .failed (.metrics e)
  out := m.shown.1
  session := s

def showMetrics (s : Session) (root : Path) (o : MetricsOptions) : Outcome :=
  let mark := o.mark.getD Metrics.defaultPrefix
  match o.file with
  | some file =>
    let path := root.join (Path.ofText file)
    if s.disk.isFile path then
      match Project.readMetrics s.disk path mark with
      | .ok m => shownOutcome m s
      | .error e => { ending := .failed (metricsFailure e), session := s }
    else { ending := .refused (.noMetricsFile path), session := s }
  | none =>
    match (⟨root⟩ : Project).srbMetrics [] none mark s with
    | (.ok (some m), s) => shownOutcome m s
    | (.ok none, s) => { ending := .refused .noMetrics, session := s }
    | (.error e, s) => { ending := .failed (metricsFailure e), session := s }

def Command.path : Command → String
  | .unused o => o.path
  | .metrics o => o.path

/-- Runs a command in its directory, which has to exist. -/
def runCommand (w : Setting) (s : Session) (c : Command) : Outcome :=
  let root := w.cwd.resolve (Path.ofText c.path)
  if s.disk.isDir root then
    match c with
    | .unused o => findUnused w s root o
    | .metrics o => showMetrics s root o
  else { ending := .refused (.badPath root), session := s }

/-- Only warnings are logged unless the run is verbose. -/
def Outcome.limitLog (verbose : Bool) (o : Outcome) : Outcome :=
  if verbose then o else { o with log := o.log.filter (·.level = .warning) }

def run (w : Setting) (s : Session) (args : List String) : Outcome :=
  match request args with
  | .run verbose c => (runCommand w s c).limitLog verbose
  | .version => { ending := .exit 0, out := versionText ++ "\n", session := s }
  | .help => { ending := .exit 0, session := s }
  | .misuse => { ending := .exit 2, session := s }

end CommandLine
end Fallow
