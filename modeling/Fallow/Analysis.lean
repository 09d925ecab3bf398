import Fallow.Index.Unused
import Fallow.Project.Collect
import Fallow.Report
import Fallow.Syntax.Fault
import Fallow.Walk

/-!
# Analyses

Every file gives an index of its own or a reason to skip it; the analysis merges the indexes and
reports what is unused. The result does not depend on the order in which files are finished.
-/

namespace Fallow

/-- The grammar turns the bytes of a Ruby file into its syntax tree. -/
abbrev Grammar := List UInt8 → Syntax.Node

def Syntax.Fault.message : Syntax.Fault → String
  | .located line column =>
    "syntax error at line " ++ Numeral.text line ++ ", column " ++ Numeral.text column
  | .unlocated => "syntax error"

inductive Level where
  | debug
  | warning
  deriving DecidableEq, Repr

structure Logged where
  level : Level
  logger : String
  message : String
  deriving DecidableEq, Repr

def Logged.text (l : Logged) : String :=
  (match l.level with
    | .debug => "DEBUG "
    | .warning => "WARNING ") ++ l.logger ++ ": " ++ l.message

namespace Analysis

abbrev Outcome := Except Skipped Index

def indexTree (src : Source) (plugins : List Plugin) (root : Syntax.Node) :
    Except Syntax.Fault Index := do
  root.check
  return (Walk.run src plugins root).index

def outcome (grammar : Grammar) (plugins : List Plugin) (disk : Disk) (info : FileInfo) :
    Outcome :=
  match disk.readBytes info.path with
  | .error e => .error ⟨info.relPath, e.message (Text.quoted info.path.text)⟩
  | .ok bytes =>
    match indexTree ⟨info.relPath, bytes⟩ plugins (grammar bytes) with
    | .ok index => .ok index
    | .error fault => .error ⟨info.relPath, fault.message⟩

def logOf (info : FileInfo) : Outcome → List Logged
  | .ok index =>
    [⟨.debug, "deadwood.parser", "parsed " ++ info.relPath⟩,
      ⟨.debug, "deadwood.analyzer", "indexed " ++ info.relPath ++ " ("
        ++ Numeral.text index.size ++ " definitions)"⟩]
  | .error s =>
    [⟨.warning, "deadwood.analyzer", "Skipping " ++ s.path ++ ": " ++ s.message⟩]

def take (done : Index × List Skipped) : Outcome → Index × List Skipped
  | .ok index => (done.1.merge index, done.2)
  | .error s => (done.1, done.2 ++ [s])

/-- Puts the outcomes of files together in the order in which they come. -/
def combine (outcomes : List Outcome) : Index × List Skipped :=
  let (index, skipped) := outcomes.foldl take ({}, [])
  (index, sortedBy (fun a b => textOrder a.path b.path) skipped)

@[simp] theorem combine_nil : combine [] = ({}, []) := by
  simp [combine]

/-- Files can be shared between any positive number of workers; no number, or zero, stands for as
many as the machine has. -/
inductive Error where
  | badJobs
  | verdict (e : Verdict.Error)

def checkJobs : Option Int → Except Error Unit
  | some jobs => if jobs < 0 then .error .badJobs else .ok ()
  | none => .ok ()

def indexFiles (grammar : Grammar) (plugins : List Plugin) (jobs : Option Int) (disk : Disk)
    (files : List FileInfo) : Except Error (Index × List Skipped) := do
  checkJobs jobs
  return combine (files.map (outcome grammar plugins disk))

def log (grammar : Grammar) (plugins : List Plugin) (disk : Disk) (files : List FileInfo) :
    List Logged :=
  files.flatMap fun info => logOf info (outcome grammar plugins disk info)

def summary (plugins : List Plugin) (total : Nat) (index : Index) (skipped : List Skipped)
    (unused : List Definition) : List (String × Json) :=
  [("total_files", .int total),
    ("indexed_files", .int (total - skipped.length : Int)),
    ("failed_files", .int skipped.length),
    ("definitions", .int index.size),
    ("dead", .int unused.length),
    ("by_kind", .obj ((Report.countByKind unused).map fun (kind, n) => (kind, .int n))),
    ("plugins", .arr (plugins.map fun p => .str p.name))]

def run (grammar : Grammar) (plugins : List Plugin) (jobs : Option Int) (disk : Disk)
    (root : Path) (generatedAt : String) (includes excludes : List String) :
    Except Error Report := do
  let files := Collect.files disk root includes excludes
  let (index, skipped) ← indexFiles grammar plugins jobs disk files
  match index.unused with
  | .error e => .error (.verdict e)
  | .ok unused =>
    return {
      root := root.text
      generatedAt
      unused
      skipped
      summary := summary plugins files.length index skipped unused }

end Analysis
end Fallow
