import Fallow.Definition
import Fallow.Json.Printer

/-!
# Reports

What an analysis has found, as a document and as a page to read.
-/

namespace Fallow

structure Skipped where
  path : String
  message : String
  deriving DecidableEq, Repr

structure Report where
  root : String
  generatedAt : String
  unused : List Definition
  skipped : List Skipped
  summary : List (String × Json)

namespace Report

def locationDocument (l : Location) : Json :=
  .obj [("file", .str l.file), ("start_line", .int l.startLine),
    ("start_column", .int l.startColumn), ("end_line", .int l.endLine),
    ("end_column", .int l.endColumn)]

def definitionDocument (d : Definition) : Json :=
  .obj [("kind", .str d.kind.text), ("name", .str d.name), ("full_name", .str d.fullName),
    ("visibility", .str d.visibility.text), ("location", locationDocument d.location)]

def skippedDocument (s : Skipped) : Json :=
  .obj [("path", .str s.path), ("message", .str s.message)]

def document (r : Report) : Json :=
  .obj [("root", .str r.root), ("generated_at", .str r.generatedAt),
    ("dead", .arr (r.unused.map definitionDocument)),
    ("errors", .arr (r.skipped.map skippedDocument)), ("summary", .obj r.summary)]

inductive Error where
  /-- An integer is too long to be printed. -/
  | tooManyDigits
  /-- The page lists the counts of the summary, which must be members of an object. -/
  | countsNotAnObject

def json (r : Report) : Except Error String :=
  match r.document.render with
  | some text => .ok text
  | none => .error .tooManyDigits

/-- How many definitions there are of each kind that occurs, by the text of the kind. -/
def countByKind (ds : List Definition) : List (String × Nat) :=
  let kinds := sortedBy textOrder (ds.map (·.kind.text)).eraseDups
  kinds.map fun kind => (kind, ds.countP (·.kind.text == kind))

def counts (r : Report) : Except Error (List (String × Json)) :=
  match r.summary.lookup "by_kind" with
  | none => .ok []
  | some (.obj members) => .ok members
  | some _ => .error .countsNotAnObject

def candidateLine (d : Definition) : String :=
  "- [" ++ d.kind.text ++ "] `" ++ d.fullName ++ "` " ++ d.location.text

def skippedLine (s : Skipped) : String :=
  s.path ++ ": " ++ s.message

def pageLines (r : Report) (counts : List (String × Json)) : List String :=
  ["# Dead code", "",
    "Candidates are matched by bare name only and need a manual review.", "",
    "Root: `" ++ r.root ++ "`", "Generated: `" ++ r.generatedAt ++ "`",
    "Candidates: `" ++ Numeral.text r.unused.length ++ "`", "", "## Summary"]
    ++ counts.map (fun (kind, count) => "- " ++ kind ++ ": " ++ count.plain)
    ++ ["", "## Candidates"] ++ r.unused.map candidateLine
    ++ (if r.skipped.isEmpty then []
      else ["", "## Skipped files"] ++ r.skipped.map fun s => "- " ++ skippedLine s)
    ++ [""]

def markdown (r : Report) : Except Error String :=
  return "\n".intercalate (r.pageLines (← r.counts))

end Report
end Fallow
