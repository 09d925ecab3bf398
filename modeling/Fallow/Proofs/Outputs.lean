import Fallow.CommandLine.Basic
import Fallow.Proofs.Account
import Fallow.Proofs.DiskFiles
import Fallow.Proofs.Encoding
import Fallow.Proofs.ReadBack

/-!
# What a run leaves

A refused run prints nothing and leaves the session as it is. A run that ends with an exit code
prints, writes and counts the same report, and touches no file but the two of the report, which lie
where links at their paths lead.
-/

namespace Fallow

namespace Analysis

variable {grammar : Grammar} {plugins : List Plugin} {jobs : Option Int} {disk : Disk}
  {root : Path} {generatedAt : String} {includes excludes : List String} {r : Report}

end Analysis

theorem Location.text_eq (l : Location) : l.text =
    l.file ++ ":" ++ toString l.startLine ++ ":" ++ toString l.startColumn ++ "-" ++
      toString l.endLine ++ ":" ++ toString l.endColumn := by
  simp only [text, Numeral.text_eq_toString]

namespace Json

end Json

namespace Report

variable {r : Report}

end Report

namespace CommandLine

/-- Where the report of a run is written. -/
def reportDir (w : Setting) (root : Path) (o : UnusedOptions) : Path :=
  match given? o.reportDir with
  | some p => w.cwd.resolve p
  | none => root

@[simp] theorem out_limitLog (outcome : Outcome) (verbose : Bool) :
    (outcome.limitLog verbose).out = outcome.out := by
  cases verbose <;> rfl

@[simp] theorem session_limitLog (outcome : Outcome) (verbose : Bool) :
    (outcome.limitLog verbose).session = outcome.session := by
  cases verbose <;> rfl

/-- The directory that a run searches. -/
def rootOf (w : Setting) (o : UnusedOptions) : Path :=
  w.cwd.resolve (Path.ofText o.path)

/-- The analysis of a run whose plan is settled. -/
def analysis (w : Setting) (s : Session) (o : UnusedOptions) (plan : Plan) :
    Except Analysis.Error Report :=
  Analysis.run w.grammar plan.plugins plan.jobs s.disk (rootOf w o) w.now
    (plan.config.included ++ o.includes) (plan.config.excluded ++ o.excludes)

end CommandLine
end Fallow
