import Fallow.CommandLine.Parameter
import Fallow.Number.Numeral

/-!
# Requests

What a command line asks for. Options of the program come first, then a command with options of
its own.
-/

namespace Fallow.CommandLine

structure UnusedOptions where
  path : String := "."
  includes : List String := []
  excludes : List String := []
  plugins : List String := []
  jobs : Option Int := none
  config : Option String := none
  reportDir : Option String := none
  noReport : Bool := false
  deriving DecidableEq, Repr

structure MetricsOptions where
  path : String := "."
  file : Option String := none
  mark : Option String := none
  deriving DecidableEq, Repr

inductive Command where
  | unused (o : UnusedOptions)
  | metrics (o : MetricsOptions)
  deriving DecidableEq, Repr

inductive Request where
  | run (verbose : Bool) (c : Command)
  | version
  | help
  | misuse
  deriving DecidableEq, Repr

def helpParameter : Parameter := ⟨["-h", "--help"], false⟩

def programParameters : Parameters :=
  [helpParameter, ⟨["--version"], false⟩, ⟨["-v", "--verbose"], false⟩]

def unusedParameters : Parameters :=
  [helpParameter, ⟨["--path"], true⟩, ⟨["--include"], true⟩, ⟨["--exclude"], true⟩,
    ⟨["--plugin"], true⟩, ⟨["--jobs"], true⟩, ⟨["--config"], true⟩, ⟨["--report-dir"], true⟩,
    ⟨["--no-report"], false⟩]

def metricsParameters : Parameters :=
  [helpParameter, ⟨["--path"], true⟩, ⟨["--file"], true⟩, ⟨["--prefix"], true⟩]

/-- Takes up one item; a value can be refused. -/
def UnusedOptions.take (o : UnusedOptions) : Item → Option UnusedOptions
  | .flag "--no-report" => some { o with noReport := true }
  | .setting "--path" v => some { o with path := v }
  | .setting "--include" v => some { o with includes := o.includes ++ [v] }
  | .setting "--exclude" v => some { o with excludes := o.excludes ++ [v] }
  | .setting "--plugin" v => some { o with plugins := o.plugins ++ [v] }
  | .setting "--jobs" v => (Numeral.read? v).map fun n => { o with jobs := some n }
  | .setting "--config" v => some { o with config := some v }
  | .setting "--report-dir" v => some { o with reportDir := some v }
  | _ => none

def MetricsOptions.take (o : MetricsOptions) : Item → Option MetricsOptions
  | .setting "--path" v => some { o with path := v }
  | .setting "--file" v => some { o with file := some v }
  | .setting "--prefix" v => some { o with mark := some v }
  | _ => none

/-- Takes up items in order. Help ends the reading; a stray item spoils it in the end. -/
def takeAll {α : Type} (take : α → Item → Option α) (finish : α → Request) :
    Bool → α → List Item → Request
  | spoiled, o, [] => if spoiled then .misuse else finish o
  | spoiled, o, item :: rest =>
    if item = .flag "--help" then .help
    else if item = .stray then takeAll take finish true o rest
    else match take o item with
      | some o => takeAll take finish spoiled o rest
      | none => .misuse

def readCommand {α : Type} (ps : Parameters) (take : α → Item → Option α) (start : α)
    (finish : α → Request) (spoiled : Bool) (args : List String) : Request :=
  if ps.hasAmbiguity args then .misuse
  else takeAll take finish spoiled start (ps.items false args).1

def command (verbose spoiled : Bool) : List String → Request
  | "deadcode" :: args =>
    readCommand unusedParameters UnusedOptions.take {} (fun o => .run verbose (.unused o))
      spoiled args
  | "metrics" :: args =>
    readCommand metricsParameters MetricsOptions.take {} (fun o => .run verbose (.metrics o))
      spoiled args
  | _ => .misuse

def takeProgram (args : List String) : Bool → Bool → List Item → Request
  | verbose, spoiled, [] => command verbose spoiled args
  | verbose, spoiled, item :: rest =>
    match item with
    | .flag "--version" => .version
    | .flag "--help" => .help
    | .flag _ => takeProgram args true spoiled rest
    | .stray => takeProgram args verbose true rest
    | _ => .misuse

def request (args : List String) : Request :=
  if programParameters.hasAmbiguity args then .misuse
  else
    let (found, left) := programParameters.items true args
    takeProgram left false false found

end Fallow.CommandLine
