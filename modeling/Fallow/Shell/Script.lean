import Fallow.Shell.Word

/-!
# Scripts of the shell

Pipelines of simple commands, each run always, or only after success or failure of the one before.
-/

namespace Fallow.Shell

structure Redirect where
  channel : Nat
  kind : Redirection
  target : Word
  deriving DecidableEq, Repr

structure Simple where
  words : List Word := []
  redirects : List Redirect := []
  deriving DecidableEq, Repr

def Simple.isEmpty (c : Simple) : Bool :=
  c.words.isEmpty && c.redirects.isEmpty

inductive Condition where
  | always
  | afterSuccess
  | afterFailure
  deriving DecidableEq, Repr

structure Clause where
  line : Nat
  condition : Condition
  pipeline : List Simple
  deriving DecidableEq, Repr

/-- A clause in the making: the commands of its pipeline so far, the last first, and the command
being read. -/
structure Draft where
  line : Nat := 1
  condition : Condition := .always
  pipeline : List Simple := []
  command : Simple := {}
  deriving DecidableEq, Repr

namespace Draft

/-- Whether nothing has been read of a clause that need not be there. -/
def isBlank (d : Draft) : Bool :=
  d.condition = .always && d.pipeline.isEmpty && d.command.isEmpty

def clause (d : Draft) : Clause :=
  ⟨d.line, d.condition, (d.command :: d.pipeline).reverse⟩

def addWord (d : Draft) (w : Word) : Draft :=
  { d with command := { d.command with words := d.command.words ++ [w] } }

def addRedirect (d : Draft) (r : Redirect) : Draft :=
  { d with command := { d.command with redirects := d.command.redirects ++ [r] } }

def addPipe (d : Draft) : Draft :=
  { d with pipeline := d.command :: d.pipeline, command := {} }

end Draft

def clauses? (d : Draft) : List Token → Option (List Clause)
  | [] => if d.isBlank then some [] else if d.command.isEmpty then none else some [d.clause]
  | .word w :: rest => clauses? (d.addWord w) rest
  | .redirect channel kind :: .word w :: rest =>
    clauses? (d.addRedirect ⟨channel, kind, w⟩) rest
  | .separator endsLine :: rest =>
    let next : Draft := { line := if endsLine then d.line + 1 else d.line }
    if d.isBlank then clauses? next rest
    else if d.command.isEmpty then none
    else return d.clause :: (← clauses? next rest)
  | .andIf :: rest =>
    if d.command.isEmpty then none
    else return d.clause :: (← clauses? { line := d.line, condition := .afterSuccess } rest)
  | .orIf :: rest =>
    if d.command.isEmpty then none
    else return d.clause :: (← clauses? { line := d.line, condition := .afterFailure } rest)
  | .pipe :: rest => if d.command.isEmpty then none else clauses? d.addPipe rest
  | _ => none

/-- The script of a command line; `none` if it is none, or holds groups or background commands. -/
def script? (command : String) : Option (List Clause) := do
  clauses? {} (← tokens? command)

end Fallow.Shell
