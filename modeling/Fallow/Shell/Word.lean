/-!
# Words of the shell

A command line is cut into words and operators. Between single quotes every character stands for
itself; between double quotes all but the dollar, the backquote and some backslashes do. A word
remembers how each of its characters was quoted.
-/

namespace Fallow.Shell

inductive Quoting where
  | bare
  | soft
  | hard
  deriving DecidableEq, Repr

structure Mark where
  char : Char
  quoting : Quoting
  deriving DecidableEq, Repr

/-- A word; one with quotes counts even if it is empty. -/
structure Word where
  marks : List Mark := []
  quoted : Bool := false
  deriving DecidableEq, Repr

inductive Redirection where
  | input
  | truncate
  | append
  | duplicate
  deriving DecidableEq, Repr

inductive Token where
  | word (w : Word)
  | redirect (channel : Nat) (kind : Redirection)
  /-- A semicolon or a line end. -/
  | separator (endsLine : Bool)
  | andIf
  | orIf
  | pipe
  /-- Background commands and groups. -/
  | other (c : Char)
  deriving DecidableEq, Repr

inductive Mode where
  | plain
  | single
  | double
  | comment
  deriving DecidableEq, Repr

namespace Word

def add (w : Option Word) (c : Char) (q : Quoting) : Option Word :=
  some ⟨(w.getD {}).marks ++ [⟨c, q⟩], (w.getD {}).quoted⟩

def quote (w : Option Word) : Option Word :=
  some { (w.getD {}) with quoted := true }

def text (w : Word) : String :=
  String.ofList (w.marks.map (·.char))

/-- A word of digits right before a redirection is the channel that is redirected. -/
def channel? (w : Word) : Option Nat :=
  if !w.quoted && !w.marks.isEmpty && w.marks.all (fun m => m.quoting = .bare && m.char.isDigit)
  then some (w.marks.foldl (fun n m => n * 10 + (m.char.toNat - 48)) 0) else none

/-- Whether a word means no more than its text. -/
def isPlain (w : Word) : Bool :=
  w.marks.all fun m =>
    m.quoting = .hard || !(m.char = '$' || m.char = '`')
      && (m.quoting = .soft || !(m.char = '*' || m.char = '?' || m.char = '['))

end Word

def close (w : Option Word) (rest : List Token) : List Token :=
  match w with
  | some w => .word w :: rest
  | none => rest

def closeBefore (w : Option Word) (channel : Nat) (kind : Redirection) (rest : List Token) :
    List Token :=
  match w.bind (·.channel?) with
  | some channel => .redirect channel kind :: rest
  | none => close w (.redirect channel kind :: rest)

/-- Reads the tokens of a text in a mode, with the word read so far; `none` if a quote is never
closed. -/
def scan : Mode → Option Word → List Char → Option (List Token)
  | .plain, w, [] => some (close w [])
  | .comment, w, [] => some (close w [])
  | .single, _, [] => none
  | .double, _, [] => none
  | .comment, w, c :: rest =>
    if c = '\n' then (scan .plain none rest).map (.separator true :: ·) else scan .comment w rest
  | .single, w, c :: rest =>
    if c = '\'' then scan .plain w rest else scan .single (Word.add w c .hard) rest
  | .double, w, '\\' :: c :: rest =>
    if c = '\n' then scan .double w rest
    else if c = '$' || c = '`' || c = '"' || c = '\\' then
      scan .double (Word.add w c .hard) rest
    else scan .double (Word.add (Word.add w '\\' .hard) c .soft) rest
  | .double, w, c :: rest =>
    if c = '"' then scan .plain w rest else scan .double (Word.add w c .soft) rest
  | .plain, w, '\\' :: c :: rest =>
    if c = '\n' then scan .plain w rest else scan .plain (Word.add w c .hard) rest
  | .plain, w, '&' :: '&' :: rest => (scan .plain none rest).map fun ts => close w (.andIf :: ts)
  | .plain, w, '|' :: '|' :: rest => (scan .plain none rest).map fun ts => close w (.orIf :: ts)
  | .plain, w, '>' :: '>' :: rest => (scan .plain none rest).map (closeBefore w 1 .append)
  | .plain, w, '>' :: '&' :: rest => (scan .plain none rest).map (closeBefore w 1 .duplicate)
  | .plain, w, c :: rest =>
    if c = '\'' then scan .single (Word.quote w) rest
    else if c = '"' then scan .double (Word.quote w) rest
    else if c = ' ' || c = '\t' then (scan .plain none rest).map (close w)
    else if c = '\n' || c = ';' then
      (scan .plain none rest).map fun ts => close w (.separator (c = '\n') :: ts)
    else if c = '>' then (scan .plain none rest).map (closeBefore w 1 .truncate)
    else if c = '<' then (scan .plain none rest).map (closeBefore w 0 .input)
    else if c = '|' then (scan .plain none rest).map fun ts => close w (.pipe :: ts)
    else if c = '&' || c = '(' || c = ')' then
      (scan .plain none rest).map fun ts => close w (.other c :: ts)
    else if c = '#' && w.isNone then scan .comment w rest
    else scan .plain (Word.add w c .bare) rest

def tokens? (command : String) : Option (List Token) :=
  scan .plain none command.toList

def Token.plainText? : Token → Option String
  | .word w => if w.isPlain then some w.text else none
  | _ => none

/-- The words of a command line that holds no operators and nothing to expand. -/
def words? (command : String) : Option (List String) := do
  (← tokens? command).mapM Token.plainText?

end Fallow.Shell
