import Fallow.Disk.Basic
import Fallow.Number.Numeral
import Fallow.Shell.Script

/-!
# Running scripts

The few commands that a script can name here: `echo`, `printf`, `cat`, `pwd`, `exit`, `true`,
`false` and the colon. Any other command is not found.
-/

namespace Fallow.Shell

structure State where
  disk : Disk
  cwd : Path
  bindings : List (String × String) := []
  out : List UInt8 := []
  err : List UInt8 := []
  code : Nat := 0
  ended : Bool := false
  /-- The line of the script that is being run. -/
  line : Nat := 1

/-! Expansion -/

/-- A character of an expanded word, or a blank that divides it. -/
inductive Atom where
  | keep (c : Char)
  | gap
  deriving DecidableEq, Repr

def isNameStart (c : Char) : Bool :=
  c.isAlpha || c == '_'

def isName (c : Char) : Bool :=
  c.isAlphanum || c == '_'

def value (s : State) (name : String) : String :=
  if name = "?" then Numeral.text s.code else (s.bindings.lookup name).getD ""

/-- The atoms of an expanded value: bare blanks divide the word. -/
def valueAtoms (q : Quoting) (value : String) : List Atom :=
  value.toList.map fun c =>
    if q = .bare && (c = ' ' || c = '\t' || c = '\n') then .gap else .keep c

/-- The name of a parameter after its dollar, and how many characters it takes. -/
def parameter? (q : Quoting) (marks : List Mark) : Option (String × Nat) :=
  let same := (marks.takeWhile (·.quoting = q)).map (·.char)
  match same with
  | '\x7b' :: rest =>
    let name := rest.takeWhile (· != '\x7d')
    if name.length < rest.length then some (String.ofList name, name.length + 2) else none
  | '?' :: _ => some ("?", 1)
  | c :: rest =>
    if isNameStart c then
      let name := c :: rest.takeWhile isName
      some (String.ofList name, name.length)
    else none
  | [] => none

/-- The atoms of a word after the next `skip` characters. -/
def atoms (s : State) : Nat → List Mark → List Atom
  | _, [] => []
  | skip + 1, _ :: rest => atoms s skip rest
  | 0, m :: rest =>
    if m.char = '$' && m.quoting != .hard then
      match parameter? m.quoting rest with
      | some (name, length) => valueAtoms m.quoting (value s name) ++ atoms s length rest
      | none => .keep '$' :: atoms s 0 rest
    else .keep m.char :: atoms s 0 rest

/-- Cuts atoms into fields at gaps; fields between gaps are not empty. -/
def cutAtoms : List Char → List Atom → List (List Char)
  | field, [] => if field.isEmpty then [] else [field.reverse]
  | field, .keep c :: rest => cutAtoms (c :: field) rest
  | field, .gap :: rest => if field.isEmpty then cutAtoms [] rest else field.reverse :: cutAtoms [] rest

def fields (s : State) (w : Word) : List String :=
  let cut := (cutAtoms [] (atoms s 0 w.marks)).map String.ofList
  if cut.isEmpty && w.quoted then [""] else cut

def oneField (s : State) (w : Word) : String :=
  String.ofList ((atoms s 0 w.marks).map fun
    | .keep c => c
    | .gap => ' ')

/-! Commands -/

structure Result where
  out : String := ""
  /-- Bytes after the text. -/
  bytes : List UInt8 := []
  err : String := ""
  code : Nat := 0
  ended : Bool := false

def shellName : String := "/bin/sh"

def complaint (s : State) (text : String) : String :=
  shellName ++ ": " ++ Numeral.text s.line ++ ": " ++ text ++ "\n"

def isOctal (c : Char) : Bool :=
  '0' ≤ c && c ≤ '7'

/-- Characters that a backslash stands for; after the last one `none` says that output ends. -/
def unescape : Nat → List Char → List (Option Char)
  | _, [] => []
  | skip + 1, _ :: rest => unescape skip rest
  | 0, '\\' :: c :: rest =>
    match c with
    | 'n' => some '\n' :: unescape 0 rest
    | 't' => some '\t' :: unescape 0 rest
    | 'r' => some '\r' :: unescape 0 rest
    | 'a' => some '\x07' :: unescape 0 rest
    | 'b' => some '\x08' :: unescape 0 rest
    | 'f' => some '\x0c' :: unescape 0 rest
    | 'v' => some '\x0b' :: unescape 0 rest
    | '\\' => some '\\' :: unescape 0 rest
    | 'c' => [none]
    | '0' =>
      let digits := (rest.take 3).takeWhile isOctal
      let n := digits.foldl (fun n d => n * 8 + (d.toNat - 48)) 0
      some (Char.ofNat (n % 256)) :: unescape digits.length rest
    | c => some '\\' :: some c :: unescape 0 rest
  | 0, c :: rest => some c :: unescape 0 rest

/-- The arguments with blanks between them and a line end, unless the first asks for none. -/
def echo (args : List String) : String :=
  let (args, ending) := match args with
    | "-n" :: rest => (rest, "")
    | args => (args, "\n")
  let chars := unescape 0 (" ".intercalate args).toList
  let shown := String.ofList ((chars.takeWhile (·.isSome)).filterMap id)
  if chars.contains none then shown else shown ++ ending

/-- One pass of a format over arguments, and the arguments left over. -/
def formatOnce : List Char → List String → List Char × List String
  | '%' :: '%' :: rest, args =>
    let (shown, left) := formatOnce rest args
    ('%' :: shown, left)
  | '%' :: c :: rest, args =>
    if c = 's' then
      let (shown, left) := formatOnce rest (args.drop 1)
      ((args.headD "").toList ++ shown, left)
    else if c = 'd' then
      let (shown, left) := formatOnce rest (args.drop 1)
      (Numeral.intDigits ((Numeral.read? (args.headD "")).getD 0) ++ shown, left)
    else
      let (shown, left) := formatOnce rest args
      ('%' :: c :: shown, left)
  | c :: rest, args =>
    let (shown, left) := formatOnce rest args
    (c :: shown, left)
  | [], args => ([], args)

/-- A format is used again as long as it takes arguments and there are some. -/
def formatAll : Nat → List Char → List String → List Char
  | 0, _, _ => []
  | fuel + 1, format, args =>
    let (shown, left) := formatOnce format args
    if left.isEmpty || left.length = args.length then shown
    else shown ++ formatAll fuel format left

def printf (format : String) (args : List String) : String :=
  let plain := (unescape 0 format.toList).filterMap id
  String.ofList (formatAll (args.length + 1) plain args)

/-- The contents of files one after the other, and what is said about those that have none. -/
def cat (s : State) (names : List String) : Result :=
  names.foldl (fun r name =>
    match s.disk.readBytes (s.cwd.join (Path.ofText name)) with
    | .ok bytes => { r with bytes := r.bytes ++ bytes }
    | .error e =>
      let reason := match e with
        | .isADirectory => "Is a directory"
        | .notADirectory => "Not a directory"
        | _ => "No such file or directory"
      { r with err := r.err ++ "cat: " ++ name ++ ": " ++ reason ++ "\n", code := 1 }) {}

def exit (s : State) : List String → Result
  | [] => { code := s.code, ended := true }
  | arg :: _ =>
    if arg != "" && arg.toList.all Char.isDigit then
      { code := Numeral.value 0 (arg.toList.map fun c => c.toNat - 48) % 256, ended := true }
    else { err := complaint s ("exit: Illegal number: " ++ arg), code := 2, ended := true }

def call (s : State) (input : List UInt8) : List String → Result
  | [] => {}
  | "echo" :: args => { out := echo args }
  | "printf" :: format :: args => { out := printf format args }
  | "printf" :: [] => { err := complaint s "printf: usage: printf format [arg ...]", code := 2 }
  | "cat" :: [] => { bytes := input }
  | "cat" :: names => cat s names
  | "pwd" :: _ => { out := s.cwd.text ++ "\n" }
  | "exit" :: args => exit s args
  | "true" :: _ => {}
  | ":" :: _ => {}
  | "false" :: _ => { code := 1 }
  | name :: _ => { err := complaint s (name ++ ": not found"), code := 127 }

/-! Redirections -/

inductive Sink where
  | out
  | err
  | file (p : Path)
  deriving DecidableEq, Repr

structure Wiring where
  input : List UInt8
  out : Sink := .out
  err : Sink := .err

def Wiring.sink (w : Wiring) (channel : Nat) : Sink :=
  if channel = 2 then w.err else w.out

def Wiring.set (w : Wiring) (channel : Nat) (sink : Sink) : Wiring :=
  if channel = 2 then { w with err := sink } else { w with out := sink }

def createReason : Disk.Error → String
  | .missing | .notADirectory => "Directory nonexistent"
  | .isADirectory => "Is a directory"
  | _ => "cannot be written"

def redirect (s : State) (w : Wiring) (r : Redirect) : Except String (State × Wiring) :=
  let name := oneField s r.target
  let path := s.cwd.join (Path.ofText name)
  let create (append : Bool) : Except String (State × Wiring) :=
    match s.disk.writeFile path [] append with
    | .ok disk => .ok ({ s with disk }, w.set r.channel (.file path))
    | .error e => .error ("cannot create " ++ name ++ ": " ++ createReason e)
  match r.kind with
  | .truncate => create false
  | .append => create true
  | .duplicate => .ok (s, w.set r.channel (w.sink (if name = "2" then 2 else 1)))
  | .input =>
    match s.disk.readBytes path with
    | .ok bytes => .ok (s, { w with input := bytes })
    | .error .isADirectory => .ok (s, { w with input := [] })
    | .error _ => .error ("cannot open " ++ name ++ ": No such file")

def redirectAll (s : State) (w : Wiring) : List Redirect → State × Except String Wiring
  | [] => (s, .ok w)
  | r :: rest =>
    match redirect s w r with
    | .ok (s, w) => redirectAll s w rest
    | .error e => (s, .error e)

def deliver (s : State) (bytes : List UInt8) : Sink → State
  | .out => { s with out := s.out ++ bytes }
  | .err => { s with err := s.err ++ bytes }
  | .file p =>
    match s.disk.writeFile p bytes true with
    | .ok disk => { s with disk }
    | .error _ => s

def assignment? (s : State) (w : Word) : Option (String × String) :=
  let name := (w.marks.takeWhile fun m => m.quoting = .bare && isName m.char)
  match name, w.marks.drop name.length with
  | first :: _, ⟨'=', .bare⟩ :: rest =>
    if isNameStart first.char then
      some (String.ofList (name.map (·.char)), oneField s { w with marks := rest })
    else none
  | _, _ => none

def assign (s : State) (w : Word) : State :=
  match assignment? s w with
  | some pair => { s with bindings := pair :: s.bindings }
  | none => s

def isAssignment (s : State) (w : Word) : Bool :=
  (assignment? s w).isSome

def runSimple (s : State) (input : List UInt8) (c : Simple) : State :=
  let settings := c.words.takeWhile (isAssignment s)
  let words := (c.words.dropWhile (isAssignment s)).flatMap (fields s)
  match redirectAll s { input } c.redirects with
  | (s, .error e) => deliver { s with code := 2 } (Utf8.encode (complaint s e)) .err
  | (s, .ok w) =>
    if words.isEmpty then { settings.foldl assign s with code := 0 }
    else
      let r := call s w.input words
      let s := deliver s (Utf8.encode r.out ++ r.bytes) w.out
      let s := deliver s (Utf8.encode r.err) w.err
      { s with code := r.code, ended := r.ended }

/-- Runs the commands of a pipeline, each on what the one before it wrote. -/
def runPipeline (s : State) (input : List UInt8) : List Simple → State
  | [] => s
  | [c] => runSimple s input c
  | c :: rest =>
    let t := runSimple { s with out := [] } input c
    runPipeline { t with
      out := s.out, code := s.code, ended := false, bindings := s.bindings } t.out rest

def runClause (s : State) (c : Clause) : State :=
  let due := match c.condition with
    | .always => true
    | .afterSuccess => s.code = 0
    | .afterFailure => s.code != 0
  if s.ended || !due then s
  else
    let t := runPipeline { s with line := c.line } [] c.pipeline
    if c.pipeline.length = 1 then t else { t with ended := false, bindings := s.bindings }

/-- Runs a command line. What is no script fails as a whole. -/
def run (s : State) (command : String) : State :=
  match script? command with
  | some clauses => clauses.foldl runClause s
  | none => { s with code := 2, err := s.err ++ Utf8.encode (complaint s "Syntax error") }

end Fallow.Shell
