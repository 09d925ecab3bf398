import Fallow.Project.Basic
import Fallow.Toml.Reader

/-!
# The configuration of a project

The configuration lies in a file of the project unless another file is named; only a named one
has to exist.
-/

namespace Fallow

namespace Config

inductive Error where
  | missing (path : Path)
  | malformed (path : Path) (e : Toml.Error)
  | fault (path : Path) (f : Fault)
  /-- The file cannot be read as text at all. -/
  | unreadable (path : Path) (e : Disk.Error)

def Error.message : Error → String
  | .missing path => "Config file not found: " ++ path.text
  | .malformed path e => path.text ++ ": " ++ e.message
  | .fault path f => path.text ++ ": " ++ f.message
  | .unreadable path e => e.message (Text.quoted path.text)

/-- Whether the user is told about an error; any other one is not expected. -/
def Error.isComplaint : Error → Bool
  | .unreadable _ _ => false
  | .malformed _ e => e != .tooManyDigits
  | _ => true

def fileName : String := "deadwood.toml"

def ofTableAt (path : Path) (table : List (String × Setting)) : Except Error Config :=
  match ofTable table with
  | .ok c => .ok c
  | .error f => .error (.fault path f)

def ofFile (disk : Disk) (cwd path : Path) : Except Error Config :=
  match disk.readBytes (cwd.join path) with
  | .error e => .error (.unreadable path e)
  | .ok bytes =>
    match Utf8.text? bytes with
    | none => .error (.unreadable path .notText)
    | some text =>
      match Toml.parse text with
      | .ok table => ofTableAt path (table.map fun (name, v) => (name, .ofToml v))
      | .error e => .error (.malformed path e)

/-- The configuration of a project, from the file that was named or from its own. -/
def load (disk : Disk) (cwd : Path) (p : Project) (named : Option Path) : Except Error Config :=
  match named with
  | some path =>
    if disk.exists? (cwd.join path) then ofFile disk cwd path else .error (.missing path)
  | none =>
    let path := p.pathOf fileName
    if disk.exists? path then ofFile disk cwd path else .ok {}

end Config
end Fallow
