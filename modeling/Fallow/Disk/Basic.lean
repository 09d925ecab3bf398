import Fallow.Disk.Path
import Fallow.Text.Lines
import Fallow.Text.Utf8

/-!
# Disks

A tree of directories and files without links. A single operation says why it fails and leaves the
disk alone in that case; a `Change` made of several may fail halfway and says what it leaves.
-/

namespace Fallow

inductive Entry where
  | file (bytes : List UInt8)
  | dir (entries : List (String × Entry))

namespace Entry

def isDir : Entry → Bool
  | dir _ => true
  | file _ => false

def entries : Entry → List (String × Entry)
  | dir entries => entries
  | file _ => []

end Entry

namespace Disk

inductive Error where
  | missing
  | notADirectory
  | isADirectory
  | taken
  | notEmpty
  | invalid
  | busy
  | notText
  deriving DecidableEq, Repr

def Error.message (path : String) : Error → String
  | .missing => "[Errno 2] No such file or directory: " ++ path
  | .notADirectory => "[Errno 20] Not a directory: " ++ path
  | .isADirectory => "[Errno 21] Is a directory: " ++ path
  | .taken => "[Errno 17] File exists: " ++ path
  | .notEmpty => "[Errno 39] Directory not empty: " ++ path
  | .invalid => "[Errno 22] Invalid argument: " ++ path
  | .busy => "[Errno 16] Device or resource busy: " ++ path
  | .notText => "invalid text: " ++ path

end Disk

/-- A disk is its topmost directory. -/
structure Disk where
  top : List (String × Entry) := []

namespace Disk

/-- Sets an entry of a directory: in its place if there is one of that name, at the end
otherwise. -/
def setEntry (name : String) (e : Entry) : List (String × Entry) → List (String × Entry)
  | [] => [(name, e)]
  | (other, old) :: rest =>
    if other = name then (other, e) :: rest else (other, old) :: setEntry name e rest

theorem lookup_setEntry (name : String) (e : Entry) (entries : List (String × Entry)) :
    (setEntry name e entries).lookup name = some e := by
  induction entries with
  | nil => simp [setEntry]
  | cons head rest ih =>
    obtain ⟨other, old⟩ := head
    by_cases h : other = name
    · simp [setEntry, h]
    · simp [setEntry, h, ih, List.lookup_cons, beq_false_of_ne (Ne.symm h)]

theorem lookup_setEntry_of_ne {name other : String} (e : Entry) (entries : List (String × Entry))
    (h : other ≠ name) : (setEntry name e entries).lookup other = entries.lookup other := by
  induction entries with
  | nil => simp [setEntry, List.lookup_cons, beq_false_of_ne h]
  | cons head rest ih =>
    obtain ⟨first, old⟩ := head
    by_cases hf : first = name
    · simp [setEntry, hf, List.lookup_cons, beq_false_of_ne h]
    · simp [setEntry, hf, ih, List.lookup_cons]

def dropEntry (name : String) (entries : List (String × Entry)) : List (String × Entry) :=
  entries.filter (·.1 != name)

def entryAt? : List String → List (String × Entry) → Option Entry
  | [], entries => some (.dir entries)
  | [name], entries => entries.lookup name
  | name :: rest, entries =>
    match entries.lookup name with
    | some (.dir inner) => entryAt? rest inner
    | _ => none

def get? (d : Disk) (names : List String) : Option Entry :=
  entryAt? names d.top

/-- Follows names one by one from a place, which is given last name first, going up at double
dots. All names but the last must be directories. -/
def follow (d : Disk) : List String → List String → Except Error (List String)
  | here, [] => .ok here
  | here, name :: rest =>
    match d.get? here.reverse with
    | none => .error .missing
    | some (.file _) => .error .notADirectory
    | some (.dir _) => d.follow (if name = ".." then here.drop 1 else name :: here) rest

def locate (d : Disk) (p : Path) : Except Error (List String) :=
  return (← d.follow [] p.names).reverse

def lookup (d : Disk) (p : Path) : Except Error Entry := do
  match d.get? (← d.locate p) with
  | some e => return e
  | none => .error .missing

def exists? (d : Disk) (p : Path) : Bool :=
  (d.lookup p).toOption.isSome

def isDir (d : Disk) (p : Path) : Bool :=
  match d.lookup p with
  | .ok (.dir _) => true
  | _ => false

def isFile (d : Disk) (p : Path) : Bool :=
  match d.lookup p with
  | .ok (.file _) => true
  | _ => false

/-- Puts an entry at the end of names without double dots; the directories above must exist. -/
def putAt (e : Entry) : List String → List (String × Entry) → List (String × Entry)
  | [], entries => entries
  | [name], entries => setEntry name e entries
  | name :: rest, entries =>
    match entries.lookup name with
    | some (.dir inner) => setEntry name (.dir (putAt e rest inner)) entries
    | _ => entries

def put (d : Disk) (names : List String) (e : Entry) : Disk :=
  ⟨putAt e names d.top⟩

def removeAt : List String → List (String × Entry) → List (String × Entry)
  | [], _ => []
  | [name], entries => dropEntry name entries
  | name :: rest, entries =>
    match entries.lookup name with
    | some (.dir inner) => setEntry name (.dir (removeAt rest inner)) entries
    | _ => entries

def erase (d : Disk) (names : List String) : Disk :=
  ⟨removeAt names d.top⟩

def readBytes (d : Disk) (p : Path) : Except Error (List UInt8) := do
  match ← d.lookup p with
  | .file bytes => return bytes
  | .dir _ => .error .isADirectory

/-- The text of a file, every kind of line end read as a line feed. -/
def readText (d : Disk) (p : Path) : Except Error String := do
  match Utf8.text? (← d.readBytes p) with
  | some s => return Text.readText s
  | none => .error .notText

def mkdirOne (d : Disk) (p : Path) : Except Error Disk := do
  let names ← d.locate p
  match d.get? names, d.get? names.dropLast with
  | some _, _ => .error .taken
  | none, some (.dir _) => return d.put names (.dir [])
  | none, _ => .error .missing

/-- What several operations leave, and whether they succeeded. -/
abbrev Change := Disk × Except Error Unit

def attempt (d : Disk) (result : Except Error Disk) : Change :=
  match result with
  | .ok d => (d, .ok ())
  | .error e => (d, .error e)

def Change.andThen (c : Change) (next : Disk → Change) : Change :=
  match c.2 with
  | .ok () => next c.1
  | .error e => (c.1, .error e)

@[simp] theorem Change.ok_andThen (d : Disk) (next : Disk → Change) :
    Change.andThen (d, .ok ()) next = next d :=
  rfl

@[simp] theorem Change.error_andThen (d : Disk) (e : Error) (next : Disk → Change) :
    Change.andThen (d, .error e) next = (d, .error e) :=
  rfl

/-- Creates one directory in a directory that exists; the directory itself may exist. -/
def mkdirHere (d : Disk) (p : Path) : Except Error Disk :=
  match d.mkdirOne p with
  | .ok d => .ok d
  | .error e => if d.isDir p then .ok d else .error e

/-- Creates a directory with those above it; an existing directory is fine. The number bounds how
far up directories may be missing. -/
def mkdirUpTo : Nat → Disk → Path → Change
  | 0, d, _ => (d, .error .missing)
  | levels + 1, d, p =>
    match d.mkdirOne p with
    | .error .missing =>
      if p.parent = p then (d, .error .missing)
      else (mkdirUpTo levels d p.parent).andThen fun d => d.attempt (d.mkdirHere p)
    | _ => d.attempt (d.mkdirHere p)

def mkdir (d : Disk) (p : Path) : Change :=
  mkdirUpTo (p.names.length + 1) d p

/-- Writes a file in a directory that exists, after its old content if `append`. -/
def writeFile (d : Disk) (p : Path) (bytes : List UInt8) (append : Bool := false) :
    Except Error Disk := do
  let names ← d.locate p
  match d.get? names, d.get? names.dropLast with
  | some (.dir _), _ => .error .isADirectory
  | some (.file old), _ => return d.put names (.file (if append then old ++ bytes else bytes))
  | none, some (.dir _) => return d.put names (.file bytes)
  | none, _ => .error .missing

/-- Removes a file, or a directory with all it holds; what does not exist need not be removed. A
directory that is named by double dots is emptied, after which nothing has that name. -/
def remove (d : Disk) (p : Path) : Change :=
  match d.locate p with
  | .error _ => (d, .ok ())
  | .ok names =>
    if (d.get? names).isNone then (d, .ok ())
    else if p.name = ".." then (d.put names (.dir []), .error .missing)
    else (d.erase names, .ok ())

/-- Moves an entry to another place, where only a file or an empty directory may give way. Nothing
moves into itself or onto a directory it is in, and double dots name nothing that can be moved. -/
def move (d : Disk) (source target : Path) : Except Error Disk := do
  let fromNames ← d.locate source
  let toNames ← d.locate target
  if source.name = ".." || target.name = ".." then .error .busy
  else match d.get? fromNames, d.get? toNames with
  | none, _ => .error .missing
  | some e, old =>
    if fromNames = toNames then return d
    else if fromNames.isPrefixOf toNames then .error .invalid
    else if toNames.isPrefixOf fromNames then .error .notEmpty
    else match e, old with
      | .file _, some (.dir _) => .error .isADirectory
      | .dir _, some (.file _) => .error .notADirectory
      | .dir _, some (.dir (_ :: _)) => .error .notEmpty
      | e, _ => return (d.erase fromNames).put toNames e

mutual

/-- The files below an entry with the names that lead to them. -/
def filesBelow : Entry → List (List String × List UInt8)
  | .file bytes => [([], bytes)]
  | .dir entries => filesAmong entries

def filesAmong : List (String × Entry) → List (List String × List UInt8)
  | [] => []
  | (name, e) :: rest =>
    (filesBelow e).map (fun (names, bytes) => (name :: names, bytes)) ++ filesAmong rest

end

mutual

def dirsBelow : Entry → List (List String)
  | .file _ => []
  | .dir entries => [] :: dirsAmong entries

def dirsAmong : List (String × Entry) → List (List String)
  | [] => []
  | (name, e) :: rest => (dirsBelow e).map (name :: ·) ++ dirsAmong rest

end

end Disk
end Fallow
