import Fallow.Analysis
import Fallow.Json.Reader
import Fallow.Project.Command

/-!
# Snapshots

A project as one document: its directories, its files, the syntax trees of its Ruby files, and the
replies to the commands that will be run. A tree is an array of kind, bytes, place, flags, fields
and children.
-/

namespace Fallow

structure Snapshot where
  disk : Disk
  grammar : Grammar
  replies : List Reply := []

namespace Snapshot

def text? : Json → Option String
  | .str s => some s
  | _ => none

def nat? : Json → Option Nat
  | .int i => if 0 ≤ i then some i.toNat else none
  | _ => none

/-- The items of an array; an absent one has none. -/
def items? : Option Json → Option (List Json)
  | none | some .null => some []
  | some (.arr items) => some items
  | _ => none

def members? : Option Json → Option (List (String × Json))
  | none | some .null => some []
  | some (.obj members) => some members
  | _ => none

def hexBytes? : List Char → Option (List UInt8)
  | [] => some []
  | a :: b :: rest => do
    return UInt8.ofNat ((← Json.hexValue? a) * 16 + (← Json.hexValue? b)) :: (← hexBytes? rest)
  | _ => none

/-- The content of a file, as text or as hexadecimal digits. -/
def bytes? (file : Json) : Option (List UInt8) :=
  match file.get? "source", file.get? "hex" with
  | some (.str s), _ => some (Utf8.encode s)
  | _, some (.str digits) => hexBytes? digits.toList
  | _, _ => none

/-- Fields that play no role are passed over. -/
def fields? (members : List (String × Json)) : Option (List (Syntax.Field × Nat)) :=
  (members.filterMap fun (name, place) => (Syntax.Field.ofName? name).map (·, place)).mapM
    fun (field, place) => do return (field, ← nat? place)

def flags (marks : String) : Syntax.Flags :=
  let marks := marks.toList
  ⟨marks.contains 'n', marks.contains 'm', marks.contains 'h'⟩

def span? : List Json → Option Syntax.Span
  | [startByte, endByte, startRow, startColumn, endRow, endColumn] => do
    return ⟨← nat? startByte, ← nat? endByte, ⟨← nat? startRow, ← nat? startColumn⟩,
      ⟨← nat? endRow, ← nat? endColumn⟩⟩
  | _ => none

mutual

def node? : Json → Option Syntax.Node
  | .arr [kind, a, b, c, d, e, f, marks, .obj fields, .arr children] => do
    return .mk (Syntax.Kind.ofName (← text? kind)) (← span? [a, b, c, d, e, f])
      (flags (← text? marks)) (← fields? fields) (← nodes? children)
  | _ => none

def nodes? : List Json → Option (List Syntax.Node)
  | [] => some []
  | item :: rest => do return (← node? item) :: (← nodes? rest)

end

def emptyTree : Syntax.Node :=
  .mk (Syntax.Kind.ofName "program") ⟨0, 0, ⟨0, 0⟩, ⟨0, 0⟩⟩ ⟨true, false, false⟩ [] []

/-- A grammar that knows the trees of some contents. -/
def grammarOf (trees : List (List UInt8 × Syntax.Node)) : Grammar :=
  fun bytes => (trees.lookup bytes).getD emptyTree

theorem grammarOf_cases (trees : List (List UInt8 × Syntax.Node)) (bytes : List UInt8) :
    (bytes, grammarOf trees bytes) ∈ trees ∨ grammarOf trees bytes = emptyTree := by
  unfold grammarOf
  cases hlookup : trees.lookup bytes with
  | none => exact .inr rfl
  | some root =>
      obtain ⟨s, t, rfl, _⟩ := List.lookup_eq_some_iff.1 hlookup
      exact .inl (by simp)

def done? : Disk.Change → Option Disk
  | (disk, .ok ()) => some disk
  | (_, .error _) => none

def addDir? (root : Path) (disk : Disk) (dir : Json) : Option Disk := do
  done? (disk.mkdir (root.join (Path.ofText (← text? dir))))

def addFile? (root : Path) (disk : Disk) (file : Json) : Option Disk := do
  done? ((⟨root⟩ : Project).writeBytes disk (← text? (← file.get? "path")) (← bytes? file))

def tree? (file : Json) : Option (List (List UInt8 × Syntax.Node)) :=
  match file.get? "tree" with
  | none | some .null => some []
  | some tree => do return [(← bytes? file, ← node? tree)]

def reply? (reply : Json) : Option Reply := do
  let output (name : String) : String := ((reply.get? name).bind text?).getD ""
  let writes ← (← members? (reply.get? "writes")).mapM fun (path, contents) => do
    return (path, Utf8.encode (← text? contents))
  let exitCode := match reply.get? "exit_code" with
    | some (.int code) => code
    | _ => 0
  return { out := output "out", err := output "err", exitCode, writes }

def replies? (document : Json) : Option (List Reply) := do
  (← items? (document.get? "results")).mapM reply?

/-- A snapshot at a place of a disk; `none` if the document is none or what it holds does not fit
together. -/
def ofJson? (disk : Disk) (root : Path) (document : Json) : Option Snapshot := do
  let disk ← (← items? (document.get? "dirs")).foldlM (addDir? root) disk
  let files ← items? (document.get? "files")
  let trees ← files.mapM tree?
  return {
    disk := ← files.foldlM (addFile? root) disk
    grammar := grammarOf trees.flatten
    replies := ← replies? document }

/-- A disk that holds nothing but an empty directory. -/
def emptyDisk? (root : Path) : Option Disk :=
  done? (({} : Disk).mkdir root)

/-- The files below a directory that are new or changed. -/
def changes (root : Path) (before after : Disk) : List (List String × List UInt8) :=
  let files (disk : Disk) : List (List String × List UInt8) :=
    match disk.lookup root with
    | .ok e => Disk.filesBelow e
    | .error _ => []
  let old := files before
  (files after).filter fun (names, bytes) => old.lookup names != some bytes

end Snapshot
end Fallow
