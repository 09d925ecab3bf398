import Fallow.Location
import Fallow.Pattern.Search
import Fallow.Project.Basic

/-!
# Gems

The gems that a lock file lists: lines indented by exactly four blanks that give a name and a
version in parentheses.
-/

namespace Fallow

namespace Gems

def nameChars : Pattern.Chars :=
  { items := [.range 0x41 0x5a, .range 0x61 0x7a, .range 0x30 0x39, .range 0x5f 0x5f,
      .range 0x2e 0x2e, .range 0x2d 0x2d] }

/-- The start of a line that lists a gem; its only group is the name. -/
def entry : Pattern :=
  .inOrder ([.anchor .lineStart] ++ Pattern.written "    "
    ++ [.group 1 (.inOrder [.run 1 nameChars])] ++ Pattern.written " (")

example : Pattern.read "(?m)^    ([A-Za-z0-9_.\\-]+) \\(" = .ok entry := by cbv

def ofLock (contents : String) : List String :=
  sortedBy textOrder
    (((entry.findAll contents.toList).filterMap (·.group? 1)).map String.ofList).eraseDups

end Gems

namespace Project

def gemfile : String := "Gemfile"
def lockFile : String := "Gemfile.lock"

def lockedGems (p : Project) (disk : Disk) : Except Disk.Error (List String) := do
  match ← p.read? disk lockFile with
  | some contents => return Gems.ofLock contents
  | none => return []

end Project
end Fallow
