import Fallow.Pattern.Search
import Fallow.Project.Basic

/-!
# Strictness

The strictness comment of a file: a hash mark at the start of a line, `typed:` after blanks, and a
word, after which nothing but blanks come before the end of a line. Blanks may be line ends
themselves, so that the comment can spread over lines.
-/

namespace Fallow

namespace Strictness

def blanks : Pattern :=
  .run 0 { items := [.space false] }

def word : Pattern :=
  .run 0 { items := [.word false] }

/-- The comment; its only group is the word. -/
def comment : Pattern :=
  .inOrder ([.anchor .lineStart] ++ Pattern.written "#" ++ [blanks] ++ Pattern.written "typed:"
    ++ [blanks, .group 1 (.inOrder [word]), blanks, .anchor .lineEnd])

example : Pattern.read "(?m)^#\\s*typed:\\s*(\\w*)\\s*$" = .ok comment := by cbv

def ofText? (contents : String) : Option String :=
  ((comment.search? contents.toList).bind (·.group? 1)).map String.ofList

end Strictness

namespace Project

/-- The strictness of a file; ill-formed pieces of it count as nothing. -/
def strictness (p : Project) (disk : Disk) (relPath : String) : Option String :=
  match disk.readBytes (p.pathOf relPath) with
  | .ok bytes => Strictness.ofText? (Text.readText (Utf8.cleaned bytes))
  | .error _ => none

end Project
end Fallow
