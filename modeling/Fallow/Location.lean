import Fallow.Number.Numeral

/-!
# Locations

A range of lines and columns of a file, ordered by file and then by its coordinates.
-/

namespace Fallow

structure Location where
  file : String
  startLine : Int
  startColumn : Int
  endLine : Int
  endColumn : Int
  deriving DecidableEq, Repr, Inhabited

namespace Location

def compare (a b : Location) : Ordering :=
  (compareOfLessAndEq a.file b.file).then <|
    (Ord.compare a.startLine b.startLine).then <|
      (Ord.compare a.startColumn b.startColumn).then <|
        (Ord.compare a.endLine b.endLine).then (Ord.compare a.endColumn b.endColumn)

def text (l : Location) : String :=
  l.file ++ ":" ++ Numeral.text l.startLine ++ ":" ++ Numeral.text l.startColumn
    ++ "-" ++ Numeral.text l.endLine ++ ":" ++ Numeral.text l.endColumn

end Location

/-- A stable sort by an order that need not tell all values apart. -/
def sortedBy {α : Type} (cmp : α → α → Ordering) (l : List α) : List α :=
  l.mergeSort fun a b => (cmp a b).isLE

@[simp] theorem sortedBy_nil {α : Type} (cmp : α → α → Ordering) : sortedBy cmp [] = [] := by
  simp [sortedBy]

theorem perm_sortedBy {α : Type} (cmp : α → α → Ordering) (l : List α) :
    (sortedBy cmp l).Perm l :=
  List.mergeSort_perm l _

def textOrder (a b : String) : Ordering :=
  compareOfLessAndEq a b

end Fallow
