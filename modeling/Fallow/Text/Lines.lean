import Fallow.Text.Character

/-!
# Lines and words

Splitting of text at line breaks and blanks, and the reading of foreign line ends.
-/

namespace Fallow.Text

/-- A carriage return, alone or before a line feed, is read as one line feed. -/
def unifyBreaks : List Char → List Char
  | [] => []
  | '\r' :: '\n' :: rest => '\n' :: unifyBreaks rest
  | c :: rest => (if c = '\r' then '\n' else c) :: unifyBreaks rest

@[simp] theorem unifyBreaks_nil : unifyBreaks [] = [] := rfl

def readText (s : String) : String :=
  String.ofList (unifyBreaks s.toList)

/-- Splits at every character of the class; a text with `n` such characters has `n + 1` pieces. -/
def splitAt (isBreak : Char → Bool) : List Char → List (List Char)
  | [] => [[]]
  | c :: rest =>
    if isBreak c then [] :: splitAt isBreak rest
    else match splitAt isBreak rest with
      | [] => [[c]]
      | piece :: pieces => (c :: piece) :: pieces

@[simp] theorem splitAt_nil (isBreak : Char → Bool) : splitAt isBreak [] = [[]] := rfl

theorem splitAt_ne_nil (isBreak : Char → Bool) (s : List Char) : splitAt isBreak s ≠ [] := by
  cases s with
  | nil => simp
  | cons c rest =>
      rw [splitAt]
      split
      · simp
      · split <;> simp

def words (s : List Char) : List (List Char) :=
  (splitAt isBlank s).filter (!·.isEmpty)

/-- The pieces between line breaks; a carriage return and a line feed end one line together, and a
last line without characters is no line. -/
def lines (s : List Char) : List (List Char) :=
  let pieces := splitAt isLineBreak (unifyBreaks s)
  if pieces.getLast? = some [] then pieces.dropLast else pieces

def plainLines (s : List Char) : List (List Char) :=
  splitAt (· == '\n') s

def trimStart (isExtra : Char → Bool) (s : List Char) : List Char :=
  s.dropWhile isExtra

def trimEnd (isExtra : Char → Bool) (s : List Char) : List Char :=
  (s.reverse.dropWhile isExtra).reverse

def trim (isExtra : Char → Bool) (s : List Char) : List Char :=
  trimEnd isExtra (trimStart isExtra s)

/-- The text before the last occurrence of a character, empty without one. -/
def beforeLast (c : Char) (s : List Char) : List Char :=
  ((s.reverse.dropWhile (· != c)).drop 1).reverse

end Fallow.Text
