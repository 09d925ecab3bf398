import Fallow.Text.CaseTable
import Fallow.Text.DigitTable
import Fallow.Text.HiddenTable
import Fallow.Text.WordTable

/-!
# Character classes

Blanks, line breaks, word characters, decimal digits and small letters over the whole of Unicode.
-/

namespace Fallow.Text

def inRanges (ranges : List (Nat × Nat)) (c : Char) : Bool :=
  ranges.any fun (first, last) => first ≤ c.toNat && c.toNat ≤ last

/-- The characters at which text splits into words. -/
def isBlank (c : Char) : Bool :=
  inRanges [(0x09, 0x0d), (0x1c, 0x20), (0x85, 0x85), (0xa0, 0xa0), (0x1680, 0x1680),
    (0x2000, 0x200a), (0x2028, 0x2029), (0x202f, 0x202f), (0x205f, 0x205f), (0x3000, 0x3000)] c

def isLineBreak (c : Char) : Bool :=
  inRanges [(0x0a, 0x0d), (0x1c, 0x1e), (0x85, 0x85), (0x2028, 0x2029)] c

theorem isBlank_of_isLineBreak {c : Char} (h : isLineBreak c = true) : isBlank c = true := by
  simp only [isLineBreak, isBlank, inRanges, List.any_cons, List.any_nil, Bool.or_false,
    Bool.or_eq_true, Bool.and_eq_true, decide_eq_true_eq] at h ⊢
  omega

def isWord (c : Char) : Bool :=
  if c.toNat < 0x80 then c.isAlphanum || c == '_' else inRanges wordRanges c

theorem isAlphanum_iff {c : Char} : c.isAlphanum = true ↔ (0x30 ≤ c.toNat ∧ c.toNat ≤ 0x39) ∨
    (0x41 ≤ c.toNat ∧ c.toNat ≤ 0x5a) ∨ (0x61 ≤ c.toNat ∧ c.toNat ≤ 0x7a) := by
  delta Char.isAlphanum Char.isAlpha Char.isUpper Char.isLower Char.isDigit
  simp only [Bool.or_eq_true, Bool.and_eq_true, decide_eq_true_eq, UInt32.le_iff_toNat_le,
    ge_iff_le]
  change ((65 ≤ c.toNat ∧ c.toNat ≤ 90) ∨ (97 ≤ c.toNat ∧ c.toNat ≤ 122)) ∨
    (48 ≤ c.toNat ∧ c.toNat ≤ 57) ↔ _
  omega

/-- Ranges that lie apart have no character in common. -/
theorem inRanges_of_apart {ranges others : List (Nat × Nat)} {c : Char}
    (hapart : (ranges.all fun r => others.all fun o => o.2 < r.1 || r.2 < o.1) = true)
    (h : inRanges ranges c = true) : inRanges others c = false := by
  simp only [inRanges, List.any_eq_true, List.any_eq_false, List.all_eq_true, Bool.and_eq_true,
    Bool.or_eq_true, decide_eq_true_eq] at hapart h ⊢
  obtain ⟨r, hr, hc⟩ := h
  intro o ho hin
  have hro := hapart r hr o ho
  omega

theorem isWord_of_isBlank {c : Char} (h : isBlank c = true) : isWord c = false := by
  by_cases hascii : c.toNat < 0x80
  · have hplain : inRanges [(0x30, 0x39), (0x41, 0x5a), (0x61, 0x7a), (0x5f, 0x5f)] c = false :=
      inRanges_of_apart (by decide) h
    have hsign : c = '_' ↔ c.toNat = 0x5f := Char.toNat_inj.symm
    rw [isWord, if_pos hascii, ← hplain, Bool.eq_iff_iff]
    simp only [Bool.or_eq_true, isAlphanum_iff, inRanges]
    simp [hsign]
    omega
  · rw [isWord, if_neg hascii]
    exact inRanges_of_apart (by decide +kernel) h

/-- Characters that a quoted text shows as they are. -/
def isShown (c : Char) : Bool :=
  if c.toNat < 0x80 then 0x20 ≤ c.toNat && c.toNat < 0x7f else !inRanges hiddenRanges c

def digitValue? (c : Char) : Option Nat :=
  (digitZeros.find? fun start => start ≤ c.toNat && c.toNat < start + 10).map (c.toNat - ·)

def isAsciiDigit (c : Char) : Bool :=
  '0' ≤ c && c ≤ '9'

/-- The code point of the small letter of a letter, itself for anything else. -/
def small (n : Nat) : Nat :=
  match caseRows.find? fun row =>
      row.first ≤ n && n ≤ row.last && (n - row.first) % row.step == 0 with
  | some row => ((n : Int) + row.shift).toNat
  | none => n

/-- One representative for all the letters that differ only in case. -/
def caseKey (n : Nat) : Nat :=
  let s := small n
  match smallLetterGroups.find? (·.contains s) with
  | some group => group.headD s
  | none => s

/-- The code points that differ from `n` only in case, with `n` itself. -/
def caseVariants (n : Nat) : List Nat :=
  let key := caseKey n
  let smalls := (smallLetterGroups.find? (·.contains key)).getD [key]
  let capitals := caseRows.flatMap fun row => smalls.filterMap fun (s : Nat) =>
    let c := ((s : Int) - row.shift).toNat
    if small c = s then some c else none
  n :: smalls ++ capitals

/-- Small letters for the letters of file suffixes: only the small forms among ASCII matter. -/
def toSmall (c : Char) : Char :=
  Char.ofNat (small c.toNat)

end Fallow.Text
