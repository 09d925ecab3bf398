import Fallow.Text.Lines
import Mathlib.Data.List.TakeWhile

/-!
# Words and lines

A text splits at a break into what is before and what is after it, and a run of characters of one
class ends where the first other character stands. From this follow the words of a line, which
blanks separate, and the lines of a text, which end with a line break: one of the characters that
end lines, or a carriage return and a line feed together.
-/

namespace Fallow.Text

theorem splitAt_eq_splitOnP (isBreak : Char → Bool) (s : List Char) :
    splitAt isBreak s = s.splitOnP isBreak := by
  induction s with
  | nil => rw [List.splitOnP_nil, splitAt_nil]
  | cons c rest ih =>
      rw [splitAt, List.splitOnP_cons_eq_if_modifyHead, ih]
      split
      · rfl
      · cases h : rest.splitOnP isBreak with
        | nil => exact absurd h (List.splitOnP_ne_nil _ _)
        | cons piece pieces => rfl

/-- Characters of a class end where the first other character stands. -/
theorem append_inj_of_stop {p : Char → Bool} {l l' rest rest' : List Char}
    (hl : ∀ x ∈ l, p x = true) (hl' : ∀ x ∈ l', p x = true)
    (hr : ∀ x, rest.head? = some x → p x = false) (hr' : ∀ x, rest'.head? = some x → p x = false)
    (h : l ++ rest = l' ++ rest') : l = l' ∧ rest = rest' := by
  induction l generalizing l' with
  | nil =>
      cases l' with
      | nil => exact ⟨rfl, h⟩
      | cons x l' =>
          have hx := hr x (by rw [← List.nil_append rest, h]; rfl)
          simp [hl' x List.mem_cons_self] at hx
  | cons x l ih =>
      cases l' with
      | nil =>
          have hx := hr' x (by rw [← List.nil_append rest', ← h]; rfl)
          simp [hl x List.mem_cons_self] at hx
      | cons y l' =>
          obtain ⟨rfl, htail⟩ := List.cons.inj h
          obtain ⟨rfl, hrest⟩ :=
            ih (List.forall_mem_cons.1 hl).2 (List.forall_mem_cons.1 hl').2 htail
          exact ⟨rfl, hrest⟩

section Splits

variable {isBreak : Char → Bool}

theorem splitAt_append_cons {c : Char} (hc : isBreak c = true) (s t : List Char) :
    splitAt isBreak (s ++ c :: t) = splitAt isBreak s ++ splitAt isBreak t := by
  simp only [splitAt_eq_splitOnP, List.splitOnP_append_cons s t hc]

theorem splitAt_of_unbroken {s : List Char} (h : ∀ c ∈ s, isBreak c = false) :
    splitAt isBreak s = [s] := by
  rw [splitAt_eq_splitOnP, List.splitOnP_eq_singleton h]

end Splits

/-- Where there is nothing extra nothing is trimmed. -/
theorem trim_eq_self {isExtra : Char → Bool} {s : List Char}
    (h : ∀ c ∈ s, isExtra c = false) : trim isExtra s = s := by
  have hdrop : ∀ t : List Char, (∀ c ∈ t, isExtra c = false) → t.dropWhile isExtra = t := by
    intro t ht
    cases t with
    | nil => rfl
    | cons c t => rw [List.dropWhile_cons_of_neg (by simp [ht])]
  have hreverse : s.reverse.dropWhile isExtra = s.reverse :=
    hdrop s.reverse fun c hc => h c (List.mem_reverse.1 hc)
  rw [trim, trimStart, trimEnd, hdrop s h, hreverse, List.reverse_reverse]

/-! ### Words -/

/-- A text of blanks. -/
def Blank (s : List Char) : Prop :=
  ∀ c ∈ s, isBlank c = true

/-- A text that is one word. -/
def Solid (s : List Char) : Prop :=
  s ≠ [] ∧ ∀ c ∈ s, isBlank c = false

instance (s : List Char) : Decidable (Solid s) :=
  @instDecidableAnd _ _ inferInstance (List.decidableBAll _ s)

/-- A line of two words, with blanks between them and maybe around them. -/
def IsPair (line first second : List Char) : Prop :=
  ∃ before between after, line = before ++ first ++ between ++ second ++ after ∧
    Solid first ∧ Solid second ∧ between ≠ [] ∧ Blank before ∧ Blank between ∧ Blank after

section Words

variable {s t gap : List Char}

theorem words_nil : words [] = [] := rfl

theorem words_append_cons {c : Char} (hc : isBlank c = true) (s t : List Char) :
    words (s ++ c :: t) = words s ++ words t := by
  rw [words, splitAt_append_cons hc, List.filter_append, words, words]

theorem words_of_solid (h : Solid s) : words s = [s] := by
  rw [words, splitAt_of_unbroken h.2]
  simp [h.1]

theorem words_blank_append (h : Blank gap) (s : List Char) : words (gap ++ s) = words s := by
  induction gap with
  | nil => rfl
  | cons c gap ih =>
      have hc : isBlank c = true := h c List.mem_cons_self
      rw [List.cons_append, ← List.nil_append (c :: (gap ++ s)), words_append_cons hc, words_nil,
        List.nil_append, ih fun d hd => h d (List.mem_cons_of_mem c hd)]

theorem words_solid_append {w : List Char} (hw : Solid w)
    (hs : ∀ c ∈ s.head?, isBlank c = true) : words (w ++ s) = w :: words s := by
  cases s with
  | nil => rw [List.append_nil, words_of_solid hw, words_nil]
  | cons c s =>
      have hc : isBlank c = true := hs c rfl
      rw [words_append_cons hc, words_of_solid hw, ← List.nil_append (c :: s),
        words_append_cons hc, words_nil]
      rfl

/-- The first word of a text comes after blanks, up to the next blank or the end. -/
theorem exists_first_word (h : ¬ Blank s) : ∃ before w rest, s = before ++ w ++ rest ∧
    Blank before ∧ Solid w ∧ ∀ c ∈ rest.head?, isBlank c = true := by
  obtain ⟨core, hcore⟩ : ∃ core, core = s.dropWhile isBlank := ⟨_, rfl⟩
  have hs : s = s.takeWhile isBlank ++ core := by
    rw [hcore, List.takeWhile_append_dropWhile]
  have hbefore : Blank (s.takeWhile isBlank) := fun c hc => List.mem_takeWhile_imp hc
  cases core with
  | nil =>
      rw [List.append_nil] at hs
      exact absurd (hs ▸ hbefore) h
  | cons c core =>
      have hc : isBlank c = false := by
        have hhead := List.head?_dropWhile_not isBlank s
        rw [← hcore] at hhead
        simpa using hhead
      refine ⟨s.takeWhile isBlank, (c :: core).takeWhile (!isBlank ·),
        (c :: core).dropWhile (!isBlank ·), ?_, hbefore, ⟨by simp [hc], fun d hd => ?_⟩,
        fun d hd => ?_⟩
      · rw [List.append_assoc, List.takeWhile_append_dropWhile]
        exact hs
      · simpa using List.mem_takeWhile_imp hd
      · have hhead := List.head?_dropWhile_not (!isBlank ·) (c :: core)
        rw [Option.mem_def.1 hd] at hhead
        simpa using hhead

theorem words_of_first {before w : List Char} (hbefore : Blank before) (hw : Solid w)
    (hs : ∀ c ∈ s.head?, isBlank c = true) : words (before ++ w ++ s) = w :: words s := by
  rw [List.append_assoc, words_blank_append hbefore, words_solid_append hw hs]

theorem words_eq_nil_iff : words s = [] ↔ Blank s := by
  constructor
  · intro hwords
    by_contra h
    obtain ⟨before, w, rest, rfl, hbefore, hw, hrest⟩ := exists_first_word h
    rw [words_of_first hbefore hw hrest] at hwords
    cases hwords
  · intro h
    rw [← List.append_nil s, words_blank_append h, words_nil]

theorem words_eq_cons_iff {w : List Char} {ws : List (List Char)} :
    words s = w :: ws ↔ ∃ before rest, s = before ++ w ++ rest ∧ Blank before ∧ Solid w ∧
      (∀ c ∈ rest.head?, isBlank c = true) ∧ words rest = ws := by
  constructor
  · intro hwords
    have h : ¬ Blank s := fun h => by
      rw [words_eq_nil_iff.2 h] at hwords
      cases hwords
    obtain ⟨before, first, rest, rfl, hbefore, hfirst, hrest⟩ := exists_first_word h
    rw [words_of_first hbefore hfirst hrest] at hwords
    obtain ⟨rfl, rfl⟩ := List.cons.inj hwords
    exact ⟨before, rest, rfl, hbefore, hfirst, hrest, rfl⟩
  · rintro ⟨before, rest, rfl, hbefore, hw, hrest, rfl⟩
    exact words_of_first hbefore hw hrest

/-- The words of a line are two exactly if the line is a pair of these. -/
theorem words_eq_pair_iff {first second : List Char} :
    words s = [first, second] ↔ IsPair s first second := by
  constructor
  · intro hwords
    obtain ⟨before, rest, rfl, hbefore, hfirst, hhead, hwords⟩ := words_eq_cons_iff.1 hwords
    obtain ⟨between, after, rfl, hbetween, hsecond, -, hwords⟩ := words_eq_cons_iff.1 hwords
    refine ⟨before, between, after, by simp, hfirst, hsecond, ?_, hbefore, hbetween,
      words_eq_nil_iff.1 hwords⟩
    rintro rfl
    -- without blanks between them the second word would start with a blank
    obtain ⟨c, second, rfl⟩ := List.exists_cons_of_ne_nil hsecond.1
    have hblank := hhead c rfl
    rw [hsecond.2 c List.mem_cons_self] at hblank
    cases hblank
  · rintro ⟨before, between, after, rfl, hfirst, hsecond, hne, hbefore, hbetween, hafter⟩
    have hhead : ∀ c ∈ (between ++ (second ++ after)).head?, isBlank c = true := by
      obtain ⟨c, between, rfl⟩ := List.exists_cons_of_ne_nil hne
      rintro d ⟨⟩
      exact hbetween c List.mem_cons_self
    have hend : ∀ c ∈ after.head?, isBlank c = true := fun c hc =>
      hafter c (List.mem_of_mem_head? hc)
    rw [List.append_assoc, List.append_assoc, words_of_first hbefore hfirst hhead,
      words_blank_append hbetween, words_solid_append hsecond hend, words_eq_nil_iff.2 hafter]

end Words

/-! ### Lines -/

/-- What ends a line. -/
inductive IsBreak : List Char → Prop
  | pair : IsBreak ['\r', '\n']
  | single {c : Char} (h : isLineBreak c = true) : IsBreak [c]

/-- A text that stays in one line. -/
def Unbroken (line : List Char) : Prop :=
  ∀ c ∈ line, isLineBreak c = false

instance (line : List Char) : Decidable (Unbroken line) :=
  List.decidableBAll _ line

theorem Solid.unbroken {w : List Char} (h : Solid w) : Unbroken w := fun c hc =>
  Bool.eq_false_iff.2 fun hbreak => by
    have hblank := isBlank_of_isLineBreak hbreak
    rw [h.2 c hc] at hblank
    cases hblank

section Lines

variable {line rest : List Char}

theorem unifyBreaks_append (h : Unbroken line) (rest : List Char) :
    unifyBreaks (line ++ rest) = line ++ unifyBreaks rest := by
  induction line with
  | nil => rfl
  | cons c line ih =>
      have hc : c ≠ '\r' := by
        rintro rfl
        exact absurd (h '\r' List.mem_cons_self) (by decide)
      rw [List.cons_append, unifyBreaks.eq_3 _ _ fun _ hreturn _ => hc hreturn, if_neg hc,
        ih fun d hd => h d (List.mem_cons_of_mem c hd), List.cons_append]

/-- A line break ends a line. -/
theorem lines_eq_cons {s : List Char} {c : Char} (h : Unbroken line) (hc : isLineBreak c = true)
    (hs : unifyBreaks s = line ++ c :: unifyBreaks rest) : lines s = line :: lines rest := by
  obtain ⟨piece, pieces, hpieces⟩ :=
    List.exists_cons_of_ne_nil (splitAt_ne_nil isLineBreak (unifyBreaks rest))
  have hsplit : splitAt isLineBreak (unifyBreaks s) = line :: piece :: pieces := by
    rw [hs, splitAt_append_cons hc, splitAt_of_unbroken h, hpieces, List.singleton_append]
  simp only [lines, hsplit, hpieces, List.getLast?_cons_cons, List.dropLast_cons_cons]
  split <;> rfl

theorem lines_append_cons {c : Char} (h : Unbroken line) (hc : isLineBreak c = true)
    (hrest : c = '\r' → rest.head? ≠ some '\n') :
    lines (line ++ c :: rest) = line :: lines rest := by
  have hunify := unifyBreaks.eq_3 c rest fun below hreturn hfeed =>
    hrest hreturn (by rw [hfeed]; rfl)
  by_cases hreturn : c = '\r'
  · rw [if_pos hreturn] at hunify
    exact lines_eq_cons h (by decide : isLineBreak '\n' = true)
      (by rw [unifyBreaks_append h, hunify])
  · rw [if_neg hreturn] at hunify
    exact lines_eq_cons h hc (by rw [unifyBreaks_append h, hunify])

theorem lines_append_pair (h : Unbroken line) (rest : List Char) :
    lines (line ++ '\r' :: '\n' :: rest) = line :: lines rest :=
  lines_eq_cons h (by decide : isLineBreak '\n' = true)
    (by rw [unifyBreaks_append h, unifyBreaks])

/-- The last line need not be ended; without characters it is none. -/
theorem lines_of_unbroken (h : Unbroken line) : lines line = if line = [] then [] else [line] := by
  have hunify := unifyBreaks_append h []
  rw [List.append_nil, unifyBreaks_nil, List.append_nil] at hunify
  simp only [lines, hunify, splitAt_of_unbroken h]
  simp

end Lines

end Fallow.Text
