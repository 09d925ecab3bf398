import Fallow.Proofs.SetItems
import Mathlib.Data.List.Forall2

/-!
# What patterns match

A pattern has one reading as a sequence of parts. It matches a path if the path splits into
consecutive pieces that the parts take one by one: a star takes any piece, every other part a piece
of one character. How the matcher gets there, row by row from the last part on, does not show.
-/

namespace Fallow

namespace Wildcard

section Splitting

variable {α β : Type} {R : α → List Char → Prop} {S : β → List Char → Prop}

/-- A text splits into consecutive pieces that are taken one by one. -/
def Splits (R : α → List Char → Prop) (takers : List α) (s : List Char) : Prop :=
  ∃ pieces : List (List Char), List.Forall₂ R takers pieces ∧ pieces.flatten = s

theorem splits_nil {s : List Char} : Splits R [] s ↔ s = [] := by
  constructor
  · rintro ⟨pieces, htakes, rfl⟩
    cases htakes
    rfl
  · rintro rfl
    exact ⟨[], .nil, rfl⟩

theorem splits_cons {a : α} {takers : List α} {s : List Char} : Splits R (a :: takers) s ↔
    ∃ piece rest, s = piece ++ rest ∧ R a piece ∧ Splits R takers rest := by
  constructor
  · rintro ⟨pieces, htakes, rfl⟩
    cases htakes with
    | @cons _ piece _ pieces ha htakes =>
        exact ⟨piece, pieces.flatten, List.flatten_cons, ha, pieces, htakes, rfl⟩
  · rintro ⟨piece, rest, rfl, ha, pieces, htakes, rfl⟩
    exact ⟨piece :: pieces, .cons ha htakes, List.flatten_cons⟩

/-- Who takes the same pieces can stand in for another. -/
theorem splits_congr {takers : List α} {others : List β}
    (h : List.Forall₂ (fun a b => ∀ piece, R a piece ↔ S b piece) takers others) {s : List Char} :
    Splits R takers s ↔ Splits S others s := by
  induction h generalizing s with
  | nil => rw [splits_nil, splits_nil]
  | cons hab _ ih => simp only [splits_cons, hab, ih]

end Splitting

/-- The pieces that a token takes. -/
def Token.Fits : Token → List Char → Prop
  | .star, _ => True
  | t, s => ∃ c, s = [c] ∧ t.takes c = true

theorem mem_suffixes {r s : List Char} : r ∈ suffixes s ↔ ∃ piece, s = piece ++ r := by
  induction s with
  | nil => simp [suffixes, eq_comm]
  | cons c s ih =>
      rw [suffixes, List.mem_cons, ih]
      constructor
      · rintro (rfl | ⟨piece, rfl⟩)
        · exact ⟨[], rfl⟩
        · exact ⟨c :: piece, rfl⟩
      · rintro ⟨piece, hpiece⟩
        cases piece with
        | nil => exact .inl hpiece.symm
        | cons d piece => exact .inr ⟨piece, (List.cons.inj hpiece).2⟩

/-- A token other than a star takes the first character. -/
theorem splits_token_cons {t : Token} (ht : t ≠ .star) {ts : List Token} {s : List Char} :
    Splits Token.Fits (t :: ts) s ↔
      ∃ c rest, s = c :: rest ∧ t.takes c = true ∧ Splits Token.Fits ts rest := by
  have hfits : ∀ piece, t.Fits piece ↔ ∃ c, piece = [c] ∧ t.takes c = true := by
    intro piece
    cases t with
    | star => exact absurd rfl ht
    | any => rfl
    | set negated ranges => rfl
    | literal c => rfl
  simp only [splits_cons, hfits]
  constructor
  · rintro ⟨_, rest, rfl, ⟨c, rfl, hc⟩, hrest⟩
    exact ⟨c, rest, rfl, hc, hrest⟩
  · rintro ⟨c, rest, rfl, hc, hrest⟩
    exact ⟨[c], rest, rfl, ⟨c, rfl, hc⟩, hrest⟩

/-- Tokens take a text if and only if it splits into pieces that they take one by one. -/
theorem takes_iff_splits (ts : List Token) (s : List Char) :
    takes ts s = true ↔ Splits Token.Fits ts s := by
  induction ts generalizing s with
  | nil => rw [takes, splits_nil, List.isEmpty_iff]
  | cons t ts ih =>
      have hstep (ht : t ≠ .star) : takes (t :: ts) s = true ↔
          ∃ c rest, s = c :: rest ∧ t.takes c = true ∧ Splits Token.Fits ts rest := by
        cases s with
        | nil => cases t <;> simp [takes] at ht ⊢
        | cons c s => cases t <;> simp [takes, ih] at ht ⊢
      by_cases ht : t = .star
      · subst ht
        rw [takes, List.any_eq_true, splits_cons]
        constructor
        · rintro ⟨rest, hmem, hrest⟩
          obtain ⟨piece, hs⟩ := mem_suffixes.1 hmem
          exact ⟨piece, rest, hs, trivial, (ih rest).1 hrest⟩
        · rintro ⟨piece, rest, hs, _, hrest⟩
          exact ⟨rest, mem_suffixes.2 ⟨piece, hs⟩, (ih rest).2 hrest⟩
      · rw [hstep ht, splits_token_cons ht]

/-- The mark of a negated set. -/
def mark (negated : Bool) : List Char :=
  if negated then ['!'] else []

@[simp] theorem mark_true : mark true = ['!'] := rfl

@[simp] theorem mark_false : mark false = [] := rfl

/-- A text begins with what follows the opening bracket of a closed set: a mark or none, a body
that is not empty and has no closing bracket but for its first character, and a closing bracket. -/
structure Encloses (s : List Char) (negated : Bool) (body rest : List Char) : Prop where
  text : s = mark negated ++ (body ++ ']' :: rest)
  unmarked : negated = false → body.head? ≠ some '!'
  inhabited : body ≠ []
  closed : ']' ∉ body.tail

theorem takeWhile_ne_bracket {body : List Char} (h : ']' ∉ body) (rest : List Char) :
    (body ++ ']' :: rest).takeWhile (· != ']') = body := by
  have hbody : ∀ c ∈ body, (c != ']') = true := by
    intro c hc
    rw [bne_iff_ne]
    rintro rfl
    exact h hc
  rw [List.takeWhile_append_of_pos hbody]
  simp

/-- The text up to the closing bracket, without regard to a mark. -/
def body? (s : List Char) : Option (List Char) :=
  let bracket := if s.head? = some ']' then [']'] else []
  let s := s.drop bracket.length
  if s.contains ']' then some (bracket ++ s.takeWhile (· != ']')) else none

theorem closed?_eq (s : List Char) : closed? s =
    if s.head? = some '!' then (body? s.tail).map (mark true ++ ·) else body? s := by
  by_cases hs : s.head? = some '!'
  · simp only [closed?, body?, hs, if_true, mark]
    simp
  · simp only [closed?, body?, hs, if_false]
    simp

theorem body?_of_head?_ne {s : List Char} (hs : s.head? ≠ some ']') :
    body? s = if ']' ∈ s then some (s.takeWhile (· != ']')) else none := by
  simp only [body?, if_neg hs, List.length_nil, List.drop_zero, List.nil_append,
    List.contains_iff_mem]

theorem body?_append {body : List Char} (hne : body ≠ []) (hbody : ']' ∉ body.tail)
    (rest : List Char) : body? (body ++ ']' :: rest) = some body := by
  cases body with
  | nil => exact absurd rfl hne
  | cons c body =>
      have htail := takeWhile_ne_bracket hbody rest
      by_cases hc : c = ']'
      · subst hc
        simp_all [body?]
      · simp_all [body?]

theorem exists_of_body? {s body : List Char} (h : body? s = some body) :
    ∃ rest, s = body ++ ']' :: rest ∧ body ≠ [] ∧ ']' ∉ body.tail := by
  by_cases hs : s.head? = some ']'
  · obtain ⟨s, rfl⟩ := List.head?_eq_some_iff.1 hs
    by_cases hmem : ']' ∈ s
    · obtain ⟨more, rest, rfl, hmore⟩ := List.eq_append_cons_of_mem hmem
      have hbody : body = ']' :: more := by
        simpa [body?, takeWhile_ne_bracket hmore] using h.symm
      exact ⟨rest, by rw [hbody]; rfl, by simp [hbody], by simpa [hbody] using hmore⟩
    · simp [body?, hmem] at h
  · rw [body?_of_head?_ne hs] at h
    by_cases hmem : ']' ∈ s
    · obtain ⟨more, rest, rfl, hmore⟩ := List.eq_append_cons_of_mem hmem
      rw [if_pos hmem, takeWhile_ne_bracket hmore] at h
      cases h
      refine ⟨rest, rfl, ?_, fun htail => hmore (List.mem_of_mem_tail htail)⟩
      rintro rfl
      exact hs rfl
    · rw [if_neg hmem] at h
      cases h

theorem Encloses.closed?_eq_some {s body rest : List Char} {negated : Bool}
    (h : Encloses s negated body rest) : closed? s = some (mark negated ++ body) := by
  obtain ⟨rfl, hunmarked, hne, hclosed⟩ := h
  have hbody := body?_append hne hclosed rest
  cases negated with
  | true =>
      have hhead : (mark true ++ (body ++ ']' :: rest)).head? = some '!' := rfl
      rw [closed?_eq, if_pos hhead, mark_true, List.singleton_append, List.tail_cons, hbody,
        Option.map_some]
  | false =>
      have hhead : (body ++ ']' :: rest).head? ≠ some '!' := by
        rw [List.head?_append_of_ne_nil _ hne]
        exact hunmarked rfl
      rw [mark_false, List.nil_append, List.nil_append, closed?_eq, if_neg hhead, hbody]

theorem exists_encloses_of_closed? {s inner : List Char} (h : closed? s = some inner) :
    ∃ negated body rest, Encloses s negated body rest := by
  rw [closed?_eq] at h
  by_cases hs : s.head? = some '!'
  · obtain ⟨s, rfl⟩ := List.head?_eq_some_iff.1 hs
    rw [if_pos hs, List.tail_cons, Option.map_eq_some_iff] at h
    obtain ⟨body, hbody, -⟩ := h
    obtain ⟨rest, rfl, hne, hclosed⟩ := exists_of_body? hbody
    exact ⟨true, body, rest, rfl, by simp, hne, hclosed⟩
  · rw [if_neg hs] at h
    obtain ⟨rest, rfl, hne, hclosed⟩ := exists_of_body? h
    rw [List.head?_append_of_ne_nil _ hne] at hs
    exact ⟨false, inner, rest, rfl, fun _ => hs, hne, hclosed⟩

/-- A text can be taken for a closed set in one way only. -/
theorem Encloses.unique {s body rest body' rest' : List Char} {negated negated' : Bool}
    (h : Encloses s negated body rest) (h' : Encloses s negated' body' rest') :
    negated = negated' ∧ body = body' ∧ rest = rest' := by
  have hinner : mark negated ++ body = mark negated' ++ body' := by
    rw [← Option.some_inj, ← h.closed?_eq_some, h'.closed?_eq_some]
  have hrest : rest = rest' := by
    have htext := h.text.symm.trans h'.text
    rw [← List.append_assoc, ← List.append_assoc, hinner] at htext
    exact (List.cons.inj (List.append_cancel_left htext)).2
  cases negated with
  | true =>
      cases negated' with
      | true => exact ⟨rfl, (List.cons.inj hinner).2, hrest⟩
      | false =>
          rw [mark_false, List.nil_append] at hinner
          exact absurd (hinner ▸ rfl) (h'.unmarked rfl)
  | false =>
      cases negated' with
      | true =>
          rw [mark_false, List.nil_append] at hinner
          exact absurd (hinner ▸ rfl) (h.unmarked rfl)
      | false => exact ⟨rfl, hinner, hrest⟩

theorem Encloses.length_lt {s body rest : List Char} {negated : Bool}
    (h : Encloses s negated body rest) : rest.length < s.length := by
  rw [h.text, List.length_append, List.length_append, List.length_cons]
  omega

/-- A part of a pattern as it is written. -/
inductive Part where
  | star
  | any
  | set (chars : CharSet)
  | literal (c : Char)
  deriving DecidableEq, Repr

namespace Part

/-- The pieces of a path that a part takes. -/
def Takes : Part → List Char → Prop
  | star, _ => True
  | any, s => ∃ c, s = [c]
  | set chars, s => ∃ c, s = [c] ∧ chars.Takes c
  | literal c, s => s = [c]

/-- What counts as the part; only sets can be other than they are written. -/
def settled : Part → Part
  | set chars => set chars.settled
  | p => p

end Part

/-- A text is written with the parts of a pattern. A bracket that no closed set follows is a
character. -/
inductive Reads : List Char → List Part → Prop where
  | nil : Reads [] []
  | star {s : List Char} {parts : List Part} : Reads s parts → Reads ('*' :: s) (.star :: parts)
  | any {s : List Char} {parts : List Part} : Reads s parts → Reads ('?' :: s) (.any :: parts)
  | set {s body rest : List Char} {negated : Bool} {items : List Item} {parts : List Part} :
      Encloses s negated body rest → Lists body items → Reads rest parts →
      Reads ('[' :: s) (.set ⟨negated, items⟩ :: parts)
  | bracket {s : List Char} {parts : List Part} :
      (∀ negated body rest, ¬ Encloses s negated body rest) → Reads s parts →
      Reads ('[' :: s) (.literal '[' :: parts)
  | literal {c : Char} {s : List Char} {parts : List Part} : c ≠ '*' → c ≠ '?' → c ≠ '[' →
      Reads s parts → Reads (c :: s) (.literal c :: parts)

namespace Reads

theorem unique {s : List Char} {parts others : List Part} (h : Reads s parts)
    (h' : Reads s others) : parts = others := by
  induction h generalizing others with
  | nil =>
      cases h'
      rfl
  | star h ih =>
      cases h' with
      | star h' => rw [ih h']
      | literal hstar => exact absurd rfl hstar
  | any h ih =>
      cases h' with
      | any h' => rw [ih h']
      | literal _ hany => exact absurd rfl hany
  | set hset hitems h ih =>
      cases h' with
      | set hset' hitems' h' =>
          obtain ⟨rfl, rfl, rfl⟩ := hset.unique hset'
          rw [hitems.unique hitems', ih h']
      | bracket hopen => exact absurd hset (hopen _ _ _)
      | literal _ _ hbracket => exact absurd rfl hbracket
  | bracket hopen h ih =>
      cases h' with
      | set hset => exact absurd hset (hopen _ _ _)
      | bracket _ h' => rw [ih h']
      | literal _ _ hbracket => exact absurd rfl hbracket
  | literal hstar hany hbracket h ih =>
      cases h' with
      | star => exact absurd rfl hstar
      | any => exact absurd rfl hany
      | set => exact absurd rfl hbracket
      | bracket => exact absurd rfl hbracket
      | literal _ _ _ h' => rw [ih h']

theorem exists_parts (s : List Char) : ∃ parts, Reads s parts := by
  cases s with
  | nil => exact ⟨[], .nil⟩
  | cons c s =>
      obtain ⟨parts, hparts⟩ := exists_parts s
      by_cases hstar : c = '*'
      · subst hstar
        exact ⟨_, .star hparts⟩
      by_cases hany : c = '?'
      · subst hany
        exact ⟨_, .any hparts⟩
      by_cases hbracket : c = '['
      · subst hbracket
        by_cases hset : ∃ negated body rest, Encloses s negated body rest
        · obtain ⟨negated, body, rest, hset⟩ := hset
          -- What follows the set is not the tail of the text, so the length has to carry on.
          have hshorter : rest.length < s.length := hset.length_lt
          obtain ⟨items, hitems⟩ := Lists.exists_items body
          obtain ⟨after, hafter⟩ := exists_parts rest
          exact ⟨_, .set hset hitems hafter⟩
        · exact ⟨_, .bracket (fun negated body rest h => hset ⟨negated, body, rest, h⟩) hparts⟩
      · exact ⟨_, .literal hstar hany hbracket hparts⟩
termination_by s.length

end Reads

theorem tokensAfter_eq_drop (n : Nat) (s : List Char) :
    tokensAfter n s = tokensAfter 0 (s.drop n) := by
  induction s generalizing n with
  | nil => simp [tokensAfter]
  | cons c s ih =>
      cases n with
      | zero => rfl
      | succ n => rw [tokensAfter, ih, List.drop_succ_cons]

theorem tokensAfter_of_encloses {s body rest : List Char} {negated : Bool}
    (h : Encloses s negated body rest) :
    tokensAfter 0 ('[' :: s) = setToken (mark negated ++ body) :: tokensAfter 0 rest := by
  have hdrop : s.drop ((mark negated ++ body).length + 1) = rest := by
    rw [h.text, ← List.append_assoc, ← List.drop_drop, List.drop_left]
    rfl
  rw [tokensAfter, h.closed?_eq_some, if_neg (by decide), if_neg (by decide), if_pos rfl]
  simp only
  rw [tokensAfter_eq_drop, hdrop]

theorem Encloses.takes_setToken {s body rest : List Char} {negated : Bool} {items : List Item}
    (h : Encloses s negated body rest) (hitems : Lists body items) {c : Char} :
    (setToken (mark negated ++ body)).takes c = true ↔
      (CharSet.settled ⟨negated, items⟩).Takes c := by
  cases negated with
  | true => exact hitems.takes_setToken_marked
  | false => exact hitems.takes_setToken (h.unmarked rfl)

theorem fits_setToken (inner piece : List Char) :
    (setToken inner).Fits piece ↔ ∃ c, piece = [c] ∧ (setToken inner).takes c = true := by
  rw [setToken]
  split <;> rfl

/-- The tokens of a pattern take what the parts of its reading take. -/
theorem Reads.forall₂_tokensAfter {s : List Char} {parts : List Part} (h : Reads s parts) :
    List.Forall₂ (fun (t : Token) (p : Part) => ∀ piece, t.Fits piece ↔ p.settled.Takes piece)
      (tokensAfter 0 s) parts := by
  have hliteral : ∀ (c : Char) (piece : List Char),
      (Token.literal c).Fits piece ↔ (Part.literal c).settled.Takes piece := by
    intro c piece
    simp [Token.Fits, Token.takes, Part.settled, Part.Takes]
  induction h with
  | nil => exact .nil
  | star h ih =>
      rw [tokensAfter, if_pos rfl]
      exact .cons (fun piece => Iff.rfl) ih
  | any h ih =>
      rw [tokensAfter, if_neg (by decide), if_pos rfl]
      refine .cons (fun piece => ?_) ih
      simp [Token.Fits, Token.takes, Part.settled, Part.Takes]
  | set hset hitems h ih =>
      rw [tokensAfter_of_encloses hset]
      refine .cons (fun piece => ?_) ih
      simp only [fits_setToken, hset.takes_setToken hitems, Part.settled, Part.Takes]
  | @bracket s parts hopen h ih =>
      have hnone : closed? s = none := by
        rw [Option.eq_none_iff_forall_ne_some]
        intro inner hinner
        obtain ⟨negated, body, rest, hset⟩ := exists_encloses_of_closed? hinner
        exact hopen negated body rest hset
      rw [tokensAfter, if_neg (by decide), if_neg (by decide), if_pos rfl, hnone]
      exact .cons (hliteral _) ih
  | literal hstar hany hbracket h ih =>
      rw [tokensAfter, if_neg hstar, if_neg hany, if_neg hbracket]
      exact .cons (hliteral _) ih

theorem fits_iff_splits {pattern path : String} {parts : List Part}
    (h : Reads pattern.toList parts) :
    fits pattern path = true ↔ Splits (fun p => p.settled.Takes) parts path.toList := by
  rw [fits, covers_eq_takes, tokens, takes_iff_splits]
  exact splits_congr h.forall₂_tokensAfter

/-- Only a reversed range in front can make a set other than it is written. -/
theorem Lists.settled_eq_self_or {body : List Char} {items : List Item} (h : Lists body items)
    (hbody : body.head? ≠ some '!') : CharSet.settled ⟨false, items⟩ = ⟨false, items⟩ ∨
      ∃ first last rest, items = .range first last :: rest ∧ last < first := by
  cases h with
  | nil => exact .inl rfl
  | @range first last s items h =>
      by_cases hlt : last < first
      · exact .inr ⟨first, last, items, rfl, hlt⟩
      · have hfirst : first ≠ '!' := by simpa using hbody
        left
        simp [CharSet.settled, Item.isReversed, hlt, CharSet.unmarked?, hfirst]
  | @single c s items hs h =>
      have hc : c ≠ '!' := by simpa using hbody
      left
      simp [CharSet.settled, Item.isReversed, CharSet.unmarked?, hc]

theorem Reads.settled_eq_self_or {s : List Char} {parts : List Part} (h : Reads s parts)
    {chars : CharSet} (hmem : Part.set chars ∈ parts) : chars.settled = chars ∨
      ∃ first last items, chars = ⟨false, .range first last :: items⟩ ∧ last < first := by
  induction h with
  | nil => cases hmem
  | star h ih => exact ih (by simpa using hmem)
  | any h ih => exact ih (by simpa using hmem)
  | @set s body rest negated items parts hset hitems h ih =>
      rcases List.mem_cons.1 hmem with heq | hmem
      · cases heq
        cases negated with
        | true => exact .inl rfl
        | false =>
            rcases hitems.settled_eq_self_or (hset.unmarked rfl) with
              hself | ⟨first, last, more, rfl, hlt⟩
            · exact .inl hself
            · exact .inr ⟨first, last, more, rfl, hlt⟩
      · exact ih hmem
  | bracket hopen h ih => exact ih (by simpa using hmem)
  | literal hstar hany hbracket h ih => exact ih (by simpa using hmem)

/-- A path is matched exactly if it splits along the one reading of some pattern. A set counts as
it is written unless a reversed range opens it. -/
theorem fitsAny_iff_splits :
    (∀ pattern : String, ∃! parts, Reads pattern.toList parts) ∧
      (∀ s parts chars, Reads s parts → Part.set chars ∈ parts → chars.settled = chars ∨
        ∃ first last items, chars = ⟨false, .range first last :: items⟩ ∧ last < first) ∧
      ∀ patterns path, fitsAny patterns path = true ↔ ∃ pattern ∈ patterns, ∃ parts,
        Reads pattern.toList parts ∧ Splits (fun p => p.settled.Takes) parts path.toList := by
  refine ⟨fun pattern => ?_, fun s parts chars h hmem => h.settled_eq_self_or hmem, ?_⟩
  · obtain ⟨parts, hparts⟩ := Reads.exists_parts pattern.toList
    exact ⟨parts, hparts, fun others hothers => hothers.unique hparts⟩
  · intro patterns path
    rw [fitsAny, List.any_eq_true]
    constructor
    · rintro ⟨pattern, hmem, hfits⟩
      obtain ⟨parts, hparts⟩ := Reads.exists_parts pattern.toList
      exact ⟨pattern, hmem, parts, hparts, (fits_iff_splits hparts).1 hfits⟩
    · rintro ⟨pattern, hmem, parts, hparts, hsplits⟩
      exact ⟨pattern, hmem, (fits_iff_splits hparts).2 hsplits⟩

/-- A set that lists a closing bracket, a range and a hyphen, a negated set, an open bracket and a
star. -/
def sampleParts : List Part :=
  [.set ⟨false, [.single ']', .range 'a' 'c', .single '-']⟩, .set ⟨true, [.single 'x']⟩,
    .literal '[', .star]

theorem reads_sampleParts : Reads "[]a-c-][!x][*".toList sampleParts := by
  have hfirst : Encloses "]a-c-][!x][*".toList false [']', 'a', '-', 'c', '-'] "[!x][*".toList :=
    ⟨rfl, by simp, by simp, by simp⟩
  have hitems : Lists [']', 'a', '-', 'c', '-'] [.single ']', .range 'a' 'c', .single '-'] :=
    .single (by simp) (.range (.single (by simp) .nil))
  have hsecond : Encloses "!x][*".toList true ['x'] "[*".toList :=
    ⟨rfl, by simp, by simp, by simp⟩
  have hopen : ∀ negated body rest, ¬ Encloses "*".toList negated body rest := by
    intro negated body rest h
    have hnone : closed? "*".toList = none := by decide
    rw [h.closed?_eq_some] at hnone
    cases hnone
  exact .set hfirst hitems (.set hsecond (.single (by simp) .nil) (.bracket hopen (.star .nil)))

theorem fitsAny_iff_splits_sample : Reads "[]a-c-][!x][*".toList sampleParts ∧
    fitsAny ["lib/*", "[]a-c-][!x][*"] "-y[/\n" = true ∧
      fitsAny ["[]a-c-][!x][*"] "-x[/\n" = false := by
  obtain ⟨_, _, hiff⟩ := fitsAny_iff_splits
  refine ⟨reads_sampleParts, (hiff _ _).2 ⟨_, by simp, _, reads_sampleParts, ?_⟩, ?_⟩
  · refine ⟨[['-'], ['y'], ['['], ['/', '\n']], ?_, by decide⟩
    exact .cons ⟨'-', rfl, by decide⟩ (.cons ⟨'y', rfl, by decide⟩ (.cons rfl (.cons trivial .nil)))
  · rw [Bool.eq_false_iff, ne_eq, hiff]
    rintro ⟨pattern, hmem, parts, hparts, hsplits⟩
    rw [List.mem_singleton.1 hmem] at hparts
    rw [hparts.unique reads_sampleParts, sampleParts, splits_cons] at hsplits
    obtain ⟨_, rest, hpath, ⟨c, rfl, -⟩, hsplits⟩ := hsplits
    obtain ⟨-, rfl⟩ := List.cons.inj hpath
    rw [splits_cons] at hsplits
    obtain ⟨_, rest, hpath, ⟨d, rfl, htakes⟩, -⟩ := hsplits
    obtain ⟨rfl, -⟩ := List.cons.inj hpath
    revert htakes
    decide

/-- An exclamation mark behind a reversed range negates a set that was not written as negated. -/
theorem fitsAny_reversed_range : fitsAny ["[b-a!x]"] "z" = true ∧
    ¬ ∃ pattern ∈ ["[b-a!x]"], ∃ parts,
      Reads pattern.toList parts ∧ Splits Part.Takes parts "z".toList := by
  have hset : Encloses "b-a!x]".toList false ['b', '-', 'a', '!', 'x'] [] :=
    ⟨rfl, by simp, by simp, by simp⟩
  have hitems : Lists ['b', '-', 'a', '!', 'x'] [.range 'b' 'a', .single '!', .single 'x'] :=
    .range (.single (by simp) (.single (by simp) .nil))
  have hreads : Reads "[b-a!x]".toList
      [.set ⟨false, [.range 'b' 'a', .single '!', .single 'x']⟩] := .set hset hitems .nil
  refine ⟨by decide, ?_⟩
  rintro ⟨pattern, hmem, parts, hparts, hsplits⟩
  rw [List.mem_singleton.1 hmem] at hparts
  rw [hparts.unique hreads, splits_cons] at hsplits
  obtain ⟨_, rest, hpath, ⟨c, rfl, htakes⟩, -⟩ := hsplits
  obtain ⟨rfl, -⟩ := List.cons.inj hpath
  revert htakes
  decide

end Wildcard
end Fallow
