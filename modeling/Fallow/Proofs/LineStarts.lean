import Fallow.Proofs.Order
import Fallow.Proofs.Runs
import Fallow.Text.Lines

/-!
# Line starts

What stands from the start of each line on. The lines of a text are the first lines of these
pieces, and a search with a pattern that is tied to line starts looks at these pieces only. The
matches of a pattern that stays in its line never get in each other's way.
-/

namespace Fallow.Text

/-- What follows each line end of a text. -/
def laterTails : List Char → List (List Char)
  | [] => []
  | c :: rest => if c = '\n' then rest :: laterTails rest else laterTails rest

/-- What stands from the start of each line on, the first line first. -/
def lineTails (s : List Char) : List (List Char) :=
  s :: laterTails s

def firstLine (s : List Char) : List Char :=
  s.takeWhile (· != '\n')

/-- The lines of a text are what stands at the line starts, up to the line end. -/
theorem plainLines_eq (s : List Char) : plainLines s = (lineTails s).map firstLine := by
  induction s with
  | nil => rfl
  | cons c rest ih =>
      rw [lineTails, laterTails]
      have hlines : plainLines rest = firstLine rest :: (laterTails rest).map firstLine := ih
      rw [plainLines] at hlines ⊢
      by_cases hc : c = '\n'
      · simp [splitAt, hc, hlines, firstLine]
      · simp [splitAt, hc, hlines, firstLine]

end Fallow.Text

namespace Fallow.Pattern

open Text (laterTails lineTails)

/-- A line starts at the start of a text and after a line end. -/
def Fresh (passed : List Char) : Prop :=
  passed = [] ∨ passed.head? = some '\n'

instance (passed : List Char) : Decidable (Fresh passed) :=
  inferInstanceAs (Decidable (_ ∨ _))

theorem atAnchor_lineStart (c : Cursor) : c.atAnchor .lineStart = true ↔ Fresh c.passed := by
  simp [Cursor.atAnchor, Fresh]

theorem laterTails_cons (c : Char) (s : List Char) (passed : List Char) :
    laterTails (c :: s) = (if Fresh (c :: passed) then [s] else []) ++ laterTails s := by
  by_cases hc : c = '\n' <;> simp [laterTails, Fresh, hc]

theorem map_rest_filter_starts (passed s : List Char) :
    ((starts passed s).filter (Fresh ·.passed)).map (·.rest) =
      (if Fresh passed then [s] else []) ++ laterTails s := by
  induction s generalizing passed with
  | nil => by_cases hfresh : Fresh passed <;> simp [starts, laterTails, hfresh]
  | cons x s ih =>
      rw [starts, laterTails_cons x s passed, ← ih (x :: passed)]
      by_cases hfresh : Fresh passed <;> simp [hfresh]

/-- What stands at the line starts is what is to come at the places where a line starts. -/
theorem lineTails_eq (s : List Char) :
    lineTails s = ((starts [] s).filter (Fresh ·.passed)).map (·.rest) := by
  rw [map_rest_filter_starts]
  rfl

theorem first_lineTails {P : List Char → Prop} {s t : List Char} :
    First P (lineTails s) t ↔
      ∃ c, First (fun c => Fresh c.passed ∧ P c.rest) (starts [] s) c ∧ c.rest = t := by
  simp only [lineTails_eq, first_map, first_filter, decide_eq_true_eq]

section Listing

variable {p : Pattern} {c : Cursor} {m : Match} {skipped : Nat} {passed s : List Char}

theorem mem_starts : c ∈ starts passed s ↔ ∃ chars, (⟨passed, s, []⟩ : Cursor).Passes chars c := by
  induction s generalizing passed with
  | nil =>
      rw [starts, List.mem_singleton]
      constructor
      · rintro rfl
        exact ⟨[], .refl _⟩
      · rintro ⟨chars, hc⟩
        cases (List.append_eq_nil_iff.1 hc.rest.symm).1
        exact hc.eq_self
  | cons x s ih =>
      rw [starts, List.mem_cons, ih]
      constructor
      · rintro (rfl | ⟨chars, hc⟩)
        · exact ⟨[], .refl _⟩
        · exact ⟨x :: chars, Cursor.passes_cons_iff.2 ⟨rfl, hc⟩⟩
      · rintro ⟨chars, hc⟩
        cases chars with
        | nil => exact .inl hc.eq_self
        | cons y chars => exact .inr ⟨chars, (Cursor.passes_cons_iff.1 hc).2⟩

theorem mem_lineTails {t : List Char} :
    t ∈ lineTails s ↔ ∃ c ∈ starts [] s, Fresh c.passed ∧ c.rest = t := by
  simp only [lineTails_eq, List.mem_map, List.mem_filter, decide_eq_true_eq, and_assoc]

theorem of_mem_matchesAt (h : m ∈ p.matchesAt c) : m.start = c ∧ m.stop ∈ p.ends c := by
  simp only [matchesAt, List.mem_map, List.mem_append, Option.mem_toList] at h
  obtain ⟨d, hd, rfl⟩ := h
  refine ⟨rfl, ?_⟩
  rcases hd with hd | hd
  · exact List.mem_of_mem_head? (Option.filter_eq_some_iff.1 hd).1
  · exact List.mem_of_find?_eq_some hd

theorem exists_mem_matchesAt {d : Cursor} (hd : d ∈ p.ends c)
    (hlt : d.rest.length < c.rest.length) : ∃ m, m ∈ p.matchesAt c := by
  have hsome : ((p.ends c).find? (·.rest.length < c.rest.length)).isSome :=
    List.find?_isSome.2 ⟨d, hd, by simpa using hlt⟩
  obtain ⟨e, he⟩ := Option.isSome_iff_exists.1 hsome
  refine ⟨⟨c, e⟩, ?_⟩
  simp [matchesAt, he]

/-- Every match that is listed was found at some place. -/
theorem exists_of_mem_matchesAfter {cs : List Cursor} (h : m ∈ p.matchesAfter skipped cs) :
    ∃ c ∈ cs, m ∈ p.matchesAt c := by
  induction cs generalizing skipped with
  | nil => cases skipped <;> simp [matchesAfter] at h
  | cons c cs ih =>
      cases skipped with
      | zero =>
          rw [matchesAfter, List.mem_append] at h
          rcases h with h | h
          · exact ⟨c, List.mem_cons_self, h⟩
          · obtain ⟨d, hd, hm⟩ := ih h
            exact ⟨d, List.mem_cons_of_mem _ hd, hm⟩
      | succ skipped =>
          obtain ⟨d, hd, hm⟩ := ih h
          exact ⟨d, List.mem_cons_of_mem _ hd, hm⟩

/-- A pattern whose matches start at a line start, have characters and hold no line end. -/
def StaysInLine (p : Pattern) : Prop :=
  ∀ c, ∀ d ∈ p.ends c, Fresh c.passed ∧
    ∃ chars, chars ≠ [] ∧ '\n' ∉ chars ∧ c.rest = chars ++ d.rest

theorem StaysInLine.text_eq (h : StaysInLine p) (hm : m ∈ p.matchesAt c) :
    Fresh c.passed ∧ '\n' ∉ m.text ∧ c.rest = m.text ++ m.stop.rest := by
  obtain ⟨hstart, hstop⟩ := of_mem_matchesAt hm
  obtain ⟨hfresh, chars, -, hline, hrest⟩ := h c m.stop hstop
  have htext : m.text = chars := by
    rw [Match.text, Cursor.since, hstart, hrest, List.length_append, Nat.add_sub_cancel,
      List.take_left]
  rw [htext]
  exact ⟨hfresh, hline, hrest⟩

/-- A match ends before the next line starts. -/
theorem StaysInLine.length_text_le (h : StaysInLine p) (hm : m ∈ p.matchesAt c) {d : Cursor}
    {x : Char} {chars : List Char} (hd : c.Passes (x :: chars) d) (hfresh : Fresh d.passed) :
    m.text.length - 1 ≤ chars.length := by
  obtain ⟨-, hline, hrest⟩ := h.text_eq hm
  have hend : '\n' ∈ x :: chars := by
    have hhead : ((x :: chars).reverse ++ c.passed).head? = some '\n' := by
      rw [← hd.passed]
      exact hfresh.resolve_left (by simp [hd.passed])
    rw [List.head?_append, List.head?_reverse, List.getLast?_eq_some_getLast (by simp),
      Option.some_or] at hhead
    exact Option.some.inj hhead ▸ List.getLast_mem _
  refine Nat.le_of_not_lt fun hlt => ?_
  have hinside : (x :: chars) <+: m.text := by
    refine List.prefix_of_prefix_length_le ⟨d.rest, hd.rest.symm⟩ ⟨m.stop.rest, hrest.symm⟩ ?_
    simp only [List.length_cons]
    omega
  exact hline (hinside.subset hend)

/-- No match of a pattern that stays in its line reaches a later match. -/
theorem StaysInLine.mem_matchesAfter (h : StaysInLine p) {chars : List Char}
    (hc : (⟨passed, s, []⟩ : Cursor).Passes chars c) (hm : m ∈ p.matchesAt c)
    (hskipped : skipped ≤ chars.length) : m ∈ p.matchesAfter skipped (starts passed s) := by
  -- The places that are skipped lie before the cursor: a match that makes the search skip them
  -- ends in its line, and the cursor stands at the start of a later one.
  induction s generalizing passed skipped chars with
  | nil =>
      cases (List.append_eq_nil_iff.1 hc.rest.symm).1
      cases hc.eq_self
      cases Nat.le_zero.1 hskipped
      exact List.mem_append_left _ hm
  | cons x s ih =>
      rw [starts]
      cases chars with
      | nil =>
          cases hc.eq_self
          cases Nat.le_zero.1 hskipped
          exact List.mem_append_left _ hm
      | cons y chars =>
          have hlater := (Cursor.passes_cons_iff.1 hc).2
          cases skipped with
          | succ skipped => exact ih hlater (Nat.le_of_succ_le_succ hskipped)
          | zero =>
              refine List.mem_append_right _ (ih hlater ?_)
              cases hlast : (p.matchesAt ⟨passed, x :: s, []⟩).getLast? with
              | none => simp
              | some m' =>
                  have hm' := List.mem_of_getLast? hlast
                  exact h.length_text_le hm' hc (h.text_eq hm).1

/-- The matches of a pattern that stays in its line are those at each of the line starts. -/
theorem StaysInLine.mem_findAll (h : StaysInLine p) :
    m ∈ p.findAll s ↔ ∃ c ∈ starts [] s, m ∈ p.matchesAt c := by
  constructor
  · exact exists_of_mem_matchesAfter
  · rintro ⟨c, hc, hm⟩
    obtain ⟨chars, hpasses⟩ := mem_starts.1 hc
    exact h.mem_matchesAfter hpasses hm (Nat.zero_le _)

end Listing

end Fallow.Pattern
