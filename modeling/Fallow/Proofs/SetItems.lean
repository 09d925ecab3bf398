import Fallow.Wildcard

/-!
# The items of a set

The text of a set lists characters and ranges, read from the left: three characters with a hyphen
in the middle are a range. A range whose ends are in the wrong order holds nothing. The reader works
on pieces between hyphens instead; what it makes of a set is exactly what the items say, with the
ranges that hold nothing taken out. If such ranges open a set, an exclamation mark after them comes
to stand in front and negates it.
-/

namespace Fallow

namespace Wildcard

/-- What a set lists: a character, or all the characters from a first to a last one. -/
inductive Item where
  | single (c : Char)
  | range (first last : Char)
  deriving DecidableEq, Repr

namespace Item

def Holds (c : Char) : Item → Prop
  | single d => c = d
  | range first last => first ≤ c ∧ c ≤ last

instance {c : Char} : (i : Item) → Decidable (i.Holds c)
  | single d => inferInstanceAs (Decidable (c = d))
  | range first last => inferInstanceAs (Decidable (first ≤ c ∧ c ≤ last))

/-- A range with its ends in the wrong order. -/
def isReversed : Item → Bool
  | single _ => false
  | range first last => last < first

def signs : Item → List Sign
  | single c => [.char c]
  | range first last => [.char first, .hyphen, .char last]

def ends : Item → Char × Char
  | single c => (c, c)
  | range first last => (first, last)

theorem holds_iff {c : Char} {i : Item} : i.Holds c ↔ i.ends.1 ≤ c ∧ c ≤ i.ends.2 := by
  cases i with
  | single d => exact ⟨fun h => ⟨h ▸ Char.le_refl d, h ▸ Char.le_refl c⟩,
      fun h => Char.le_antisymm h.2 h.1⟩
  | range first last => rfl

theorem not_holds_of_isReversed {c : Char} {i : Item} (h : i.isReversed = true) : ¬ i.Holds c := by
  cases i with
  | single d => cases h
  | range first last =>
      rintro ⟨hfirst, hlast⟩
      exact Char.not_le.2 (of_decide_eq_true h) (Char.le_trans hfirst hlast)

end Item

/-- The text of a set between its brackets lists items. -/
inductive Lists : List Char → List Item → Prop where
  | nil : Lists [] []
  | range {first last : Char} {s : List Char} {items : List Item} : Lists s items →
      Lists (first :: '-' :: last :: s) (.range first last :: items)
  | single {c : Char} {s : List Char} {items : List Item} :
      (∀ last rest, s ≠ '-' :: last :: rest) → Lists s items →
      Lists (c :: s) (.single c :: items)

namespace Lists

theorem unique {s : List Char} {items others : List Item} (h : Lists s items)
    (h' : Lists s others) : items = others := by
  induction h generalizing others with
  | nil =>
      cases h'
      rfl
  | range h ih =>
      cases h' with
      | range h' => rw [ih h']
      | single hs h' => exact absurd rfl (hs _ _)
  | single hs h ih =>
      cases h' with
      | range h' => exact absurd rfl (hs _ _)
      | single hs' h' => rw [ih h']

theorem exists_items (s : List Char) : ∃ items, Lists s items := by
  cases s with
  | nil => exact ⟨[], .nil⟩
  | cons c s =>
      by_cases hrange : ∃ last rest, s = '-' :: last :: rest
      · obtain ⟨last, rest, rfl⟩ := hrange
        obtain ⟨items, hitems⟩ := exists_items rest
        exact ⟨_, .range hitems⟩
      · obtain ⟨items, hitems⟩ := exists_items s
        exact ⟨_, .single (fun last rest heq => hrange ⟨last, rest, heq⟩) hitems⟩
termination_by s.length

end Lists

section Pieces

theorem cut_of_notMem {s : List Char} (hs : '-' ∉ s) (skip : Nat) (piece : List Char) :
    cut skip piece s = [piece.reverse ++ s] := by
  induction s generalizing skip piece with
  | nil => simp [cut]
  | cons c s ih =>
      rw [List.mem_cons, not_or] at hs
      cases skip with
      | zero => rw [cut, if_neg (Ne.symm hs.1), ih hs.2]; simp
      | succ skip => rw [cut, ih hs.2]; simp

/-- A piece that has begun is not left empty. -/
theorem cut_ne_blank {skip : Nat} {piece s : List Char} (h : piece ≠ []) :
    cut skip piece s ≠ [[]] := by
  induction s generalizing skip piece with
  | nil => simpa [cut] using h
  | cons c s ih =>
      cases skip with
      | zero =>
          rw [cut]
          split
          · simp [h]
          · exact ih (by simp)
      | succ skip => exact ih (by simp)

theorem closeCut_cons {piece : List Char} {rest : List (List Char)} (h : rest ≠ [[]]) :
    closeCut (piece :: rest) = piece :: closeCut rest := by
  rw [closeCut]
  simpa using h

/-- A character that opens no range belongs to the piece at hand. -/
theorem closeCut_cut_cons {c : Char} {s : List Char} (hs : ∀ last rest, s ≠ '-' :: last :: rest)
    (piece : List Char) : closeCut (cut 1 piece (c :: s)) = closeCut (cut 1 (c :: piece) s) := by
  rw [cut]
  cases s with
  | nil => rfl
  | cons d s =>
      by_cases hd : d = '-'
      · subst hd
        cases s with
        | nil => simp [cut, closeCut]
        | cons last rest => exact absurd rfl (hs last rest)
      · have hstep : cut 0 (c :: piece) (d :: s) = cut 0 (d :: c :: piece) s := by
          rw [cut, if_neg hd]
        rw [hstep, cut]

theorem signs_append (piece more : List Char) (rest : List (List Char)) :
    signs ((piece ++ more) :: rest) = piece.map .char ++ signs (more :: rest) := by
  cases rest <;> simp [signs]

/-- The first character of a list of pieces is the first of its first piece. -/
theorem exists_of_signs_eq {all : List (List Char)} {c : Char} {rest : List Sign}
    (h : signs all = .char c :: rest) :
    ∃ piece others, all = (c :: piece) :: others ∧ signs (piece :: others) = rest := by
  cases all with
  | nil => cases h
  | cons piece others =>
      cases piece with
      | nil => cases others <;> simp [signs] at h
      | cons d piece =>
          have hsigns := signs_append [d] piece others
          rw [List.singleton_append, h] at hsigns
          obtain ⟨hd, hrest⟩ := List.cons.inj hsigns
          cases hd
          exact ⟨piece, others, rfl, hrest.symm⟩

/-- The items that hold something. -/
def kept (items : List Item) : List Item :=
  items.filter (!·.isReversed)

theorem signs_joinPieces (piece : List Char) (first last : Char) {next : List (List Char)}
    {rest : List Sign} (h : signs next = .char last :: rest) :
    signs (joinPieces (piece ++ [first]) next) = piece.map .char ++
      if last < first then rest else .char first :: .hyphen :: .char last :: rest := by
  obtain ⟨more, others, rfl, hrest⟩ := exists_of_signs_eq h
  have hlast : (piece ++ [first]).getLast? = some first := by simp
  rw [joinPieces, hlast]
  simp only [List.head?_cons]
  split
  · rw [List.dropLast_concat, List.drop_one, List.tail_cons, signs_append, hrest]
  · rw [signs, h]
    · simp
    · simp

/-- Joined again, the pieces between hyphens show the items that hold something. -/
theorem Lists.signs_cut {s : List Char} {items : List Item} (h : Lists s items)
    (piece : List Char) : signs ((closeCut (cut 1 piece s)).foldr joinPieces []) =
      piece.reverse.map .char ++ (kept items).flatMap Item.signs := by
  -- The piece at hand varies: the last character of a range begins the piece after its hyphen.
  induction h generalizing piece with
  | nil => simp [cut, closeCut, joinPieces, signs, kept]
  | @range first last s items h ih =>
      have hcut : cut 1 piece (first :: '-' :: last :: s) =
          (piece.reverse ++ [first]) :: cut 1 [last] s := by
        simp [cut]
      have hnext := ih [last]
      rw [List.reverse_singleton, List.map_singleton, List.singleton_append] at hnext
      rw [hcut, closeCut_cons (cut_ne_blank (by simp)), List.foldr_cons,
        signs_joinPieces _ _ _ hnext]
      by_cases hlt : last < first
      · simp [kept, Item.isReversed, hlt]
      · simp [kept, Item.isReversed, Item.signs, hlt]
  | @single c s items hs h ih =>
      rw [closeCut_cut_cons hs, ih]
      simp [kept, Item.isReversed, Item.signs]

/-- A text without hyphens is one piece, whichever way it is cut. -/
theorem pieces_eq (s : List Char) : pieces s =
    (closeCut (cut (if s.head? = some '!' then 2 else 1) [] s)).foldr joinPieces [] := by
  by_cases hs : '-' ∈ s
  · simp [pieces, hs]
  · rw [cut_of_notMem hs]
    simp [pieces, hs, closeCut, joinPieces]

theorem Lists.signs_pieces {s : List Char} {items : List Item} (h : Lists s items)
    (hs : s.head? ≠ some '!') : signs (pieces s) = (kept items).flatMap Item.signs := by
  rw [pieces_eq, if_neg hs, h.signs_cut]
  rfl

theorem Lists.signs_pieces_marked {s : List Char} {items : List Item} (h : Lists s items) :
    signs (pieces ('!' :: s)) = .char '!' :: (kept items).flatMap Item.signs := by
  rw [pieces_eq, List.head?_cons, if_pos rfl, cut, h.signs_cut]
  rfl

theorem ranges_char {c : Char} (items : List Item) :
    ranges (.char c :: items.flatMap Item.signs) =
      (c, c) :: ranges (items.flatMap Item.signs) := by
  cases items with
  | nil => rfl
  | cons i items => cases i <;> rfl

theorem ranges_flatMap_signs (items : List Item) :
    ranges (items.flatMap Item.signs) = items.map Item.ends := by
  induction items with
  | nil => rfl
  | cons i items ih =>
      cases i with
      | single c =>
          rw [List.flatMap_cons, Item.signs, List.singleton_append, ranges_char, ih]
          rfl
      | range first last =>
          rw [List.flatMap_cons, List.map_cons, ← ih]
          rfl

end Pieces

/-- A set as it is written: whether an exclamation mark opens it, and what it lists. -/
structure CharSet where
  negated : Bool
  items : List Item
  deriving DecidableEq, Repr

namespace CharSet

/-- A set takes the characters that one of its items holds, a negated one all others. -/
def Takes (chars : CharSet) (c : Char) : Prop :=
  (∃ i ∈ chars.items, i.Holds c) ↔ chars.negated = false

instance {chars : CharSet} {c : Char} : Decidable (chars.Takes c) :=
  inferInstanceAs (Decidable (_ ↔ _))

/-- What comes after an exclamation mark that stands in front; a range that the mark begins falls
apart. -/
def unmarked? : List Item → Option (List Item)
  | .single '!' :: rest => some rest
  | .range '!' last :: rest => some (.single '-' :: .single last :: rest)
  | _ => none

/-- What counts as the set: if reversed ranges open it and an exclamation mark follows, it is the
negated set of what comes after the mark. -/
def settled (chars : CharSet) : CharSet :=
  if chars.negated then chars
  else
    match unmarked? (chars.items.dropWhile Item.isReversed) with
    | some rest => ⟨true, rest⟩
    | none => chars

/-- Reversed ranges make no difference. -/
theorem takes_kept {negated : Bool} {items : List Item} {c : Char} :
    Takes ⟨negated, kept items⟩ c ↔ Takes ⟨negated, items⟩ c := by
  have hkept : (∃ i ∈ kept items, i.Holds c) ↔ ∃ i ∈ items, i.Holds c := by
    constructor
    · rintro ⟨i, hi, hc⟩
      exact ⟨i, (List.mem_filter.1 hi).1, hc⟩
    · rintro ⟨i, hi, hc⟩
      refine ⟨i, List.mem_filter.2 ⟨hi, ?_⟩, hc⟩
      rw [Bool.not_eq_true', Bool.eq_false_iff]
      exact fun hreversed => Item.not_holds_of_isReversed hreversed hc
  rw [Takes, Takes, hkept]

end CharSet

theorem takes_set_iff {negated : Bool} {items : List Item} {c : Char} :
    (Token.set negated (items.map Item.ends)).takes c = true ↔
      CharSet.Takes ⟨negated, items⟩ c := by
  rw [Token.takes, CharSet.Takes, List.any_map]
  cases negated <;> simp [Item.holds_iff]

theorem kept_dropWhile (items : List Item) :
    kept (items.dropWhile Item.isReversed) = kept items := by
  induction items with
  | nil => rfl
  | cons i items ih =>
      cases hi : i.isReversed with
      | true => rw [List.dropWhile_cons_of_pos hi, ih]; simp [kept, hi]
      | false => rw [List.dropWhile_cons_of_neg (by simp [hi])]

theorem kept_cons {i : Item} (hi : i.isReversed = false) (items : List Item) :
    kept (i :: items) = i :: kept items := by
  simp [kept, hi]

theorem unmarked?_kept (items : List Item) : CharSet.unmarked? (kept items) =
    (CharSet.unmarked? (items.dropWhile Item.isReversed)).map kept := by
  rw [← kept_dropWhile]
  cases hitems : items.dropWhile Item.isReversed with
  | nil => rfl
  | cons i rest =>
      have hi : i.isReversed = false := by
        have hhead := List.head?_dropWhile_not Item.isReversed items
        simpa [hitems] using hhead
      rw [kept_cons hi]
      cases i with
      | single c => by_cases hc : c = '!' <;> simp [CharSet.unmarked?, hc]
      | range first last =>
          by_cases hfirst : first = '!' <;>
            simp [CharSet.unmarked?, hfirst, kept, Item.isReversed]

theorem setToken_of_mark {s : List Char} {rest : List Sign}
    (h : signs (pieces s) = .char '!' :: rest) : setToken s = .set true (ranges rest) := by
  rw [setToken, h]
  rfl

theorem setToken_of_no_mark {s : List Char} (h : ∀ rest, signs (pieces s) ≠ .char '!' :: rest) :
    setToken s = .set false (ranges (signs (pieces s))) := by
  rw [setToken]
  split
  · rename_i rest heq
    exact absurd heq (h rest)
  · rfl

theorem exists_signs_of_unmarked? {items rest : List Item}
    (h : CharSet.unmarked? items = some rest) :
    ∃ after, items.flatMap Item.signs = .char '!' :: after ∧ ranges after = rest.map Item.ends := by
  unfold CharSet.unmarked? at h
  split at h
  · cases h
    exact ⟨_, rfl, ranges_flatMap_signs _⟩
  · rename_i last more
    cases h
    refine ⟨.hyphen :: .char last :: more.flatMap Item.signs, rfl, ?_⟩
    rw [ranges, ranges_char, ranges_flatMap_signs]
    · rfl
    · simp
  · cases h

theorem signs_ne_of_unmarked? {items : List Item} (h : CharSet.unmarked? items = none)
    (rest : List Sign) : items.flatMap Item.signs ≠ .char '!' :: rest := by
  intro heq
  cases items with
  | nil => cases heq
  | cons i items =>
      cases i with
      | single c =>
          cases heq
          cases h
      | range first last =>
          cases heq
          cases h

/-- What the reader makes of a set with an exclamation mark in front. -/
theorem Lists.takes_setToken_marked {s : List Char} {items : List Item} (h : Lists s items)
    {c : Char} : (setToken ('!' :: s)).takes c = true ↔ CharSet.Takes ⟨true, items⟩ c := by
  rw [setToken_of_mark h.signs_pieces_marked, ranges_flatMap_signs, takes_set_iff,
    CharSet.takes_kept]

/-- What it makes of any other set. -/
theorem Lists.takes_setToken {s : List Char} {items : List Item} (h : Lists s items)
    (hs : s.head? ≠ some '!') {c : Char} :
    (setToken s).takes c = true ↔ (CharSet.settled ⟨false, items⟩).Takes c := by
  have hsigns := h.signs_pieces hs
  have hkept := unmarked?_kept items
  rw [CharSet.settled, if_neg (by simp)]
  cases hmark : CharSet.unmarked? (items.dropWhile Item.isReversed) with
  | none =>
      rw [hmark] at hkept
      have hplain : ∀ rest, signs (pieces s) ≠ .char '!' :: rest := by
        rw [hsigns]
        exact signs_ne_of_unmarked? hkept
      rw [setToken_of_no_mark hplain, hsigns, ranges_flatMap_signs, takes_set_iff,
        CharSet.takes_kept]
  | some rest =>
      rw [hmark] at hkept
      obtain ⟨after, heq, hafter⟩ := exists_signs_of_unmarked? hkept
      rw [setToken_of_mark (hsigns.trans heq), hafter, takes_set_iff, CharSet.takes_kept]

end Wildcard
end Fallow
