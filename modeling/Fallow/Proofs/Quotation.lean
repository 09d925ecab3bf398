import Fallow.Proofs.Spelling
import Fallow.Text.Quoted

/-!
# Quoted texts

A message that quotes a text names it: no other text is quoted alike, whatever follows the
quotation.
-/

namespace Fallow.Text

def hexNumber (digits : List Char) : Nat :=
  digits.foldl (fun n c => 16 * n + (Json.hexValue? c).getD 0) 0

theorem hexNumber_hexDigits (width n : Nat) : hexNumber (hexDigits width n) = n % 16 ^ width := by
  induction width generalizing n with
  | zero => exact (Nat.mod_one n).symm
  | succ width ih =>
      have hlast : Json.hexValue? (hexDigit (n % 16)) = some (n % 16) :=
        Json.hexValue?_hexDigit (Nat.mod_lt n (by decide))
      have hrest := ih (n / 16)
      unfold hexNumber at hrest ⊢
      rw [hexDigits, List.foldl_append, hrest, List.foldl_cons, List.foldl_nil, hlast,
        Option.getD_some, Nat.pow_succ', Nat.mod_mul, Nat.add_comm]

namespace Quoted

/-- Reads one character of a quotation. -/
def unescape : List Char → Option (Char × List Char)
  | [] => none
  | '\\' :: 't' :: rest => some ('\t', rest)
  | '\\' :: 'n' :: rest => some ('\n', rest)
  | '\\' :: 'r' :: rest => some ('\r', rest)
  | '\\' :: 'x' :: rest => some (Char.ofNat (hexNumber (rest.take 2)), rest.drop 2)
  | '\\' :: 'u' :: rest => some (Char.ofNat (hexNumber (rest.take 4)), rest.drop 4)
  | '\\' :: 'U' :: rest => some (Char.ofNat (hexNumber (rest.take 8)), rest.drop 8)
  | '\\' :: c :: rest => some (c, rest)
  | c :: rest => some (c, rest)

section Escape

variable {mark c d : Char} {s t : List Char}

theorem take_drop_hexDigits (width : Nat) (hc : c.toNat < 16 ^ width) (rest : List Char) :
    (Char.ofNat (hexNumber ((hexDigits width c.toNat ++ rest).take width)),
      (hexDigits width c.toNat ++ rest).drop width) = (c, rest) := by
  have hlength := length_hexDigits width c.toNat
  rw [List.take_left' hlength, List.drop_left' hlength, hexNumber_hexDigits, Nat.mod_eq_of_lt hc,
    Char.ofNat_toNat]

theorem unescape_escape (hmark : mark = '\'' ∨ mark = '"') (c : Char) (rest : List Char) :
    unescape (escape mark c ++ rest) = some (c, rest) := by
  unfold escape
  split
  · rename_i h
    rw [Bool.or_eq_true, decide_eq_true_eq, decide_eq_true_eq] at h
    rcases h with rfl | rfl
    · rcases hmark with rfl | rfl <;> rfl
    · rfl
  · rename_i hplain
    split
    · subst c
      rfl
    split
    · subst c
      rfl
    split
    · subst c
      rfl
    split
    · have hslash : c ≠ '\\' := by
        rintro rfl
        simp at hplain
      simp [unescape, hslash]
    split
    · exact congrArg some (take_drop_hexDigits 2 (by omega) rest)
    split
    · exact congrArg some (take_drop_hexDigits 4 (by omega) rest)
    · exact congrArg some
        (take_drop_hexDigits 8 (Nat.lt_trans (Json.toNat_lt c) (by decide)) rest)

theorem escape_append_inj (hmark : mark = '\'' ∨ mark = '"')
    (h : escape mark c ++ s = escape mark d ++ t) : c = d ∧ s = t := by
  have hsame := unescape_escape hmark c s
  rw [h, unescape_escape hmark d t, Option.some.injEq, Prod.mk.injEq] at hsame
  exact ⟨hsame.1.symm, hsame.2.symm⟩

/-- An escaped character does not look like the end of the quotation. -/
theorem escape_append_ne (hmark : mark = '\'' ∨ mark = '"') :
    escape mark c ++ s ≠ mark :: t := by
  intro h
  have hread := unescape_escape hmark c s
  have hhead : unescape (mark :: t) = some (mark, t) := by
    rcases hmark with rfl | rfl <;> rfl
  rw [h, hhead, Option.some.injEq, Prod.mk.injEq] at hread
  obtain ⟨rfl, -⟩ := hread
  have hslash : escape mark mark = ['\\', mark] := by simp [escape]
  rw [hslash] at h
  obtain rfl : '\\' = mark := (List.cons.inj h).1
  revert hmark
  decide

/-- The text of a quotation is read off up to the mark at its end. -/
theorem flatMap_escape_append_inj (hmark : mark = '\'' ∨ mark = '"') {cs ds : List Char}
    (h : cs.flatMap (escape mark) ++ mark :: s = ds.flatMap (escape mark) ++ mark :: t) :
    cs = ds ∧ s = t := by
  induction cs generalizing ds with
  | nil =>
      cases ds with
      | nil => exact ⟨rfl, (List.cons.inj h).2⟩
      | cons d ds =>
          rw [List.flatMap_cons, List.append_assoc] at h
          exact absurd h.symm (escape_append_ne hmark)
  | cons c cs ih =>
      cases ds with
      | nil =>
          rw [List.flatMap_cons, List.append_assoc] at h
          exact absurd h (escape_append_ne hmark)
      | cons d ds =>
          rw [List.flatMap_cons, List.flatMap_cons, List.append_assoc, List.append_assoc] at h
          obtain ⟨rfl, hrest⟩ := escape_append_inj hmark h
          obtain ⟨rfl, rfl⟩ := ih hrest
          exact ⟨rfl, rfl⟩

end Escape

theorem mark_cases (s : List Char) : mark s = '\'' ∨ mark s = '"' := by
  rw [mark]
  split
  · exact .inr rfl
  · exact .inl rfl

end Quoted

theorem toList_quoted_append (s after : String) : (quoted s ++ after).toList =
    Quoted.mark s.toList :: (s.toList.flatMap (Quoted.escape (Quoted.mark s.toList)) ++
      Quoted.mark s.toList :: after.toList) := by
  simp [quoted]

theorem quoted_append_inj {s t after after' : String}
    (h : quoted s ++ after = quoted t ++ after') : s = t ∧ after = after' := by
  rw [← String.toList_inj, toList_quoted_append, toList_quoted_append] at h
  obtain ⟨hmark, hbody⟩ := List.cons.inj h
  rw [← hmark] at hbody
  obtain ⟨htext, hafter⟩ := Quoted.flatMap_escape_append_inj (Quoted.mark_cases _) hbody
  exact ⟨String.toList_inj.1 htext, String.toList_inj.1 hafter⟩

end Fallow.Text
