import Fallow.Location
import Fallow.Proofs.Spelling
import Fallow.Proofs.Splitting

/-!
# Printed locations

The text of a location tells where it is. A file name may hold the separators as well, so the text
is taken apart from its end: the coordinates hold no colon, and between the two that a hyphen
separates the first hyphen that is not a sign is the separator.
-/

namespace Fallow

/-- There is one way to cut a text at the last occurrence of a character. -/
theorem cut_at_last {c : Char} {s t x y : List Char} (hx : c ∉ x) (hy : c ∉ y)
    (h : s ++ c :: x = t ++ c :: y) : s = t ∧ x = y := by
  have hstop : ∀ {l : List Char}, c ∉ l → ∀ a ∈ l.reverse, (a != c) = true := by
    intro l hl a ha
    rw [bne_iff_ne]
    rintro rfl
    exact hl (List.mem_reverse.1 ha)
  have hreversed : x.reverse ++ c :: s.reverse = y.reverse ++ c :: t.reverse := by
    simpa using congrArg List.reverse h
  obtain ⟨hright, hleft⟩ :=
    Text.append_inj_of_stop (hstop hx) (hstop hy) (by simp) (by simp) hreversed
  exact ⟨List.reverse_inj.1 (List.cons.inj hleft).2, List.reverse_inj.1 hright⟩

namespace Numeral

theorem colon_not_mem_intDigits (i : Int) : ':' ∉ intDigits i := fun h =>
  absurd (eq_minus_or_isAsciiDigit_of_mem_intDigits h) (by decide)

theorem minus_not_mem_natDigits (n : Nat) : '-' ∉ natDigits n := fun h =>
  absurd (isAsciiDigit_of_mem_natDigits h) (by decide)

theorem natDigits_append_ne_minus {n : Nat} {s t : List Char} : natDigits n ++ s ≠ '-' :: t := by
  obtain ⟨m, ds, -, heq, -⟩ := natDigits_eq_cons n
  intro h
  have hfirst : '-' ∈ natDigits n := by
    rw [heq, List.cons_append] at h
    rw [heq, (List.cons.inj h).1]
    exact List.mem_cons_self
  exact minus_not_mem_natDigits n hfirst

theorem natDigits_append_minus_inj {m n : Nat} {s t : List Char}
    (h : natDigits m ++ '-' :: s = natDigits n ++ '-' :: t) : m = n ∧ s = t := by
  have hstop : ∀ (rest : List Char) c, ('-' :: rest).head? = some c →
      Text.isAsciiDigit c = false := by
    rintro rest c ⟨⟩
    rfl
  obtain ⟨hdigits, hrest⟩ := Text.append_inj_of_stop (fun _ => isAsciiDigit_of_mem_natDigits)
    (fun _ => isAsciiDigit_of_mem_natDigits) (hstop s) (hstop t) h
  exact ⟨natDigits_injective hdigits, (List.cons.inj hrest).2⟩

/-- An integer is told apart from what follows a hyphen behind it: a hyphen before its digits is its
sign, and the first one after them is the separator. -/
theorem intDigits_append_minus_inj {i j : Int} {s t : List Char}
    (h : intDigits i ++ '-' :: s = intDigits j ++ '-' :: t) : i = j ∧ s = t := by
  by_cases hi : i < 0 <;> by_cases hj : j < 0 <;> simp only [intDigits, hi, hj, ↓reduceIte] at h
  · obtain ⟨habs, hrest⟩ := natDigits_append_minus_inj (List.cons.inj h).2
    exact ⟨by omega, hrest⟩
  · exact absurd h.symm natDigits_append_ne_minus
  · exact absurd h natDigits_append_ne_minus
  · obtain ⟨habs, hrest⟩ := natDigits_append_minus_inj h
    exact ⟨by omega, hrest⟩

end Numeral

namespace Location

open Numeral (intDigits)

/-- The text of a location, put together from its end. -/
theorem toList_text (l : Location) : l.text.toList =
    ((l.file.toList ++ ':' :: intDigits l.startLine)
      ++ ':' :: (intDigits l.startColumn ++ '-' :: intDigits l.endLine))
      ++ ':' :: intDigits l.endColumn := by
  simp [text, Numeral.text]

/-- A printed location identifies its place, whatever the file is called. -/
theorem text_eq_text_iff {a b : Location} : a.text = b.text ↔ a = b := by
  refine ⟨fun h => ?_, congrArg text⟩
  have hlists := congrArg String.toList h
  rw [toList_text, toList_text] at hlists
  have hrange : ∀ l : Location,
      ':' ∉ intDigits l.startColumn ++ '-' :: intDigits l.endLine := fun l => by
    simp [Numeral.colon_not_mem_intDigits]
  obtain ⟨hlists, hendColumn⟩ := cut_at_last (Numeral.colon_not_mem_intDigits _)
    (Numeral.colon_not_mem_intDigits _) hlists
  obtain ⟨hlists, hmiddle⟩ := cut_at_last (hrange a) (hrange b) hlists
  obtain ⟨hfile, hstartLine⟩ := cut_at_last (Numeral.colon_not_mem_intDigits _)
    (Numeral.colon_not_mem_intDigits _) hlists
  obtain ⟨hstartColumn, hendLine⟩ := Numeral.intDigits_append_minus_inj hmiddle
  cases a
  cases b
  simp only [mk.injEq]
  exact ⟨String.toList_inj.1 hfile, Numeral.intDigits_injective hstartLine, hstartColumn,
    Numeral.intDigits_injective hendLine, Numeral.intDigits_injective hendColumn⟩

end Location
end Fallow
