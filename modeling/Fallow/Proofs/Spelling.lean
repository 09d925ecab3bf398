import Fallow.Json.Printer
import Fallow.Json.Reader
import Mathlib.Tactic.IntervalCases

/-!
# Texts and numerals of documents

What the printer writes for a text or an integer is what the reader reads back. A character beyond
the basic plane is written as two escapes, which the reader puts together again. An integer can
be printed and read only if it has at most `Numeral.maxDigits` digits.
-/

namespace Fallow

namespace Json

theorem hexValue?_hexDigit {n : Nat} (h : n < 16) : hexValue? (Text.hexDigit n) = some n := by
  revert n
  decide

theorem hexDigits_four (n : Nat) : Text.hexDigits 4 n =
    [Text.hexDigit (n / 16 / 16 / 16 % 16), Text.hexDigit (n / 16 / 16 % 16),
      Text.hexDigit (n / 16 % 16), Text.hexDigit (n % 16)] := rfl

theorem unit?_hexDigits {n : Nat} (h : n < 0x10000) :
    unit? (Text.hexDigit (n / 16 / 16 / 16 % 16)) (Text.hexDigit (n / 16 / 16 % 16))
      (Text.hexDigit (n / 16 % 16)) (Text.hexDigit (n % 16)) = some n := by
  have hlast : ∀ k, k % 16 < 16 := fun k => Nat.mod_lt k (by decide)
  simp only [unit?, hexValue?_hexDigit (hlast _), bind, Option.bind, pure]
  congr 1
  omega

theorem isHigh_iff {n : Nat} : isHigh n = true ↔ 0xd800 ≤ n ∧ n < 0xdc00 := by
  simp [isHigh]

theorem isLow_iff {n : Nat} : isLow n = true ↔ 0xdc00 ≤ n ∧ n < 0xe000 := by
  simp [isLow]

theorem textStep_unitEscape {n : Nat} (h : n < 0x10000) (hhigh : isHigh n = false)
    (t : List Char) : textStep (unitEscape n ++ t) = .char (unitChar n) t := by
  simp only [unitEscape, hexDigits_four, List.cons_append, List.nil_append, textStep,
    unit?_hexDigits h, hhigh]
  rfl

theorem textStep_pair {high low : Nat} (hhigh : isHigh high = true) (hlow : isLow low = true)
    (t : List Char) :
    textStep (unitEscape high ++ (unitEscape low ++ t)) = .char (pairChar high low) t := by
  have hh : high < 0x10000 := Nat.lt_trans (isHigh_iff.1 hhigh).2 (by decide)
  have hl : low < 0x10000 := Nat.lt_trans (isLow_iff.1 hlow).2 (by decide)
  simp only [unitEscape, hexDigits_four, List.cons_append, List.nil_append, textStep,
    unit?_hexDigits hh, hhigh, lowUnit?, unit?_hexDigits hl, hlow, bind, Option.bind, if_true]

/-- The halves of a character beyond the basic plane. -/
def highHalf (c : Char) : Nat :=
  0xd800 + (c.toNat - 0x10000) / 0x400

def lowHalf (c : Char) : Nat :=
  0xdc00 + (c.toNat - 0x10000) % 0x400

theorem toNat_lt (c : Char) : c.toNat < 0x110000 := by
  rcases c.valid with h | h
  · exact Nat.lt_trans h (by decide)
  · exact h.2

theorem isHigh_highHalf (c : Char) : isHigh (highHalf c) = true := by
  have hlt := toNat_lt c
  rw [isHigh_iff, highHalf]
  omega

theorem isLow_lowHalf (c : Char) : isLow (lowHalf c) = true := by
  rw [isLow_iff, lowHalf]
  omega

theorem pairChar_halves {c : Char} (h : 0x10000 ≤ c.toNat) :
    pairChar (highHalf c) (lowHalf c) = c := by
  have hsum : 0x10000 + (highHalf c - 0xd800) * 0x400 + (lowHalf c - 0xdc00) = c.toNat := by
    unfold highHalf lowHalf
    omega
  rw [pairChar, hsum, Char.ofNat_toNat]

theorem unitChar_toNat (c : Char) : isHigh c.toNat = false ∧ unitChar c.toNat = c := by
  have hvalid : c.toNat < 0xd800 ∨ 0xdfff < c.toNat := by
    rcases c.valid with h | h
    · exact .inl h
    · exact .inr h.1
  have hhigh : isHigh c.toNat = false := by
    rw [← Bool.not_eq_true, isHigh_iff]
    omega
  have hlow : isLow c.toNat = false := by
    rw [← Bool.not_eq_true, isLow_iff]
    omega
  refine ⟨hhigh, ?_⟩
  rw [unitChar, hhigh, hlow]
  exact Char.ofNat_toNat c

theorem textStep_plain {c : Char} (hquote : c ≠ '"') (hslash : c ≠ '\\') (h : 0x20 ≤ c.toNat)
    (t : List Char) : textStep (c :: t) = .char c t := by
  have hspace : ¬ c.toNat < 0x20 := by omega
  rw [textStep.eq_5 c t hquote (fun _ _ _ _ _ heq _ => hslash heq) fun _ _ heq _ => hslash heq]
  simp [hspace, hslash]

theorem textStep_simple {e c : Char} (h : simpleEscape? e = some c) (t : List Char) :
    textStep ('\\' :: e :: t) = .char c t := by
  have hunit : e ≠ 'u' := by
    rintro rfl
    cases h
  rw [textStep.eq_4 e t fun _ _ _ _ _ heq _ => hunit heq, h]

theorem eq_of_toNat_eq {c d : Char} (h : c.toNat = d.toNat) : c = d := by
  rw [← Char.ofNat_toNat c, h, Char.ofNat_toNat]

/-- The characters that a text may hold as they are. -/
def Printable (c : Char) : Prop :=
  0x20 ≤ c.toNat ∧ c.toNat < 0x7f

instance (c : Char) : Decidable (Printable c) :=
  inferInstanceAs (Decidable (_ ∧ _))

/-- What is written for a character. -/
inductive Escaped (c : Char) : List Char → Prop
  | simple {e : Char} (he : Printable e) (hc : simpleEscape? e = some c) : Escaped c ['\\', e]
  | plain (hc : Printable c) (hquote : c ≠ '"') (hslash : c ≠ '\\') : Escaped c [c]
  | unit (hc : c.toNat < 0x10000) : Escaped c (unitEscape c.toNat)
  | pair (hc : 0x10000 ≤ c.toNat) : Escaped c (unitEscape (highHalf c) ++ unitEscape (lowHalf c))

theorem escaped_escapeChar (c : Char) : Escaped c (escapeChar c) := by
  by_cases hquote : c = '"'
  · subst hquote
    exact .simple (by decide : Printable '"') rfl
  by_cases hslash : c = '\\'
  · subst hslash
    exact .simple (by decide : Printable '\\') rfl
  by_cases hfeed : c = '\n'
  · subst hfeed
    exact .simple (by decide : Printable 'n') rfl
  by_cases hreturn : c = '\r'
  · subst hreturn
    exact .simple (by decide : Printable 'r') rfl
  by_cases htab : c = '\t'
  · subst htab
    exact .simple (by decide : Printable 't') rfl
  by_cases hback : c.toNat = 0x08
  · obtain rfl := @eq_of_toNat_eq c '\x08' hback
    exact .simple (by decide : Printable 'b') rfl
  by_cases hpage : c.toNat = 0x0c
  · obtain rfl := @eq_of_toNat_eq c '\x0c' hpage
    exact .simple (by decide : Printable 'f') rfl
  rw [escapeChar, if_neg hquote, if_neg hslash, if_neg hfeed, if_neg hreturn, if_neg htab,
    if_neg hback, if_neg hpage]
  split
  · rename_i hplain
    rw [Bool.and_eq_true, decide_eq_true_eq, decide_eq_true_eq] at hplain
    exact .plain hplain hquote hslash
  · split
    · exact .unit ‹_›
    · exact .pair (Nat.le_of_not_lt ‹_›)

theorem printable_hexDigit {n : Nat} (h : n < 16) : Printable (Text.hexDigit n) := by
  revert n
  decide

theorem printable_unitEscape (n : Nat) : ∀ c ∈ unitEscape n, Printable c := by
  have hlast : ∀ k, Printable (Text.hexDigit (k % 16)) := fun k =>
    printable_hexDigit (Nat.mod_lt k (by decide))
  rw [unitEscape, hexDigits_four]
  simp only [List.forall_mem_cons, hlast]
  exact ⟨by decide, by decide, trivial, trivial, trivial, trivial, List.forall_mem_nil _⟩

theorem toNat_lt_of_simpleEscape? {e c : Char} (h : simpleEscape? e = some c) :
    c.toNat < 0x10000 := by
  rw [simpleEscape?.eq_def] at h
  split at h <;> cases h <;> decide

namespace Escaped

variable {c : Char} {s : List Char}

/-- One step reads what was written for one character. -/
theorem textStep_append (h : Escaped c s) (t : List Char) : textStep (s ++ t) = .char c t := by
  cases h with
  | simple _ hc => exact textStep_simple hc t
  | plain hc hquote hslash => exact textStep_plain hquote hslash hc.1 t
  | unit hc => rw [textStep_unitEscape hc (unitChar_toNat c).1, (unitChar_toNat c).2]
  | pair hc =>
      rw [List.append_assoc, textStep_pair (isHigh_highHalf c) (isLow_lowHalf c),
        pairChar_halves hc]

theorem printable (h : Escaped c s) : ∀ d ∈ s, Printable d := by
  cases h with
  | simple he _ => exact List.forall_mem_cons.2 ⟨by decide, List.forall_mem_singleton.2 he⟩
  | plain hc _ _ => exact List.forall_mem_singleton.2 hc
  | unit _ => exact printable_unitEscape c.toNat
  | pair _ => exact List.forall_mem_append.2 ⟨printable_unitEscape _, printable_unitEscape _⟩

theorem eq_pair (h : Escaped c s) (hbeyond : 0x10000 ≤ c.toNat) :
    s = unitEscape (highHalf c) ++ unitEscape (lowHalf c) := by
  cases h with
  | simple _ hc => exact absurd (toNat_lt_of_simpleEscape? hc) (Nat.not_lt.2 hbeyond)
  | plain hc _ _ => exact absurd hc.2 (by omega)
  | unit hc => exact absurd hc (Nat.not_lt.2 hbeyond)
  | pair _ => rfl

theorem ne_nil (h : Escaped c s) : s ≠ [] := by
  cases h <;> simp [unitEscape]

end Escaped

/-- A text is read back up to its closing quote. -/
theorem readText_escaped (cs rest : List Char) {fuel : Nat} (h : cs.length < fuel) :
    readText fuel (cs.flatMap escapeChar ++ '"' :: rest) = some (cs, rest) := by
  induction cs generalizing fuel with
  | nil =>
      obtain ⟨fuel, rfl⟩ := Nat.exists_eq_add_one.2 h
      rfl
  | cons c cs ih =>
      obtain ⟨fuel, rfl⟩ := Nat.exists_eq_add_one.2 (Nat.zero_lt_of_lt h)
      have hlt : cs.length < fuel := by
        rw [List.length_cons] at h
        omega
      rw [List.flatMap_cons, List.append_assoc, readText,
        (escaped_escapeChar c).textStep_append]
      simp [ih hlt]

theorem length_le_flatMap_escapeChar (cs : List Char) :
    cs.length ≤ (cs.flatMap escapeChar).length := by
  induction cs with
  | nil => simp
  | cons c cs ih =>
      have hpos := List.length_pos_iff.2 (escaped_escapeChar c).ne_nil
      simp only [List.flatMap_cons, List.length_append, List.length_cons]
      omega

theorem renderText_append (s : String) (rest : List Char) :
    renderText s ++ rest = '"' :: (s.toList.flatMap escapeChar ++ '"' :: rest) := by
  simp [renderText]

/-- The reader gives a text as much as it has characters, which is enough. -/
theorem readText_renderText (s : String) (rest : List Char) :
    readText ((s.toList.flatMap escapeChar ++ '"' :: rest).length + 1)
      (s.toList.flatMap escapeChar ++ '"' :: rest) = some (s.toList, rest) := by
  apply readText_escaped
  have hle := length_le_flatMap_escapeChar s.toList
  rw [List.length_append]
  omega

end Json

namespace Numeral

theorem isAsciiDigit_digitChar {n : Nat} (h : n < 10) : Text.isAsciiDigit (digitChar n) = true := by
  revert n
  decide

theorem toNat_digitChar {n : Nat} (h : n < 10) : (digitChar n).toNat - 0x30 = n := by
  revert n
  decide

theorem digitChar_ne_zero {n : Nat} (h : n < 10) : n ≠ 0 → digitChar n ≠ '0' := by
  revert n
  decide

theorem isAsciiDigit_of_mem_natDigits {n : Nat} {c : Char} (h : c ∈ natDigits n) :
    Text.isAsciiDigit c = true := by
  induction n using natDigits.induct with
  | case1 n hn =>
      rw [natDigits, if_pos hn, List.mem_singleton] at h
      rw [h]
      exact isAsciiDigit_digitChar hn
  | case2 n hn ih =>
      rw [natDigits, if_neg hn, List.mem_append, List.mem_singleton] at h
      rcases h with h | rfl
      · exact ih h
      · exact isAsciiDigit_digitChar (Nat.mod_lt n (by decide))

theorem eq_minus_or_isAsciiDigit_of_mem_intDigits {i : Int} {c : Char} (h : c ∈ intDigits i) :
    c = '-' ∨ Text.isAsciiDigit c = true := by
  rw [intDigits] at h
  split at h
  · rcases List.mem_cons.1 h with rfl | h
    · exact .inl rfl
    · exact .inr (isAsciiDigit_of_mem_natDigits h)
  · exact .inr (isAsciiDigit_of_mem_natDigits h)

/-- Digits are read as the number they write. -/
theorem value_natDigits (n : Nat) : value 0 (Json.digitsOf (natDigits n)) = n := by
  induction n using natDigits.induct with
  | case1 n hn =>
      rw [natDigits, if_pos hn]
      simp [Json.digitsOf, value, toNat_digitChar hn]
  | case2 n hn ih =>
      rw [natDigits, if_neg hn, Json.digitsOf, List.map_append, value, List.foldl_append]
      have hlast := toNat_digitChar (Nat.mod_lt n (by decide : 0 < 10))
      rw [value, Json.digitsOf] at ih
      simp only [ih, List.map_cons, List.map_nil, List.foldl_cons, List.foldl_nil, hlast]
      omega

theorem natDigits_eq_cons (n : Nat) :
    ∃ m ds, m < 10 ∧ natDigits n = digitChar m :: ds ∧ (m = 0 → n = 0) := by
  induction n using natDigits.induct with
  | case1 n hn => exact ⟨n, [], hn, by rw [natDigits, if_pos hn], id⟩
  | case2 n hn ih =>
      obtain ⟨m, ds, hm, heq, hzero⟩ := ih
      refine ⟨m, ds ++ [digitChar (n % 10)], hm, ?_, fun h => ?_⟩
      · rw [natDigits, if_neg hn, heq, List.cons_append]
      · have := hzero h
        omega

/-- A number has at most so many digits if it is below that power of ten. -/
theorem length_natDigits_le_iff (n : Nat) {k : Nat} (hk : 0 < k) :
    (natDigits n).length ≤ k ↔ n < 10 ^ k := by
  induction n using natDigits.induct generalizing k with
  | case1 n hn =>
      have hten : 10 ^ 1 ≤ 10 ^ k := Nat.pow_le_pow_right (by decide) hk
      rw [natDigits, if_pos hn, List.length_singleton]
      omega
  | case2 n hn ih =>
      rw [natDigits, if_neg hn, List.length_append, List.length_singleton]
      obtain ⟨j, rfl⟩ := Nat.exists_eq_add_one.2 hk
      rcases Nat.eq_zero_or_pos j with rfl | hj
      · obtain ⟨m, ds, -, heq, -⟩ := natDigits_eq_cons (n / 10)
        rw [heq, List.length_cons]
        omega
      · rw [Nat.add_le_add_iff_right, ih hj, Nat.pow_succ, Nat.div_lt_iff_lt_mul (by decide)]

theorem isPrintable_iff {i : Int} : isPrintable i = true ↔ i.natAbs < 10 ^ maxDigits := by
  rw [isPrintable, decide_eq_true_eq, length_natDigits_le_iff _ (by decide)]

theorem digitChar_eq {n : Nat} (h : n < 10) : digitChar n = Nat.digitChar n := by
  revert n
  decide

theorem natDigits_eq_toDigits (n : Nat) : natDigits n = Nat.toDigits 10 n := by
  induction n using natDigits.induct with
  | case1 n hn => rw [natDigits, if_pos hn, Nat.toDigits_of_lt_base hn, digitChar_eq hn]
  | case2 n hn ih =>
      rw [natDigits, if_neg hn, ih, Nat.toDigits_eq_if (n := n) (by decide), if_neg hn,
        digitChar_eq (Nat.mod_lt n (by decide))]

/-- Numbers are written as everywhere. -/
theorem text_eq_toString (i : Int) : text i = toString i := by
  rw [text, intDigits, natDigits_eq_toDigits]
  cases i with
  | ofNat n =>
      have hnonneg : ¬ Int.ofNat n < 0 := Int.not_lt.2 (Int.natCast_nonneg n)
      show _ = Nat.repr n
      rw [if_neg hnonneg, Nat.repr_eq_ofList_toDigits]
      rfl
  | negSucc n =>
      show _ = "-" ++ Nat.repr (n + 1)
      rw [if_pos (Int.negSucc_lt_zero n), Nat.repr_eq_ofList_toDigits, ← String.toList_inj]
      simp

theorem text_natCast (n : Nat) : text n = toString n :=
  text_eq_toString n

theorem text?_eq_some_iff {i : Int} {s : String} :
    text? i = some s ↔ i.natAbs < 10 ^ maxDigits ∧ s = toString i := by
  rw [text?, ← isPrintable_iff, ← text_eq_toString]
  cases isPrintable i <;> simp [eq_comm]

theorem text?_eq_none_iff {i : Int} : text? i = none ↔ 10 ^ maxDigits ≤ i.natAbs := by
  rw [text?, ← Nat.not_lt, ← isPrintable_iff]
  cases isPrintable i <;> simp

theorem natDigits_injective {m n : Nat} (h : natDigits m = natDigits n) : m = n := by
  rw [← value_natDigits m, h, value_natDigits]

theorem natDigits_ne_minus {n : Nat} {ds : List Char} : natDigits n ≠ '-' :: ds := by
  intro h
  have hminus := @isAsciiDigit_of_mem_natDigits n '-' (by rw [h]; exact List.mem_cons_self)
  simp [Text.isAsciiDigit] at hminus

/-- Integers are told apart by their digits. -/
theorem intDigits_injective {i j : Int} (h : intDigits i = intDigits j) : i = j := by
  by_cases hi : i < 0 <;> by_cases hj : j < 0 <;> simp only [intDigits, hi, hj, ↓reduceIte] at h
  · have habs := natDigits_injective (List.cons.inj h).2
    omega
  · exact absurd h.symm natDigits_ne_minus
  · exact absurd h natDigits_ne_minus
  · have habs := natDigits_injective h
    omega

end Numeral

namespace Json

/-- What may follow a value of a document: nothing, a comma or a line break. -/
def Ends (rest : List Char) : Prop :=
  ∀ c ∈ rest.head?, c = ',' ∨ c = '\n'

theorem ends_nil : Ends [] := by
  simp [Ends]

theorem ends_newline (depth : Nat) (rest : List Char) : Ends (newline depth ++ rest) := by
  simp [Ends, newline]

theorem ends_comma (rest : List Char) : Ends (',' :: rest) := by
  simp [Ends]

theorem readLeaf_digit {n : Nat} (h : n < 10) (t : List Char) :
    readLeaf (Numeral.digitChar n :: t) = readNumber false (Numeral.digitChar n :: t) := by
  interval_cases n <;> rfl

theorem readLeaf_minus_digit {n : Nat} (h : n < 10) (t : List Char) :
    readLeaf ('-' :: Numeral.digitChar n :: t) = readNumber true (Numeral.digitChar n :: t) := by
  interval_cases n <;> rfl

namespace Ends

variable {rest : List Char}

theorem takeWhile_isAsciiDigit (h : Ends rest) : rest.takeWhile Text.isAsciiDigit = [] := by
  cases rest with
  | nil => rfl
  | cons c rest =>
      have hdigit : Text.isAsciiDigit c = false := by
        rcases h c rfl with rfl | rfl <;> rfl
      rw [List.takeWhile_cons_of_neg (by rw [hdigit]; decide)]

theorem dropWhile_isAsciiDigit (h : Ends rest) : rest.dropWhile Text.isAsciiDigit = rest := by
  have happend := List.takeWhile_append_dropWhile (p := Text.isAsciiDigit) (l := rest)
  rwa [h.takeWhile_isAsciiDigit] at happend

theorem readFraction_eq (h : Ends rest) : readFraction rest = ([], rest) := by
  cases rest with
  | nil => rfl
  | cons c rest => rcases h c rfl with rfl | rfl <;> rfl

theorem readExponent_eq (h : Ends rest) : readExponent rest = none := by
  cases rest with
  | nil => rfl
  | cons c rest => rcases h c rfl with rfl | rfl <;> rfl

theorem readWhole_natDigits (h : Ends rest) (n : Nat) :
    readWhole (Numeral.natDigits n ++ rest) = (Numeral.natDigits n, rest) := by
  obtain ⟨m, ds, hm, heq, hzero⟩ := Numeral.natDigits_eq_cons n
  by_cases hm0 : m = 0
  · rw [hzero hm0]
    simp [Numeral.natDigits, Numeral.digitChar, readWhole]
  · have hdigits : ∀ c ∈ Numeral.natDigits n, Text.isAsciiDigit c = true := fun _ hc =>
      Numeral.isAsciiDigit_of_mem_natDigits hc
    have hfirst : ∀ t, Numeral.natDigits n ++ rest = '0' :: t → False := by
      intro t ht
      rw [heq, List.cons_append, List.cons.injEq] at ht
      exact Numeral.digitChar_ne_zero hm hm0 ht.1
    rw [readWhole.eq_2 _ hfirst, List.takeWhile_append_of_pos hdigits,
      List.dropWhile_append_of_pos hdigits, h.takeWhile_isAsciiDigit, h.dropWhile_isAsciiDigit,
      List.append_nil]

/-- A number is read if it is short enough. -/
theorem readNumber_natDigits (h : Ends rest) (negative : Bool) (n : Nat) :
    readNumber negative (Numeral.natDigits n ++ rest) =
      if (Numeral.natDigits n).length ≤ Numeral.maxDigits then
        .ok (.int (if negative then -n else n), rest)
      else .error .tooManyDigits := by
  obtain ⟨m, ds, -, heq, -⟩ := Numeral.natDigits_eq_cons n
  have hne : (Numeral.natDigits n).isEmpty = false := by
    rw [heq]
    rfl
  simp only [readNumber, h.readWhole_natDigits, hne, h.readFraction_eq, h.readExponent_eq,
    Numeral.value_natDigits, Bool.false_eq_true, if_false]

theorem readLeaf_intDigits (h : Ends rest) {i : Int} (hi : Numeral.isPrintable i = true) :
    readLeaf (Numeral.intDigits i ++ rest) = .ok (.int i, rest) := by
  have hshort : (Numeral.natDigits i.natAbs).length ≤ Numeral.maxDigits := of_decide_eq_true hi
  obtain ⟨m, ds, hm, heq, -⟩ := Numeral.natDigits_eq_cons i.natAbs
  by_cases hneg : i < 0
  · have hvalue : -(i.natAbs : Int) = i := by omega
    rw [Numeral.intDigits, if_pos hneg, heq, List.cons_append, List.cons_append,
      readLeaf_minus_digit hm, ← List.cons_append, ← heq, h.readNumber_natDigits, if_pos hshort,
      if_pos rfl, hvalue]
  · have hvalue : (i.natAbs : Int) = i := by omega
    rw [Numeral.intDigits, if_neg hneg, heq, List.cons_append, readLeaf_digit hm,
      ← List.cons_append, ← heq, h.readNumber_natDigits, if_pos hshort,
      if_neg Bool.false_ne_true, hvalue]

end Ends
end Json
end Fallow
