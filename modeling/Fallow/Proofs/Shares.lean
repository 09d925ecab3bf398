import Fallow.Metrics
import Fallow.Proofs.Spelling
import Fallow.Proofs.Splitting
import Mathlib.Algebra.Order.BigOperators.Group.List
import Mathlib.Algebra.Order.Ring.Int

/-!
# Shares in percent

The summary of a metrics document gives beside each strictness the share of its files, rounded
down. The rounding is that of the floor for every sign of the two numbers, so that the printed
shares of the strictnesses that have files make up at most a hundred, and more than a hundred less
their number. What has more than `Numeral.maxDigits` digits is not printed, and ends the summary.
-/

namespace Fallow.Metrics

section Rounding

variable {value total q r : Int}

/-- A share in percent, rounded down. -/
def IsShare (value total q : Int) : Prop :=
  (0 < total → q * total ≤ 100 * value ∧ 100 * value < (q + 1) * total) ∧
    (total < 0 → 100 * value ≤ q * total ∧ (q + 1) * total < 100 * value)

def share (value total : Int) : Int :=
  (value * 100).fdiv total

theorem IsShare.neg (h : IsShare value total q) : IsShare (-value) (-total) q := by
  obtain ⟨hpos, hneg⟩ := h
  unfold IsShare
  rw [Int.mul_neg, Int.mul_neg, Int.mul_neg]
  refine ⟨fun htotal => ?_, fun htotal => ?_⟩
  · have hbounds := hneg (by omega)
    omega
  · have hbounds := hpos (by omega)
    omega

theorem isShare_neg : IsShare (-value) (-total) q ↔ IsShare value total q :=
  ⟨fun h => by simpa only [Int.neg_neg] using h.neg, IsShare.neg⟩

theorem share_neg : share (-value) (-total) = share value total := by
  rw [share, Int.neg_mul, Int.neg_fdiv_neg, share]

theorem isShare_share_of_pos (h : 0 < total) : IsShare value total (share value total) := by
  have hlower : total * (value * 100).fdiv total ≤ value * 100 := Int.mul_fdiv_self_le h
  have hupper := Int.lt_fdiv_add_one_mul_self (value * 100) h
  rw [Int.mul_comm] at hlower
  refine ⟨fun _ => ?_, fun hneg => by omega⟩
  rw [share]
  omega

theorem isShare_share (value : Int) (h : total ≠ 0) : IsShare value total (share value total) := by
  rcases Int.lt_or_gt_of_ne h with hneg | hpos
  · rw [← isShare_neg, ← share_neg]
    exact isShare_share_of_pos (by omega)
  · exact isShare_share_of_pos hpos

theorem IsShare.le_of_pos (h : 0 < total) (hq : IsShare value total q)
    (hr : IsShare value total r) : q ≤ r := by
  have hlt : q * total < (r + 1) * total := Int.lt_of_le_of_lt (hq.1 h).1 (hr.1 h).2
  exact Int.le_of_lt_add_one (Int.lt_of_mul_lt_mul_right hlt (Int.le_of_lt h))

theorem IsShare.unique (h : total ≠ 0) (hq : IsShare value total q) (hr : IsShare value total r) :
    q = r := by
  rcases Int.lt_or_gt_of_ne h with hneg | hpos
  · rw [← isShare_neg] at hq hr
    exact Int.le_antisymm (hq.le_of_pos (by omega) hr) (hr.le_of_pos (by omega) hq)
  · exact Int.le_antisymm (hq.le_of_pos hpos hr) (hr.le_of_pos hpos hq)

theorem isShare_iff (h : total ≠ 0) : IsShare value total q ↔ q = share value total :=
  ⟨fun hq => hq.unique h (isShare_share value h), fun hq => hq ▸ isShare_share value h⟩

end Rounding

/-! ### Sums of shares -/

section Sums

variable {total : Int}

theorem sum_share_mul_le (h : 0 < total) (values : List Int) :
    (values.map (share · total)).sum * total ≤ 100 * values.sum := by
  induction values with
  | nil => simp
  | cons value values ih =>
      have hvalue := ((isShare_share value (Int.ne_of_gt h)).1 h).1
      rw [List.map_cons, List.sum_cons, List.sum_cons, Int.add_mul]
      omega

theorem sum_le_sum_share_mul (h : 0 < total) (values : List Int) :
    100 * values.sum + values.length ≤
      ((values.map (share · total)).sum + values.length) * total := by
  induction values with
  | nil => simp
  | cons value values ih =>
      have hvalue := ((isShare_share value (Int.ne_of_gt h)).1 h).2
      rw [Int.add_mul] at hvalue ih
      rw [List.map_cons, List.sum_cons, List.sum_cons, List.length_cons, Int.add_mul, Int.add_mul,
        Int.natCast_add, Int.add_mul]
      omega

end Sums

/-! ### The printed shares -/

/-- A share as it is printed. -/
def shareText (q : Int) : String :=
  " (" ++ toString q ++ "%)"

theorem shareText_injective {q r : Int} (h : shareText q = shareText r) : q = r := by
  rw [← String.toList_inj] at h
  simp only [shareText, ← Numeral.text_eq_toString, Numeral.text, String.toList_append,
    String.toList_ofList] at h
  exact Numeral.intDigits_injective (List.append_cancel_left (List.append_cancel_right h))

theorem percent_eq_some_iff {value total : Int} (h : total ≠ 0) {s : String} :
    percent value total = some s ↔
      (share value total).natAbs < 10 ^ Numeral.maxDigits ∧ s = shareText (share value total) := by
  have htext (t : String) : Numeral.text? (share value total) = some t ↔
      (share value total).natAbs < 10 ^ Numeral.maxDigits ∧ t = toString (share value total) :=
    Numeral.text?_eq_some_iff
  rw [percent, if_neg h, ← share]
  simp only [bind, Option.bind_eq_some_iff, htext, pure, Option.some.injEq, shareText]
  grind

/-- The number that is printed is the share and nothing else is, if the share is short enough. -/
theorem percent_eq_shareText_iff {value total q : Int} (h : total ≠ 0) :
    percent value total = some (shareText q) ↔
      IsShare value total q ∧ q.natAbs < 10 ^ Numeral.maxDigits := by
  rw [percent_eq_some_iff h, isShare_iff h]
  constructor
  · rintro ⟨hshort, htext⟩
    obtain rfl := shareText_injective htext
    exact ⟨rfl, hshort⟩
  · rintro ⟨rfl, hshort⟩
    exact ⟨hshort, rfl⟩

theorem percent_eq_none_iff {value total q : Int} (h : IsShare value total q) (htotal : total ≠ 0) :
    percent value total = none ↔ 10 ^ Numeral.maxDigits ≤ q.natAbs := by
  obtain rfl := (isShare_iff htotal).1 h
  rw [← Nat.not_lt, Option.eq_none_iff_forall_ne_some]
  simp only [ne_eq, percent_eq_some_iff htotal]
  grind

/-- The strictnesses that have files, with their numbers. -/
def counted (m : Metrics) : List (String × Int) :=
  m.filesByStrictness.filter (·.2 ≠ 0)

/-- The line of one strictness. -/
def shareLine (e : String × Int) (q : Int) : String :=
  "  " ++ e.1 ++ ": " ++ toString e.2 ++ shareText q ++ "\n"

/-- The shares that the summary prints, one for each strictness that has files. -/
def Prints (m : Metrics) (shares : List Int) : Prop :=
  shares.length = m.counted.length ∧ ∃ rest, m.shown.1 =
    "Sigils:\n  files: " ++ toString m.filesCount ++ "\n" ++
      String.join (List.zipWith shareLine m.counted shares) ++ "\nClasses & Modules:\n" ++ rest

theorem foldl_add_eq (es : List (String × Int)) (start : Int) :
    es.foldl (fun total e => total + e.2) start =
      start + ((es.filter (·.2 ≠ 0)).map (·.2)).sum := by
  induction es generalizing start with
  | nil => simp
  | cons e es ih =>
      rw [List.foldl_cons, ih]
      by_cases h : e.2 = 0
      · simp [h]
      · simp [h, Int.add_assoc]

theorem sum_eq_filesCount (m : Metrics) : (m.counted.map (·.2)).sum = m.filesCount := by
  rw [filesCount, foldl_add_eq, Int.zero_add, counted]

/-- Lines that can be printed are, whatever follows. -/
theorem printed_append (lines : List String) (rest : List (Option String)) :
    printed (lines.map some ++ rest) =
      (String.join (lines.map (· ++ "\n")) ++ (printed rest).1, (printed rest).2) := by
  induction lines with
  | nil => simp
  | cons line lines ih =>
      simp only [List.map_cons, List.cons_append, printed, ih, String.join_cons,
        String.append_assoc]

theorem printed_append_pair (first second : String) (rest : List (Option String)) :
    printed ([some first, some second] ++ rest) =
      (first ++ "\n" ++ (second ++ "\n" ++ (printed rest).1), (printed rest).2) :=
  rfl

theorem summary_eq (m : Metrics) : ∃ rest, m.summary =
    [some "Sigils:", line "files" m.filesCount] ++
      m.counted.map (fun e => line e.1 e.2 (percent e.2 m.filesCount)) ++
        ([some "", some "Classes & Modules:"] ++ rest) :=
  ⟨_, rfl⟩

theorem line_eq_none (label : String) {value : Int} (h : 10 ^ Numeral.maxDigits ≤ value.natAbs)
    (note : Option String) : line label value note = none := by
  rw [line, Numeral.text?_eq_none_iff.2 h]
  rfl

theorem line_eq_some (label : String) {value : Int} (h : value.natAbs < 10 ^ Numeral.maxDigits)
    (note : String) :
    line label value (some note) = some ("  " ++ label ++ ": " ++ toString value ++ note) := by
  rw [line, Numeral.text?_eq_some_iff.2 ⟨h, rfl⟩]
  rfl

/-- If there are too many files to be counted, the heading is all that is printed. -/
theorem shown_of_overlong {m : Metrics} (h : 10 ^ Numeral.maxDigits ≤ m.filesCount.natAbs) :
    m.shown = ("Sigils:\n", .error .tooManyDigits) := by
  obtain ⟨rest, hsummary⟩ := summary_eq m
  rw [shown, hsummary, line_eq_none _ h]
  rfl

theorem line_share {total : Int} (h : total ≠ 0) {e : String × Int}
    (hcount : e.2.natAbs < 10 ^ Numeral.maxDigits)
    (hshare : (share e.2 total).natAbs < 10 ^ Numeral.maxDigits) :
    line e.1 e.2 (percent e.2 total) =
      some ("  " ++ e.1 ++ ": " ++ toString e.2 ++ shareText (share e.2 total)) := by
  rw [(percent_eq_some_iff h).2 ⟨hshare, rfl⟩, line_eq_some _ hcount]

theorem prints_share {m : Metrics} (h : m.filesCount ≠ 0)
    (hfiles : m.filesCount.natAbs < 10 ^ Numeral.maxDigits)
    (hshort : ∀ e ∈ m.counted, e.2.natAbs < 10 ^ Numeral.maxDigits ∧
      (share e.2 m.filesCount).natAbs < 10 ^ Numeral.maxDigits) :
    m.Prints (m.counted.map fun e => share e.2 m.filesCount) := by
  obtain ⟨rest, hsummary⟩ := summary_eq m
  refine ⟨List.length_map _, (printed rest).1, ?_⟩
  have hlines : m.counted.map (fun e => line e.1 e.2 (percent e.2 m.filesCount)) =
      (m.counted.map fun e => "  " ++ e.1 ++ ": " ++ toString e.2 ++
        shareText (share e.2 m.filesCount)).map some := by
    rw [List.map_map]
    exact List.map_congr_left fun e he => line_share h (hshort e he).1 (hshort e he).2
  have hjoin : (m.counted.map fun e => "  " ++ e.1 ++ ": " ++ toString e.2 ++
        shareText (share e.2 m.filesCount)).map (· ++ "\n") =
      List.zipWith shareLine m.counted (m.counted.map fun e => share e.2 m.filesCount) := by
    rw [List.map_map, List.zipWith_map_right, List.zipWith_self]
    rfl
  rw [shown, hsummary, hlines, line_eq_some _ hfiles, List.append_assoc,
    printed_append_pair, printed_append, printed_append_pair, hjoin]
  rw [← String.toList_inj]
  simp

/-- A numeral ends at the percent sign. -/
theorem intDigits_append_inj {q r : Int} {s t : List Char}
    (h : Numeral.intDigits q ++ '%' :: s = Numeral.intDigits r ++ '%' :: t) : q = r ∧ s = t := by
  have hstop : ∀ (i : Int), ∀ c ∈ Numeral.intDigits i, (c != '%') = true := by
    intro i c hc
    have hdigit := Numeral.eq_minus_or_isAsciiDigit_of_mem_intDigits hc
    rw [bne_iff_ne]
    rintro rfl
    revert hdigit
    decide
  obtain ⟨hdigits, hrest⟩ := Text.append_inj_of_stop (hstop q) (hstop r) (by simp) (by simp) h
  exact ⟨Numeral.intDigits_injective hdigits, (List.cons.inj hrest).2⟩

theorem shareLine_append_inj {e : String × Int} {q r : Int} {s t : String}
    (h : shareLine e q ++ s = shareLine e r ++ t) : q = r ∧ s = t := by
  simp only [shareLine, shareText, String.append_assoc, String.append_right_inj] at h
  rw [← String.toList_inj] at h
  simp only [← Numeral.text_eq_toString, Numeral.text, String.toList_append,
    String.toList_ofList] at h
  obtain ⟨hq, hrest⟩ := intDigits_append_inj h
  exact ⟨hq, String.toList_inj.1 (by simpa using hrest)⟩

theorem eq_of_join_shareLine {es : List (String × Int)} {qs rs : List Int} {s t : String}
    (hqs : qs.length = es.length) (hrs : rs.length = es.length)
    (h : String.join (List.zipWith shareLine es qs) ++ s =
      String.join (List.zipWith shareLine es rs) ++ t) : qs = rs := by
  induction es generalizing qs rs with
  | nil => rw [List.eq_nil_of_length_eq_zero hqs, List.eq_nil_of_length_eq_zero hrs]
  | cons e es ih =>
      obtain ⟨q, qs, rfl⟩ := List.exists_cons_of_length_eq_add_one hqs
      obtain ⟨r, rs, rfl⟩ := List.exists_cons_of_length_eq_add_one hrs
      simp only [List.zipWith_cons_cons, String.join_cons, String.append_assoc] at h
      obtain ⟨rfl, hrest⟩ := shareLine_append_inj h
      rw [ih (Nat.succ.inj hqs) (Nat.succ.inj hrs) hrest]

theorem Prints.unique {m : Metrics} {qs rs : List Int} (hqs : m.Prints qs) (hrs : m.Prints rs) :
    qs = rs := by
  obtain ⟨hlength, rest, hshown⟩ := hqs
  obtain ⟨hlength', rest', hshown'⟩ := hrs
  rw [hshown] at hshown'
  simp only [String.append_assoc, String.append_right_inj] at hshown'
  exact eq_of_join_shareLine hlength hlength' hshown'

theorem Prints.shown_ne {m : Metrics} {shares : List Int} (h : m.Prints shares)
    {e : Except Error Unit} : m.shown ≠ ("Sigils:\n", e) := by
  obtain ⟨-, rest, hshown⟩ := h
  intro heq
  rw [heq, ← String.toList_inj] at hshown
  simp at hshown

section Consistency

variable {m : Metrics}

theorem count_mem_range (hnonneg : ∀ e ∈ m.filesByStrictness, 0 ≤ e.2) {e : String × Int}
    (he : e ∈ m.counted) : 0 ≤ e.2 ∧ e.2 ≤ m.filesCount := by
  have hall : ∀ n ∈ m.counted.map (·.2), 0 ≤ n := by
    intro n hn
    obtain ⟨e, he, rfl⟩ := List.mem_map.1 hn
    exact hnonneg e (List.mem_of_mem_filter he)
  have hmem : e.2 ∈ m.counted.map (·.2) := List.mem_map_of_mem he
  have hupper := List.single_le_sum hall _ hmem
  rw [sum_eq_filesCount] at hupper
  exact ⟨hall _ hmem, hupper⟩

variable (hpos : 0 < m.filesCount)
include hpos

theorem share_mem_range (hnonneg : ∀ e ∈ m.filesByStrictness, 0 ≤ e.2) {e : String × Int}
    (he : e ∈ m.counted) : 0 ≤ share e.2 m.filesCount ∧ share e.2 m.filesCount ≤ 100 := by
  obtain ⟨hlower, hupper⟩ := count_mem_range hnonneg he
  obtain ⟨hle, hlt⟩ := (isShare_share e.2 (Int.ne_of_gt hpos)).1 hpos
  constructor
  · have hone : 0 * m.filesCount < (share e.2 m.filesCount + 1) * m.filesCount := by omega
    exact Int.le_of_lt_add_one (Int.lt_of_mul_lt_mul_right hone (Int.le_of_lt hpos))
  · have hhundred : share e.2 m.filesCount * m.filesCount ≤ 100 * m.filesCount := by omega
    exact Int.le_of_mul_le_mul_right hhundred hpos

/-- No number that is printed up to the shares is longer than that of all files, or than 100. -/
theorem prints_share_of_nonneg (hnonneg : ∀ e ∈ m.filesByStrictness, 0 ≤ e.2)
    (hfiles : m.filesCount.natAbs < 10 ^ Numeral.maxDigits) :
    m.Prints (m.counted.map fun e => share e.2 m.filesCount) := by
  refine prints_share (Int.ne_of_gt hpos) hfiles fun e he => ⟨?_, ?_⟩
  · obtain ⟨hlower, hupper⟩ := count_mem_range hnonneg he
    exact Nat.lt_of_le_of_lt (by omega) hfiles
  · obtain ⟨hlower, hupper⟩ := share_mem_range hpos hnonneg he
    have hhundred : 10 ^ 2 < 10 ^ Numeral.maxDigits :=
      Nat.pow_lt_pow_right (by decide) (by decide)
    exact Nat.lt_of_le_of_lt (by omega) hhundred

theorem counted_length_pos : 0 < m.counted.length := by
  rw [List.length_pos_iff]
  intro hnil
  have hcount := sum_eq_filesCount m
  rw [hnil, List.map_nil, List.sum_nil] at hcount
  omega

theorem sum_share_le : (m.counted.map fun e => share e.2 m.filesCount).sum ≤ 100 := by
  have hsum := sum_share_mul_le hpos (m.counted.map (·.2))
  rw [sum_eq_filesCount, List.map_map] at hsum
  exact Int.le_of_mul_le_mul_right hsum hpos

/-- Each of the shares falls short by less than one. -/
theorem lt_sum_share :
    100 - (m.counted.length : Int) < (m.counted.map fun e => share e.2 m.filesCount).sum := by
  have hsum := sum_le_sum_share_mul hpos (m.counted.map (·.2))
  rw [sum_eq_filesCount, List.map_map, List.length_map] at hsum
  have hlength := counted_length_pos hpos
  have hlt : 100 * m.filesCount <
      ((m.counted.map fun e => share e.2 m.filesCount).sum + m.counted.length) * m.filesCount :=
    Int.lt_of_lt_of_le (by omega) hsum
  exact Int.sub_right_lt_of_lt_add (Int.lt_of_mul_lt_mul_right hlt (Int.le_of_lt hpos))

end Consistency

/-- The shares that a summary prints are determined by its text. If no strictness has a negative
number of files, some have files and the number of all can be printed, each share is between 0 and
100, and together they make up at most 100 and more than 100 less their number. A longer number of
files ends the summary before the first share. The number that is printed for a share is its floor,
whatever the signs, and none is printed exactly if the floor is too long. -/
theorem shares_consistent :
    (∀ m : Metrics, (∀ e ∈ m.filesByStrictness, 0 ≤ e.2) → 0 < m.filesCount →
      (m.filesCount.natAbs < 10 ^ Numeral.maxDigits →
        ∃ shares, (∀ given, m.Prints given ↔ given = shares) ∧
          (∀ q ∈ shares, 0 ≤ q ∧ q ≤ 100) ∧
          100 - (m.counted.length : Int) < shares.sum ∧ shares.sum ≤ 100) ∧
      (10 ^ Numeral.maxDigits ≤ m.filesCount.natAbs →
        m.shown = ("Sigils:\n", .error .tooManyDigits))) ∧
    ∀ value total : Int, total ≠ 0 → ∃ floor, (∀ q, IsShare value total q ↔ q = floor) ∧
      (∀ q : Int, percent value total = some (" (" ++ toString q ++ "%)") ↔
        q = floor ∧ floor.natAbs < 10 ^ Numeral.maxDigits) ∧
      (percent value total = none ↔ 10 ^ Numeral.maxDigits ≤ floor.natAbs) := by
  refine ⟨fun m hnonneg hpos => ⟨fun hfiles => ?_, shown_of_overlong⟩, fun value total h => ?_⟩
  · have hprints := prints_share_of_nonneg hpos hnonneg hfiles
    refine ⟨_, fun given => ⟨fun hgiven => hgiven.unique hprints, fun heq => heq ▸ hprints⟩,
      fun q hq => ?_, lt_sum_share hpos, sum_share_le hpos⟩
    obtain ⟨e, he, rfl⟩ := List.mem_map.1 hq
    exact share_mem_range hpos hnonneg he
  · refine ⟨share value total, fun q => isShare_iff h, fun q => ?_,
      percent_eq_none_iff (isShare_share value h) h⟩
    rw [← isShare_iff h]
    constructor
    · intro htext
      obtain ⟨hshare, hshort⟩ := (percent_eq_shareText_iff h).1 htext
      exact ⟨hshare, (isShare_iff h).1 hshare ▸ hshort⟩
    · rintro ⟨hshare, hshort⟩
      exact (percent_eq_shareText_iff h).2 ⟨hshare, (isShare_iff h).1 hshare ▸ hshort⟩

/-- Three strictnesses of one file each: a third is rounded down three times. -/
def thirds : Metrics :=
  ⟨[("types.input.files.sigil.false", 1), ("types.input.files.sigil.true", 1),
    ("types.input.files.sigil.strict", 1)]⟩

theorem shares_consistent_thirds :
    ((∀ e ∈ thirds.filesByStrictness, 0 ≤ e.2) ∧ 0 < thirds.filesCount ∧
      thirds.filesCount.natAbs < 10 ^ Numeral.maxDigits ∧
      ∃ shares, thirds.Prints shares ∧ (∀ q ∈ shares, 0 ≤ q ∧ q ≤ 100) ∧
        97 < shares.sum ∧ shares.sum ≤ 100) ∧
    percent (-1) 3 = some (" (" ++ toString (-34) ++ "%)") ∧
      percent 1 (-3) = some (" (" ++ toString (-34) ++ "%)") := by
  have hcounts : thirds.filesByStrictness = [("ignore", 0), ("false", 1), ("true", 1),
      ("strict", 1), ("strong", 0), ("__STDLIB_INTERNAL", 0)] := by
    decide
  have hnonneg : ∀ e ∈ thirds.filesByStrictness, 0 ≤ e.2 := by
    rw [hcounts]
    decide
  have hfiles : thirds.filesCount = 3 := by
    rw [filesCount, hcounts]
    rfl
  have hpos : 0 < thirds.filesCount := by
    rw [hfiles]
    decide
  have hlength : thirds.counted.length = 3 := by
    rw [counted, hcounts]
    rfl
  have hshort : 10 ^ 2 < 10 ^ Numeral.maxDigits := Nat.pow_lt_pow_right (by decide) (by decide)
  have hfew : thirds.filesCount.natAbs < 10 ^ Numeral.maxDigits := by
    rw [hfiles]
    exact Nat.lt_trans (by decide) hshort
  have hpercent {value total : Int} (h : total ≠ 0) (hq : IsShare value total (-34)) :
      percent value total = some (" (" ++ toString (-34) ++ "%)") := by
    obtain ⟨floor, hfloor, htext, -⟩ := shares_consistent.2 value total h
    obtain rfl := (hfloor _).1 hq
    exact (htext _).2 ⟨rfl, Nat.lt_trans (by decide) hshort⟩
  obtain ⟨shares, hprints, hrange, hlower, hupper⟩ :=
    (shares_consistent.1 thirds hnonneg hpos).1 hfew
  rw [hlength] at hlower
  refine ⟨⟨hnonneg, hpos, hfew, shares, (hprints shares).2 rfl, hrange, hlower, hupper⟩, ?_, ?_⟩
  · exact hpercent (by decide) ⟨by decide, by decide⟩
  · exact hpercent (by decide) ⟨by decide, by decide⟩

/-- More files than can be printed. -/
def countless : Metrics :=
  ⟨[("types.input.files.sigil.true", 10 ^ Numeral.maxDigits)]⟩

theorem filesByStrictness_countless : countless.filesByStrictness = [("ignore", 0), ("false", 0),
    ("true", 10 ^ Numeral.maxDigits), ("strict", 0), ("strong", 0), ("__STDLIB_INTERNAL", 0)] := by
  simp [filesByStrictness, sigils, countless, get, List.lookup_cons]

theorem filesCount_countless : countless.filesCount = 10 ^ Numeral.maxDigits := by
  rw [filesCount, filesByStrictness_countless]
  simp only [List.foldl_cons, List.foldl_nil, Int.zero_add, Int.add_zero]

theorem isShare_pow (n : Nat) : IsShare (10 ^ n) 1 (10 ^ (n + 2)) := by
  have hpow : (10 : Int) ^ (n + 2) = 100 * 10 ^ n := by
    rw [Int.pow_succ, Int.pow_succ]
    omega
  refine ⟨fun _ => ?_, fun hneg => absurd hneg (by decide)⟩
  omega

theorem percent_pow {n : Nat} (h : Numeral.maxDigits ≤ n + 2) : percent (10 ^ n) 1 = none := by
  rw [percent_eq_none_iff (isShare_pow n) (by decide), Int.natAbs_pow]
  exact Nat.pow_le_pow_right (by decide) h

/-- Counts that are not negative and have a positive sum, of which no share is printed; and a share
that `percent` does not print. -/
theorem shares_overlong :
    ((∀ e ∈ countless.filesByStrictness, 0 ≤ e.2) ∧ 0 < countless.filesCount ∧
      countless.shown = ("Sigils:\n", .error .tooManyDigits) ∧
      ¬ ∃ shares, countless.Prints shares) ∧
    IsShare (10 ^ 4298) 1 (10 ^ 4300) ∧ percent (10 ^ 4298) 1 = none ∧
      ¬ ∃ q : Int, percent (10 ^ 4298) 1 = some (" (" ++ toString q ++ "%)") := by
  have hpos : (0 : Int) < 10 ^ Numeral.maxDigits := Int.pow_pos (by decide)
  have hshown : countless.shown = ("Sigils:\n", .error .tooManyDigits) := by
    refine shown_of_overlong ?_
    rw [filesCount_countless, Int.natAbs_pow]
    exact Nat.pow_le_pow_left (by decide) _
  have hshare : IsShare (10 ^ 4298) 1 (10 ^ 4300) := isShare_pow 4298
  have hnone : percent (10 ^ 4298) 1 = none := percent_pow (by decide)
  refine ⟨⟨?_, ?_, hshown, ?_⟩, hshare, hnone, ?_⟩
  · rw [filesByStrictness_countless]
    simp only [List.forall_mem_cons, List.not_mem_nil, false_implies, implies_true, and_true]
    refine ⟨?_, ?_, Int.le_of_lt hpos, ?_, ?_, ?_⟩ <;> exact Int.le_refl 0
  · rw [filesCount_countless]
    exact hpos
  · rintro ⟨shares, hprints⟩
    exact hprints.shown_ne hshown
  · rintro ⟨q, hq⟩
    rw [hnone] at hq
    cases hq

end Fallow.Metrics
