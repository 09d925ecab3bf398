import Fallow.Calendar
import Mathlib.Tactic.IntervalCases

/-!
# Dates

The date of a day is found by arithmetic in periods of 400 years, in which years start in March.
Here the days are counted year by year and month by month from year 1 on. A moment is found for
every second of the years 1 to 9999, and it is the one that lies so many seconds after the start of
1970 by that count; there is no other.
-/

namespace Fallow.Stamp

def daysInYear (year : Int) : Int :=
  if isLeap year then 366 else 365

/-- The days of so many years, from year 1 on. -/
def daysOfYears : Nat → Int
  | 0 => 0
  | n + 1 => daysOfYears n + daysInYear (n + 1)

/-- The days of so many months of a year, from January on. -/
def daysOfMonths (year : Int) : Nat → Int
  | 0 => 0
  | n + 1 => daysOfMonths year n + daysInMonth year (n + 1)

/-- The days that lie between the start of 1970 and a date. -/
def dayNumber (year month day : Int) : Int :=
  daysOfYears (year - 1).toNat + daysOfMonths year (month - 1).toNat + (day - 1)
    - daysOfYears 1969

/-- The seconds that lie between the start of 1970 and a moment of universal time. -/
def seconds (t : Stamp) : Int :=
  dayNumber t.year t.month t.day * 86400 + t.hour * 3600 + t.minute * 60 + t.second

/-- A moment of universal time that lies so many seconds after the start of 1970. -/
structure IsAt (t : Stamp) (epoch : Int) : Prop where
  valid : t.isValid = true
  whole : t.microsecond = 0
  universal : t.offset = some 0
  seconds_eq : t.seconds = epoch

theorem isLeap_iff {year : Int} :
    isLeap year = true ↔ year % 4 = 0 ∧ (year % 100 ≠ 0 ∨ year % 400 = 0) := by
  simp [isLeap]

/-- The days up to the start of March of a year, of which every fourth has a day more, but of the
hundredth ones only every fourth. -/
def marchStart (year : Int) : Int :=
  365 * year + year / 4 - year / 100 + year / 400

theorem marchStart_eq_add (year : Int) :
    marchStart year = marchStart (year - 1) + daysInYear year := by
  rw [daysInYear, marchStart, marchStart]
  by_cases h : isLeap year = true
  · rw [if_pos h]
    rw [isLeap_iff] at h
    omega
  · rw [if_neg h]
    rw [isLeap_iff] at h
    omega

theorem daysOfYears_eq (n : Nat) : daysOfYears n = marchStart n := by
  induction n with
  | zero => rfl
  | succ n ih =>
      rw [daysOfYears, ih, marchStart_eq_add (n + 1 : Nat)]
      push_cast
      rw [Int.add_sub_cancel]

/-! ### Years that start in March -/

/-- A day of a period of 400 years: its century, the four years and the year of these that it is in,
and its number in that year. The leap day is the last day of a year. -/
structure Parts (n c q k d : Int) : Prop where
  sum : n = 36524 * c + 1461 * q + 365 * k + d
  century : 0 ≤ c ∧ c ≤ 3
  four : 0 ≤ q ∧ q ≤ 24
  year : 0 ≤ k ∧ k ≤ 3
  day : 0 ≤ d ∧ d ≤ 365
  leap : d = 365 → k = 3 ∧ (q = 24 → c = 3)

theorem exists_parts {n : Int} (h : 0 ≤ n) (hlt : n < 146097) : ∃ c q k d, Parts n c q k d := by
  obtain ⟨c, hc⟩ : ∃ c, c = min (n / 36524) 3 := ⟨_, rfl⟩
  obtain ⟨q, hq⟩ : ∃ q, q = (n - 36524 * c) / 1461 := ⟨_, rfl⟩
  obtain ⟨k, hk⟩ : ∃ k, k = min ((n - 36524 * c - 1461 * q) / 365) 3 := ⟨_, rfl⟩
  exact ⟨c, q, k, n - 36524 * c - 1461 * q - 365 * k, by omega, by omega, by omega, by omega,
    by omega, by omega⟩

namespace Parts

variable {n c q k d : Int}

/-- The quotient by 1460 falls behind the leap days by at most one, at the end of a year. -/
theorem year_eq (h : Parts n c q k d) :
    (n - n / 1460 + n / 36524 - n / 146096) / 365 = 100 * c + 4 * q + k := by
  obtain ⟨hsum, hc, hq, hk, hd, hleap⟩ := h
  have hfours : n / 1460 = 25 * c + q ∨ n / 1460 = 25 * c + q + 1 := by omega
  have hstart : d = 0 → n / 1460 = 25 * c + q := by omega
  have hend : d = 365 → n / 1460 = 25 * c + q + 1 := by omega
  have hcenturies : n / 36524 = c ∧ n / 146096 = 0 ∨ n / 36524 = c + 1 ∧ n / 146096 = 1 := by omega
  omega

theorem day_eq (h : Parts n c q k d) :
    n - (365 * (100 * c + 4 * q + k) + (100 * c + 4 * q + k) / 4
      - (100 * c + 4 * q + k) / 100) = d := by
  obtain ⟨hsum, hc, hq, hk, -, -⟩ := h
  omega

theorem marchStart_add (h : Parts n c q k d) (era : Int) :
    marchStart (100 * c + 4 * q + k + era * 400) + d = 146097 * era + n := by
  obtain ⟨hsum, hc, hq, hk, -, -⟩ := h
  rw [marchStart]
  omega

theorem lt_daysInYear (h : Parts n c q k d) (era : Int) :
    d < daysInYear (100 * c + 4 * q + k + era * 400 + 1) := by
  obtain ⟨-, hc, hq, hk, hd, hleap⟩ := h
  by_cases hlast : d = 365
  · obtain ⟨hk, hq⟩ := hleap hlast
    have hyear : isLeap (100 * c + 4 * q + k + era * 400 + 1) = true := isLeap_iff.2 (by omega)
    rw [daysInYear, if_pos hyear]
    omega
  · rw [daysInYear]
    split <;> omega

end Parts

/-- The date of a day of a year that starts in March. -/
def marchDate (year day : Int) : Int × Int × Int :=
  let mp := (5 * day + 2) / 153
  let month := if mp < 10 then mp + 3 else mp - 9
  (year + (if month ≤ 2 then 1 else 0), month, day - (153 * mp + 2) / 5 + 1)

/-- Every day is one of a year that starts in March. -/
theorem exists_marchDate (n : Int) :
    ∃ year day, dateOfDay n = marchDate year day ∧ marchStart year + day = n + 719468 ∧
      0 ≤ day ∧ day < daysInYear (year + 1) := by
  have hlow : 0 ≤ (n + 719468) % 146097 := Int.emod_nonneg _ (by decide)
  have hhigh : (n + 719468) % 146097 < 146097 := Int.emod_lt_of_pos _ (by decide)
  obtain ⟨c, q, k, d, hparts⟩ := exists_parts hlow hhigh
  refine ⟨100 * c + 4 * q + k + (n + 719468) / 146097 * 400, d, ?_, ?_, hparts.day.1,
    hparts.lt_daysInYear _⟩
  · simp only [dateOfDay, hparts.year_eq, hparts.day_eq, marchDate]
  · rw [hparts.marchStart_add]
    exact Int.mul_ediv_add_emod _ _

theorem daysInMonth_two (year : Int) : daysInMonth year 2 = daysInYear year - 337 := by
  rw [daysInMonth, daysInYear, if_pos rfl]
  split <;> rfl

theorem daysInYear_cases (year : Int) : daysInYear year = 365 ∨ daysInYear year = 366 := by
  rw [daysInYear]
  split
  · exact .inr rfl
  · exact .inl rfl

theorem dayNumber_eq {year : Int} (h : 1 ≤ year) (month day : Int) :
    dayNumber year month day =
      marchStart (year - 1) + daysOfMonths year (month - 1).toNat + day - 719163 := by
  have hyears : ((year - 1).toNat : Int) = year - 1 := by omega
  have hstart : daysOfYears 1969 = 719162 := by
    rw [daysOfYears_eq]
    rfl
  rw [dayNumber, daysOfYears_eq, hyears, hstart]
  omega

/-- From March on the months have 31, 30, 31, 30 and 31 days over and over again. -/
theorem daysInMonth_eq (year : Int) {mp : Int} (h : 0 ≤ mp) (hlt : mp < 10) :
    daysInMonth year (mp + 3) = (153 * (mp + 1) + 2) / 5 - (153 * mp + 2) / 5 := by
  interval_cases mp <;> rfl

theorem daysOfMonths_eq (year : Int) {mp : Nat} (hlt : mp < 10) :
    daysOfMonths year (mp + 2) = daysInYear year - 306 + (153 * (mp : Int) + 2) / 5 := by
  induction mp with
  | zero =>
      have htwo := daysInMonth_two year
      change 0 + 31 + daysInMonth year 2 = daysInYear year - 306 + 0
      omega
  | succ mp ih =>
      have hmonth := @daysInMonth_eq year mp (by omega) (by omega)
      have hbefore := ih (by omega)
      rw [show mp + 1 + 2 = (mp + 2) + 1 from rfl, daysOfMonths, hbefore]
      push_cast
      rw [Int.add_assoc (mp : Int) 2 1, show (2 : Int) + 1 = 3 from rfl, hmonth]
      omega

/-- A date of the calendar, of whatever year. -/
structure IsDate (year month day : Int) : Prop where
  one_le_month : 1 ≤ month
  month_le : month ≤ 12
  one_le_day : 1 ≤ day
  day_le : day ≤ daysInMonth year month

theorem isDate_marchDate {year day : Int} (h : 0 ≤ day) (hlt : day < daysInYear (year + 1)) :
    IsDate (marchDate year day).1 (marchDate year day).2.1 (marchDate year day).2.2 ∧
      (1 ≤ (marchDate year day).1 →
        dayNumber (marchDate year day).1 (marchDate year day).2.1 (marchDate year day).2.2 =
          marchStart year + day - 719468) := by
  have hlength := daysInYear_cases (year + 1)
  obtain ⟨mp, hmp⟩ : ∃ mp, mp = (5 * day + 2) / 153 := ⟨_, rfl⟩
  simp only [marchDate, ← hmp]
  by_cases hearly : mp < 10
  -- from March to December the calendar year is the same
  · have hlow : 0 ≤ mp := by omega
    have hmonth : ¬ mp + 3 ≤ 2 := by omega
    have hdays := daysInMonth_eq year hlow hearly
    rw [if_pos hearly, if_neg hmonth, Int.add_zero]
    refine ⟨⟨by omega, by omega, by omega, by omega⟩, fun hyear => ?_⟩
    have hmonths := @daysOfMonths_eq year mp.toNat (by omega)
    have hstart := marchStart_eq_add year
    rw [dayNumber_eq hyear, show (mp + 3 - 1).toNat = mp.toNat + 2 by omega, hmonths]
    omega
  -- January and February are those of the next calendar year
  · have hmonth : mp - 9 ≤ 2 := by omega
    rw [if_neg hearly, if_pos hmonth]
    have htwo := daysInMonth_two (year + 1)
    obtain rfl | rfl : mp = 10 ∨ mp = 11 := by omega
    · have hone : daysInMonth (year + 1) (10 - 9) = 31 := rfl
      refine ⟨⟨by omega, by omega, by omega, by omega⟩, fun hyear => ?_⟩
      rw [dayNumber_eq hyear, Int.add_sub_cancel]
      change marchStart year + 0 + _ - _ = _
      omega
    · refine ⟨⟨by omega, by omega, by omega, ?_⟩, fun hyear => ?_⟩
      · change _ ≤ daysInMonth (year + 1) 2
        omega
      · rw [dayNumber_eq hyear, Int.add_sub_cancel]
        change marchStart year + (0 + 31) + _ - _ = _
        omega

theorem dateOfDay_exact (n : Int) :
    IsDate (dateOfDay n).1 (dateOfDay n).2.1 (dateOfDay n).2.2 ∧
      (1 ≤ (dateOfDay n).1 →
        dayNumber (dateOfDay n).1 (dateOfDay n).2.1 (dateOfDay n).2.2 = n) := by
  obtain ⟨year, day, hdate, hsum, hday, hlt⟩ := exists_marchDate n
  obtain ⟨hisDate, hnumber⟩ := isDate_marchDate hday hlt
  rw [hdate]
  refine ⟨hisDate, fun hyear => ?_⟩
  rw [hnumber hyear]
  omega

/-- The days of the years 1 to 9999. -/
theorem year_dateOfDay {n : Int} (hlow : -719162 ≤ n) (hhigh : n ≤ 2932896) :
    1 ≤ (dateOfDay n).1 ∧ (dateOfDay n).1 ≤ 9999 := by
  obtain ⟨year, day, hdate, hsum, hday, hlt⟩ := exists_marchDate n
  have hlength := daysInYear_cases (year + 1)
  have hfirst : 0 ≤ year := by
    rw [marchStart] at hsum
    omega
  have hlast : year ≤ 9999 := by
    rw [marchStart] at hsum
    omega
  have hzero : year = 0 → 306 ≤ day := by
    rintro rfl
    change 0 + day = _ at hsum
    omega
  have hend : year = 9999 → day ≤ 305 := by
    rintro rfl
    change 3652059 + day = _ at hsum
    omega
  rw [hdate]
  simp only [marchDate]
  by_cases hearly : (5 * day + 2) / 153 < 10
  · rw [if_pos hearly, if_neg (by omega)]
    omega
  · rw [if_neg hearly, if_pos (by omega)]
    omega

/-! ### Counting days -/

theorem daysInMonth_pos (year month : Int) : 0 < daysInMonth year month := by
  rw [daysInMonth]
  split_ifs <;> decide

/-- A count that no step lessens is never less further on. -/
theorem le_of_steps {f : Nat → Int} (hf : ∀ n, f n ≤ f (n + 1)) {m n : Nat} (h : m ≤ n) :
    f m ≤ f n := by
  induction h with
  | refl => exact Int.le_refl _
  | step _ ih => exact Int.le_trans ih (hf _)

/-- Each number lies in one interval of such a count. -/
theorem eq_of_between {f : Nat → Int} (hf : ∀ n, f n ≤ f (n + 1)) {m n : Nat} {x : Int}
    (hm : f m ≤ x) (hm' : x < f (m + 1)) (hn : f n ≤ x) (hn' : x < f (n + 1)) : m = n := by
  rcases Nat.lt_trichotomy m n with hlt | heq | hgt
  · have hle : f (m + 1) ≤ f n := le_of_steps hf hlt
    omega
  · exact heq
  · have hle : f (n + 1) ≤ f m := le_of_steps hf hgt
    omega

theorem daysOfMonths_le_succ (year : Int) (n : Nat) :
    daysOfMonths year n ≤ daysOfMonths year (n + 1) := by
  have hpos := daysInMonth_pos year (n + 1)
  rw [daysOfMonths]
  omega

theorem daysOfYears_le_succ (n : Nat) : daysOfYears n ≤ daysOfYears (n + 1) := by
  have hlength := daysInYear_cases (n + 1)
  rw [daysOfYears]
  omega

theorem daysOfMonths_twelve (year : Int) : daysOfMonths year 12 = daysInYear year := by
  have hmonths := @daysOfMonths_eq year 9 (by decide)
  have hlast : daysInMonth year 12 = 31 := rfl
  rw [daysOfMonths, hmonths]
  change _ + daysInMonth year 12 = _
  omega

namespace IsDate

variable {year month day : Int}

theorem lt_daysOfMonths (h : IsDate year month day) :
    daysOfMonths year (month - 1).toNat + (day - 1) <
      daysOfMonths year ((month - 1).toNat + 1) := by
  have hmonth := h.one_le_month
  have hday := h.day_le
  have hnumber : ((month - 1).toNat : Int) + 1 = month := by omega
  rw [daysOfMonths, hnumber]
  omega

theorem lt_daysInYear (h : IsDate year month day) :
    daysOfMonths year (month - 1).toNat + (day - 1) < daysInYear year := by
  have hmonth := h.month_le
  have hlast : (month - 1).toNat + 1 ≤ 12 := by omega
  have hle := le_of_steps (daysOfMonths_le_succ year) hlast
  rw [daysOfMonths_twelve] at hle
  exact Int.lt_of_lt_of_le h.lt_daysOfMonths hle

/-- A date lies in its year. -/
theorem between_daysOfYears (h : IsDate year month day) (hyear : 1 ≤ year) :
    daysOfYears (year - 1).toNat ≤ dayNumber year month day + daysOfYears 1969 ∧
      dayNumber year month day + daysOfYears 1969 < daysOfYears ((year - 1).toNat + 1) := by
  have hmonths : 0 ≤ daysOfMonths year (month - 1).toNat :=
    le_of_steps (daysOfMonths_le_succ year) (Nat.zero_le _)
  have hlt := h.lt_daysInYear
  have hday := h.one_le_day
  have hnumber : ((year - 1).toNat : Int) + 1 = year := by omega
  have hnext : daysOfYears ((year - 1).toNat + 1) =
      daysOfYears (year - 1).toNat + daysInYear year := by
    rw [daysOfYears, hnumber]
  rw [hnext, dayNumber]
  omega

/-- A day has one date. -/
theorem eq_of_dayNumber {year' month' day' : Int} (h : IsDate year month day)
    (h' : IsDate year' month' day') (hyear : 1 ≤ year) (hyear' : 1 ≤ year')
    (heq : dayNumber year month day = dayNumber year' month' day') :
    year = year' ∧ month = month' ∧ day = day' := by
  obtain ⟨hlow, hhigh⟩ := h.between_daysOfYears hyear
  obtain ⟨hlow', hhigh'⟩ := h'.between_daysOfYears hyear'
  rw [← heq] at hlow' hhigh'
  have hyears := eq_of_between daysOfYears_le_succ hlow hhigh hlow' hhigh'
  obtain rfl : year = year' := by omega
  have hrest : daysOfMonths year (month - 1).toNat + (day - 1) =
      daysOfMonths year (month' - 1).toNat + (day' - 1) := by
    rw [dayNumber, dayNumber] at heq
    omega
  have hday := h.one_le_day
  have hday' := h'.one_le_day
  have hlt := h.lt_daysOfMonths
  have hlt' := h'.lt_daysOfMonths
  rw [← hrest] at hlt'
  have hmonths := eq_of_between (daysOfMonths_le_succ year) (by omega) hlt (by omega) hlt'
  have hmonth := h.one_le_month
  have hmonth' := h'.one_le_month
  obtain rfl : month = month' := by omega
  exact ⟨rfl, rfl, by omega⟩

end IsDate

/-! ### Moments -/

theorem isDate_iff {year month day : Int} : IsDate year month day ↔
    1 ≤ month ∧ month ≤ 12 ∧ 1 ≤ day ∧ day ≤ daysInMonth year month := by
  constructor
  · rintro ⟨hmonth, hmonth', hday, hday'⟩
    exact ⟨hmonth, hmonth', hday, hday'⟩
  · rintro ⟨hmonth, hmonth', hday, hday'⟩
    exact ⟨hmonth, hmonth', hday, hday'⟩

theorem isValid_iff {t : Stamp} : t.isValid = true ↔
    (1 ≤ t.year ∧ t.year ≤ 9999) ∧ IsDate t.year t.month t.day ∧
      (0 ≤ t.hour ∧ t.hour < 24) ∧ (0 ≤ t.minute ∧ t.minute < 60) ∧
      (0 ≤ t.second ∧ t.second < 60) ∧ (0 ≤ t.microsecond ∧ t.microsecond < 1000000) ∧
      (t.offset.all fun minutes => -1440 < minutes && minutes < 1440) = true := by
  simp only [isValid, isDate_iff, Bool.and_eq_true, decide_eq_true_eq, and_assoc]

/-- There is one moment at a number of seconds. -/
theorem IsAt.unique {t t' : Stamp} {epoch : Int} (h : t.IsAt epoch) (h' : t'.IsAt epoch) :
    t = t' := by
  obtain ⟨hvalid, hwhole, huniversal, hseconds⟩ := h
  obtain ⟨hvalid', hwhole', huniversal', hseconds'⟩ := h'
  obtain ⟨⟨hyear, -⟩, hdate, hhour, hminute, hsecond, -, -⟩ := isValid_iff.1 hvalid
  obtain ⟨⟨hyear', -⟩, hdate', hhour', hminute', hsecond', -, -⟩ := isValid_iff.1 hvalid'
  rw [seconds] at hseconds hseconds'
  have hday : dayNumber t.year t.month t.day = dayNumber t'.year t'.month t'.day := by omega
  obtain ⟨hy, hm, hd⟩ := hdate.eq_of_dayNumber hdate' hyear hyear' hday
  have hh : t.hour = t'.hour := by omega
  have hmin : t.minute = t'.minute := by omega
  have hs : t.second = t'.second := by omega
  cases t
  cases t'
  simp_all

/-- The moment of each second of the years 1 to 9999 is found. -/
theorem exists_ofEpoch_eq_ok {epoch : Int} (hlow : -62135596800 ≤ epoch)
    (hhigh : epoch ≤ 253402300799) : ∃ t, ofEpoch epoch = .ok t ∧ t.IsAt epoch := by
  obtain ⟨hdate, hnumber⟩ := dateOfDay_exact (epoch / 86400)
  have hyear := @year_dateOfDay (epoch / 86400) (by omega) (by omega)
  have hword : ¬ (epoch < -9223372036854775808 || 9223372036854775808 ≤ epoch) = true := by
    simp only [Bool.or_eq_true, decide_eq_true_eq]
    omega
  have hclock : ¬ (epoch < -67768040609740800 || 67768036191676800 ≤ epoch) = true := by
    simp only [Bool.or_eq_true, decide_eq_true_eq]
    omega
  rw [ofEpoch, if_neg hword, if_neg hclock]
  generalize dateOfDay (epoch / 86400) = date at hdate hnumber hyear
  obtain ⟨year, month, day⟩ := date
  have hhour : 0 ≤ epoch % 86400 / 3600 ∧ epoch % 86400 / 3600 < 24 := by omega
  have hminute : 0 ≤ epoch % 86400 / 60 % 60 ∧ epoch % 86400 / 60 % 60 < 60 := by omega
  have hsecond : 0 ≤ epoch % 86400 % 60 ∧ epoch % 86400 % 60 < 60 := by omega
  have hwhole : (0 : Int) ≤ 0 ∧ (0 : Int) < 1000000 := by decide
  have hvalid : isValid ⟨year, month, day, epoch % 86400 / 3600, epoch % 86400 / 60 % 60,
      epoch % 86400 % 60, 0, some 0⟩ = true :=
    isValid_iff.2 ⟨hyear, hdate, hhour, hminute, hsecond, hwhole, rfl⟩
  refine ⟨_, if_pos hvalid, hvalid, rfl, rfl, ?_⟩
  rw [seconds, hnumber hyear.1]
  change epoch / 86400 * 86400 + epoch % 86400 / 3600 * 3600 + epoch % 86400 / 60 % 60 * 60
    + epoch % 86400 % 60 = epoch
  omega

end Fallow.Stamp
