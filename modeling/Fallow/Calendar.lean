import Fallow.Number.Numeral

/-!
# Calendar

Dates of the Gregorian calendar with a time of day and, unless it is local time of an unknown zone,
a distance from universal time, and the seconds since 1970 that stand for them.
-/

namespace Fallow

structure Stamp where
  year : Int
  month : Int
  day : Int
  hour : Int
  minute : Int
  second : Int
  microsecond : Int := 0
  /-- Minutes ahead of universal time, if the zone is known. -/
  offset : Option Int := some 0
  deriving DecidableEq, Repr

namespace Stamp

inductive Error where
  | noSuchDate
  | beyondClock
  | beyondWord
  deriving DecidableEq, Repr

def isLeap (year : Int) : Bool :=
  year % 4 = 0 && (year % 100 ≠ 0 || year % 400 = 0)

def daysInMonth (year month : Int) : Int :=
  if month = 2 then (if isLeap year then 29 else 28)
  else if month = 4 || month = 6 || month = 9 || month = 11 then 30 else 31

def isValid (t : Stamp) : Bool :=
  1 ≤ t.year && t.year ≤ 9999 && 1 ≤ t.month && t.month ≤ 12
    && 1 ≤ t.day && t.day ≤ daysInMonth t.year t.month
    && 0 ≤ t.hour && t.hour < 24 && 0 ≤ t.minute && t.minute < 60
    && 0 ≤ t.second && t.second < 60 && 0 ≤ t.microsecond && t.microsecond < 1000000
    && t.offset.all fun minutes => -1440 < minutes && minutes < 1440

def check (t : Stamp) : Except Error Stamp :=
  if t.isValid then .ok t else .error .noSuchDate

/-- The last digits of a number, at least `width` of them. -/
def padded (width : Nat) (n : Int) : String :=
  let ds := Numeral.natDigits n.natAbs
  String.ofList (List.replicate (width - ds.length) '0' ++ ds)

def offsetText (minutes : Int) : String :=
  (if minutes < 0 then "-" else "+") ++ padded 2 (minutes.natAbs / 60 : Nat) ++ ":"
    ++ padded 2 (minutes.natAbs % 60 : Nat)

/-- Date, time and distance from universal time; parts of a second only if there are any. -/
def text (t : Stamp) : String :=
  padded 4 t.year ++ "-" ++ padded 2 t.month ++ "-" ++ padded 2 t.day
    ++ "T" ++ padded 2 t.hour ++ ":" ++ padded 2 t.minute ++ ":" ++ padded 2 t.second
    ++ (if t.microsecond = 0 then "" else "." ++ padded 6 t.microsecond)
    ++ (t.offset.map offsetText).getD ""

/-- Year, month and day of a day counted from 1970. Years are counted from March on, in periods of
400 years, so that the leap day is the last of its year. -/
def dateOfDay (day : Int) : Int × Int × Int :=
  let z := day + 719468
  let era := z / 146097
  let doe := z % 146097
  let yoe := (doe - doe / 1460 + doe / 36524 - doe / 146096) / 365
  let doy := doe - (365 * yoe + yoe / 4 - yoe / 100)
  let mp := (5 * doy + 2) / 153
  let month := if mp < 10 then mp + 3 else mp - 9
  (yoe + era * 400 + (if month ≤ 2 then 1 else 0), month, doy - (153 * mp + 2) / 5 + 1)

def ofEpoch (seconds : Int) : Except Error Stamp :=
  if seconds < -9223372036854775808 || 9223372036854775808 ≤ seconds then .error .beyondWord
  else if seconds < -67768040609740800 || 67768036191676800 ≤ seconds then .error .beyondClock
  else
    let (year, month, day) := dateOfDay (seconds / 86400)
    let rest := seconds % 86400
    check { year, month, day, hour := rest / 3600, minute := rest / 60 % 60, second := rest % 60 }

end Stamp
end Fallow
