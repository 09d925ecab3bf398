import Fallow.Number.Numeral

/-!
# Double-precision numbers

A double is kept as an exact integer multiple of a power of two. Decimal numerals are rounded to
the nearest double, an even mantissa winning a tie; the text of a double has the fewest digits
that read back, and of those the nearest ones.
-/

namespace Fallow

inductive Binary64 where
  | finite (negative : Bool) (mantissa : Nat) (exponent : Int)
  | infinite (negative : Bool)
  | nan
  deriving DecidableEq, Repr

namespace Binary64

def leastExponent : Int := -1074

def twoTo (n : Nat) : Nat := Nat.pow 2 n

def tenTo (n : Nat) : Nat := Nat.pow 10 n

/-- A quotient as a fraction with a power of two moved to the side that keeps it whole. -/
def scaled (num den : Nat) (power : Int) : Nat × Nat :=
  if power < 0 then (num * twoTo power.natAbs, den) else (num, den * twoTo power.natAbs)

/-- The nearest integer to a quotient, the even one of two. -/
def roundEven (num den : Nat) : Nat :=
  let q := num / den
  let twice := 2 * (num % den)
  if twice < den then q
  else if den < twice then q + 1
  else if q % 2 = 0 then q else q + 1

def ofRatio (negative : Bool) (num den : Nat) : Binary64 :=
  let guess : Int := max leastExponent ((num.log2 : Int) - den.log2 - 52)
  let (n, d) := scaled num den guess
  let power := if n / d < twoTo 52 then max leastExponent (guess - 1) else guess
  let (n, d) := scaled num den power
  let m := roundEven n d
  let (m, power) := if m = twoTo 53 then (twoTo 52, power + 1) else (m, power)
  if power > 971 then .infinite negative else .finite negative m power

def ofDecimal (negative : Bool) (digits : Nat) (power : Int) : Binary64 :=
  let magnitude := power + (Numeral.natDigits digits).length
  if digits = 0 || magnitude < -400 then .finite negative 0 leastExponent
  else if magnitude > 400 then .infinite negative
  else if power < 0 then ofRatio negative digits (tenTo power.natAbs)
  else ofRatio negative (digits * tenTo power.natAbs) 1

def isZero : Binary64 → Bool
  | .finite _ m _ => m = 0
  | _ => false

def truncate? : Binary64 → Option Int
  | .finite negative m e =>
    let n : Nat := if e < 0 then m / twoTo e.natAbs else m * twoTo e.natAbs
    some (if negative then -(n : Int) else n)
  | _ => none

/-- Whether a positive quotient rounds to `m * 2 ^ e`: it lies between the middles to the two
neighbours, which belong to an even mantissa. -/
def nears (m : Nat) (e : Int) (num den : Nat) : Bool :=
  -- in units of a quarter of the last place
  let (n, d) := scaled (4 * num) den e
  let low := if m = twoTo 52 && e > leastExponent then 4 * m - 1 else 4 * m - 2
  let high := 4 * m + 2
  if m % 2 = 0 then low * d ≤ n && n ≤ high * d else low * d < n && n < high * d

def decimalRatio (digits : Nat) (power : Int) : Nat × Nat :=
  if power < 0 then (digits, tenTo power.natAbs) else (digits * tenTo power.natAbs, 1)

def natDistance (a b : Nat) : Nat :=
  (a - b) + (b - a)

/-- The shortest digits that read back as `num / den`, with the place of the decimal point. The
value lies in `[10 ^ (point - 1), 10 ^ point)`. -/
def shortestFrom (m : Nat) (e : Int) (num den : Nat) (point : Int) : Nat → Nat → Nat × Int
  | 0, _ => (m, e)
  | tries + 1, count =>
    let power := point - count
    let (n, d) := if power < 0 then (num * tenTo power.natAbs, den)
      else (num, den * tenTo power.natAbs)
    let below := n / d
    let fits (digits : Nat) : Bool :=
      let (a, b) := decimalRatio digits power
      digits != 0 && nears m e a b
    let down := natDistance (below * d) n
    let up := natDistance ((below + 1) * d) n
    -- halfway the even digit is taken
    let nearer := if down < up || (down = up && below % 2 = 0) then below else below + 1
    if fits below && fits (below + 1) then (nearer, power)
    else if fits below then (below, power)
    else if fits (below + 1) then (below + 1, power)
    else shortestFrom m e num den point tries (count + 1)

/-- The least `point` with `num / den < 10 ^ point`, from a lower bound. -/
def decimalPoint (num den : Nat) : Nat → Int → Int
  | 0, point => point
  | tries + 1, point =>
    let (a, b) := decimalRatio 1 point
    if num * b < a * den then point else decimalPoint num den tries (point + 1)

def shortest (m : Nat) (e : Int) : List Char × Int :=
  let (num, den) := if e < 0 then (m, twoTo e.natAbs) else (m * twoTo e.natAbs, 1)
  let start : Int := ((num.log2 : Int) - den.log2) * 3 / 10 - 2
  let point := decimalPoint num den 120 start
  let (digits, power) := shortestFrom m e num den point 17 1
  let text := Numeral.natDigits digits
  let bare := Text.trimEnd (· == '0') text
  (bare, power + text.length)

/-- Positional between `10 ^ -4` and `10 ^ 16`, with an exponent of at least two digits outside. -/
def text : Binary64 → String
  | .nan => "nan"
  | .infinite negative => if negative then "-inf" else "inf"
  | .finite negative m e =>
    let sign := if negative then "-" else ""
    if m = 0 then sign ++ "0.0"
    else
      let (digits, point) := shortest m e
      if -4 < point && point ≤ 16 then
        let zeros (n : Int) := List.replicate n.toNat '0'
        let whole := if point ≤ 0 then ['0']
          else digits.take point.toNat ++ zeros (point - digits.length)
        let part := if point ≤ 0 then zeros (-point) ++ digits else digits.drop point.toNat
        sign ++ String.ofList (whole ++ '.' :: (if part.isEmpty then ['0'] else part))
      else
        let exponent := point - 1
        let fraction := if digits.length ≤ 1 then [] else '.' :: digits.drop 1
        let places := Numeral.natDigits exponent.natAbs
        let places := if places.length < 2 then '0' :: places else places
        sign ++ String.ofList (digits.take 1 ++ fraction
          ++ ['e', if exponent < 0 then '-' else '+'] ++ places)

end Binary64
end Fallow
