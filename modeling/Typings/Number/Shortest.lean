import Typings.Number.Binary64

/-!
The shortest decimal text of a binary64 number: the fewest digits that round
back to the number, and of those the ones nearest to it.

The numbers that round to `m · 2 ^ q` lie between the midpoints to its two
neighbours, the ends included when `m` is even. For 1, 2, … 17 digits the two
neighbours of the value on that decimal grid are tried against this interval,
and the first grid with a hit gives the digits.
-/

namespace Typings.Binary64

/-- The rationals that round to one number: `low / den` to `high / den`
around `mid / den`. -/
structure RoundingInterval where
  low : Nat
  mid : Nat
  high : Nat
  den : Nat
  closed : Bool

/-- The interval of `mantissa · 2 ^ exponent`. Below a power of two the
neighbour is half as far. -/
def roundingInterval (mantissa : Nat) (exponent : Int) : RoundingInterval :=
  let unit := twoTo exponent.toNat
  let below := if mantissa = twoTo 52 ∧ minExponent < exponent then 1 else 2
  { low := (4 * mantissa - below) * unit
    mid := 4 * mantissa * unit
    high := (4 * mantissa + 2) * unit
    den := 4 * twoTo (-exponent).toNat
    closed := mantissa % 2 == 0 }

def RoundingInterval.contains (i : RoundingInterval) (digits : Nat)
    (power : Int) : Bool :=
  let x := digits * tenTo power.toNat * i.den
  let scale := tenTo (-power).toNat
  if i.closed then decide (i.low * scale ≤ x) && decide (x ≤ i.high * scale)
  else decide (i.low * scale < x) && decide (x < i.high * scale)

/-- The `k` with `10 ^ (k - 1) ≤ num / den < 10 ^ k`, for positive
`num` and `den`. -/
def decimalPoint (num den : Nat) : Int :=
  if den ≤ num then (Nat.toDigits 10 (num / den)).length
  else 1 - (Nat.toDigits 10 ((den + num - 1) / num - 1)).length

/-- The digits on the grid of step `10 ^ power` that lie in the interval,
nearest to its middle. -/
def RoundingInterval.onGrid? (i : RoundingInterval) (power : Int) :
    Option Nat :=
  let num := i.mid * tenTo (-power).toNat
  let den := i.den * tenTo power.toNat
  let below := num / den
  match i.contains below power, i.contains (below + 1) power with
  | true, true =>
    let rest := 2 * (num % den)
    some (if rest < den ∨ rest = den ∧ below % 2 = 0 then below else below + 1)
  | true, false => some below
  | false, true => some (below + 1)
  | false, false => none

/-- Tries grids of more and more digits, at most `fuel` of them. -/
def RoundingInterval.search (i : RoundingInterval) (point : Int) :
    Nat → Nat → Nat × Int
  | 0, count => (i.mid / i.den, point - count)
  | fuel + 1, count =>
    match i.onGrid? (point - count) with
    | some digits => (digits, point - count)
    | none => i.search point fuel (count + 1)

/-- The shortest `(digits, power)` with `digits · 10 ^ power` rounding to
`mantissa · 2 ^ exponent`. -/
def shortest (mantissa : Nat) (exponent : Int) : Nat × Int :=
  let i := roundingInterval mantissa exponent
  i.search (decimalPoint i.mid i.den) 17 1

/-- The digits without the zeros at their end, and the place of the decimal
point counted from their front. -/
def layout (digits : Nat) (power : Int) : List Char × Int :=
  let ds := Nat.toDigits 10 digits
  ((ds.reverse.dropWhile (· == '0')).reverse, ds.length + power)

/-- Positional text with at least one digit on either side of the point. -/
def positional (ds : List Char) (point : Int) : List Char :=
  if point ≤ 0 then '0' :: '.' :: (List.replicate (-point).toNat '0' ++ ds)
  else if ds.length ≤ point.toNat then
    ds ++ List.replicate (point.toNat - ds.length) '0' ++ ['.', '0']
  else ds.take point.toNat ++ '.' :: ds.drop point.toNat

/-- Text with one digit before the point and a signed exponent of at
least two digits. -/
def scientific (ds : List Char) (point : Int) : List Char :=
  let exponent := point - 1
  let magnitude := Nat.toDigits 10 exponent.natAbs
  let padded := if magnitude.length < 2 then '0' :: magnitude else magnitude
  let fraction := if ds.length ≤ 1 then [] else '.' :: ds.drop 1
  ds.take 1 ++ fraction ++ 'e' :: (if exponent < 0 then '-' else '+') :: padded

/-- Decimal exponents from -4 up to 15 are written positionally. -/
def decimalChars (mantissa : Nat) (exponent : Int) : List Char :=
  if mantissa = 0 then ['0', '.', '0']
  else
    let (digits, power) := shortest mantissa exponent
    let (ds, point) := layout digits power
    if point < -3 ∨ 16 < point then scientific ds point else positional ds point

/-- The shortest text of a number, with the given spellings for
what is not finite. -/
def text (infinity notANumber : String) : Binary64 → String
  | .finite negative mantissa exponent =>
    String.ofList
      ((if negative then ['-'] else []) ++ decimalChars mantissa exponent)
  | .infinite negative => (if negative then "-" else "") ++ infinity
  | .nan => notANumber

end Typings.Binary64
