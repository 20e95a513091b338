/-!
Binary floating-point numbers of 64 bits, held exactly. A finite number is a
mantissa of at most 53 bits times a power of two, so its value is a rational
number, and arithmetic is exact rational arithmetic followed by one rounding.
-/

namespace Typings

/-- A binary64 number; a finite one has the value
`± mantissa · 2 ^ exponent`. -/
inductive Binary64 where
  | finite (negative : Bool) (mantissa : Nat) (exponent : Int)
  | infinite (negative : Bool)
  | nan
  deriving DecidableEq, Repr

namespace Binary64

def twoTo (n : Nat) : Nat :=
  Nat.pow 2 n

def tenTo (n : Nat) : Nat :=
  Nat.pow 10 n

/-- Exponent of the smallest positive number. -/
def minExponent : Int := -1074

/-- Exponent of the largest finite number. -/
def maxExponent : Int := 971

/-- The quotient rounded to the nearest natural number, a half to
the even neighbour. -/
def roundHalfEven (num den : Nat) : Nat :=
  if 2 * (num % den) < den then num / den
  else if den < 2 * (num % den) then num / den + 1
  else num / den + num / den % 2

/-- The largest `k` with `2 ^ k ≤ num / den`, for positive `num` and `den`. -/
def floorLog2 (num den : Nat) : Int :=
  let k : Int := num.log2 - den.log2
  if den * twoTo k.toNat ≤ num * twoTo (-k).toNat then k else k - 1

/-- A mantissa that rounding carried to 54 bits is halved; beyond the largest
exponent lies infinity. -/
def settle (negative : Bool) (mantissa : Nat) (exponent : Int) : Binary64 :=
  if mantissa = twoTo 53 then
    if exponent + 1 ≤ maxExponent then
      .finite negative (twoTo 52) (exponent + 1)
    else .infinite negative
  else if exponent ≤ maxExponent then .finite negative mantissa exponent
  else .infinite negative

/-- The number nearest to `± num / den`, of two equally near ones the one with
an even mantissa. -/
def ofQuotient (negative : Bool) (num den : Nat) : Binary64 :=
  if num = 0 then .finite negative 0 minExponent
  else
    let exponent := max (floorLog2 num den - 52) minExponent
    settle negative (roundHalfEven (num * twoTo (-exponent).toNat)
      (den * twoTo exponent.toNat)) exponent

/-- The number nearest to a rational. -/
def ofRat (r : Rat) : Binary64 :=
  ofQuotient (decide (r.num < 0)) r.num.natAbs r.den

/-- The number nearest to `± digits · 10 ^ exponent`. Far outside the range the
power is not formed. -/
def ofDecimal (negative : Bool) (digits : Nat) (exponent : Int) : Binary64 :=
  let size : Int := (Nat.toDigits 10 digits).length + exponent
  if digits = 0 ∨ size < -330 then .finite negative 0 minExponent
  else if 320 < size then .infinite negative
  else ofQuotient negative (digits * tenTo exponent.toNat)
    (tenTo (-exponent).toNat)

def toRat? : Binary64 → Option Rat
  | .finite negative mantissa exponent =>
    let magnitude : Int := mantissa * twoTo exponent.toNat
    some (mkRat (if negative then -magnitude else magnitude)
      (twoTo (-exponent).toNat))
  | _ => none

def isWhole : Binary64 → Bool
  | .finite _ mantissa exponent => mantissa % twoTo (-exponent).toNat == 0
  | _ => false

/-- The value without its fraction, for a finite number. -/
def truncate? : Binary64 → Option Int
  | .finite negative mantissa exponent =>
    let magnitude : Int :=
      (mantissa * twoTo exponent.toNat / twoTo (-exponent).toNat : Nat)
    some (if negative then -magnitude else magnitude)
  | _ => none

/-- The number nearest to a whole number, unless that lies beyond
the finite range. -/
def ofInt? (i : Int) : Option Binary64 :=
  match ofQuotient (decide (i < 0)) i.natAbs 1 with
  | .infinite _ => none
  | x => some x

/-- Adds a whole number, rounding once. -/
def addInt (x : Binary64) (i : Int) : Binary64 :=
  match x.toRat? with
  | some r => ofRat (r + i)
  | none => x

end Binary64

end Typings
