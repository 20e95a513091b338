import Typings.Number.Binary64

/-!
Numbers as data holds them: whole numbers of any size next to binary64 numbers.
Both kinds are compared by value, without rounding.
-/

namespace Typings

/-- A whole number of any size or a binary64 number. -/
inductive Number where
  | int (i : Int)
  | double (x : Binary64)
  deriving DecidableEq, Repr

namespace Number

def toRat? : Number → Option Rat
  | .int i => some i
  | .double x => x.toRat?

/-- Where a number lies: `(0, value)` if finite, `(-1, 0)` and `(1, 0)`
for the infinities. -/
def position? : Number → Option (Int × Rat)
  | .double (.infinite negative) => some (if negative then -1 else 1, 0)
  | .double .nan => none
  | n => n.toRat?.map ((0, ·))

/-- Do the two numbers have the same value? -/
def same (m n : Number) : Bool :=
  match m.position?, n.position? with
  | some p, some q => decide (p.1 = q.1) && decide (p.2 = q.2)
  | _, _ => false

def lt (m n : Number) : Bool :=
  match m.position?, n.position? with
  | some p, some q =>
      decide (p.1 < q.1) || decide (p.1 = q.1) && decide (p.2 < q.2)
  | _, _ => false

/-- Is the first number smaller or equal? -/
def le (m n : Number) : Bool :=
  m.lt n || m.same n

def addInt (n : Number) (k : Int) : Number :=
  match n with
  | .int i => .int (i + k)
  | .double x => .double (x.addInt k)

def isWhole : Number → Bool
  | .int _ => true
  | .double x => x.isWhole

end Number

end Typings
