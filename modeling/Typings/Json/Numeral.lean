import Typings.Json.Basic
import Typings.Text.Blank
import Typings.Text.Digit

/-!
Numbers spelled as texts. Blanks around a numeral do not count, digits may be of
any script, and single underscores may stand between digits. A whole number has
a limited number of digits.
-/

namespace Typings.Json

/-- The blanks that may surround a numeral: all but the four
separator controls. -/
def isNumeralBlank (c : Char) : Bool :=
  Text.isBlank c && !(decide (0x1C ≤ c.toNat) && decide (c.toNat ≤ 0x1F))

def trimNumeral (cs : List Char) : List Char :=
  ((cs.dropWhile isNumeralBlank).reverse.dropWhile isNumeralBlank).reverse

/-- Is the character a decimal digit of some script? -/
def isDigit (c : Char) : Bool :=
  (Text.digitValue? c).isSome

/-- The numeral with plain digits and without underscores, each of which must
stand between two digits. -/
def plainDigits? : Bool → List Char → Option (List Char)
  | _, [] => some []
  | afterDigit, c :: rest =>
    if c = '_' then
      if afterDigit && rest.head?.any isDigit then plainDigits? false rest
      else none
    else match Text.digitValue? c with
      | some d => (plainDigits? true rest).map (Nat.digitChar d :: ·)
      | none => (plainDigits? false rest).map (c :: ·)

def cutSign : List Char → Bool × List Char
  | '-' :: rest => (true, rest)
  | '+' :: rest => (false, rest)
  | cs => (false, cs)

/-- The number that a row of plain digits spells. -/
def digitsValue (cs : List Char) : Nat :=
  cs.foldl (fun n c => 10 * n + (c.toNat - '0'.toNat)) 0

/-- The most digits of a whole number where it is read or written. -/
def digitLimit : Nat := 4300

/-- The whole number that a text spells. -/
def wholeOfText? (s : String) : Option Int := do
  let cs ← plainDigits? false (trimNumeral s.toList)
  let (negative, digits) := cutSign cs
  if digits.isEmpty || !digits.all Char.isDigit ||
    digitLimit < digits.length then none
  else
    some (if negative then -(digitsValue digits : Int) else digitsValue digits)

/-- The exponent part of a numeral: nothing, or an `e` with an optional
sign and digits. -/
def exponentOf? : List Char → Option Int
  | [] => some 0
  | c :: rest =>
    let (negative, digits) := cutSign rest
    if c.toLower != 'e' || digits.isEmpty || !digits.all Char.isDigit then none
    else some (if negative then -(digitsValue digits : Int)
      else digitsValue digits)

/-- A numeral without its sign: digits with at most one point among them and an
optional exponent, or one of the names of what is not finite. -/
def magnitudeOf? (negative : Bool) (cs : List Char) : Option Binary64 :=
  let word := String.ofList (cs.map Char.toLower)
  if word == "inf" || word == "infinity" then some (.infinite negative)
  else if word == "nan" then some .nan
  else
    let whole := cs.takeWhile Char.isDigit
    let rest := cs.dropWhile Char.isDigit
    let (fraction, rest) := match rest with
      | '.' :: tail =>
          (tail.takeWhile Char.isDigit, tail.dropWhile Char.isDigit)
      | _ => ([], rest)
    if whole.isEmpty && fraction.isEmpty then none
    else (exponentOf? rest).map fun exponent =>
      .ofDecimal negative (digitsValue (whole ++ fraction))
        (exponent - fraction.length)

/-- The binary64 number nearest to the one that a text spells. -/
def doubleOfText? (s : String) : Option Binary64 := do
  let cs ← plainDigits? false (trimNumeral s.toList)
  let (negative, rest) := cutSign cs
  magnitudeOf? negative rest

/-- The value as a whole number: fractions are cut off, texts are read. -/
def asWhole (v : Json) : Except Misuse Int :=
  match v with
  | .str s => match wholeOfText? s with
    | some i => .ok i
    | none => .error .notNumeral
  | _ => match v.number? with
    | some (.int i) => .ok i
    | some (.double x) => match x with
      | .nan => .error .notNumeral
      | _ => match x.truncate? with
        | some i => .ok i
        | none => .error .tooLarge
    | none => .error .notNumber

/-- The value as a binary64 number: whole numbers are
rounded, texts are read. -/
def asDouble (v : Json) : Except Misuse Binary64 :=
  match v with
  | .str s => match doubleOfText? s with
    | some x => .ok x
    | none => .error .notNumeral
  | _ => match v.number? with
    | some (.int i) => match Binary64.ofInt? i with
      | some x => .ok x
      | none => .error .tooLarge
    | some (.double x) => .ok x
    | none => .error .notNumber

end Typings.Json
