import Typings.Json.Basic
import Typings.Json.Numeral
import Typings.Text.Encoding

/-!
Reading JSON text. Besides the standard grammar the words `NaN`, `Infinity` and
`-Infinity` are numbers. Of an object's repeated keys the last value counts, at
the place of the first. Digits and nesting have limits; what stands first in the
text decides why it cannot be read.
-/

namespace Typings.Json

inductive Unreadable where
  | notUnicode
  | notJson
  /-- A whole number has more digits than the limit. -/
  | tooManyDigits
  /-- Arrays and objects are nested deeper than the limit. -/
  | tooDeep
  deriving DecidableEq, Repr

/-- How deep arrays and objects may be nested in a document. -/
def nestingLimit : Nat := 985

def skipBlanks (cs : List Char) : List Char :=
  cs.dropWhile fun c => c == ' ' || c == '\n' || c == '\t' || c == '\r'

def hexValue? (c : Char) : Option Nat :=
  if '0' ≤ c ∧ c ≤ '9' then some (c.toNat - '0'.toNat)
  else if 'a' ≤ c ∧ c ≤ 'f' then some (c.toNat - 'a'.toNat + 10)
  else if 'A' ≤ c ∧ c ≤ 'F' then some (c.toNat - 'A'.toNat + 10)
  else none

/-- The value of four hexadecimal digits. -/
def hexValues? (a b c d : Char) : Option Nat := do
  return (((← hexValue? a) * 16 + (← hexValue? b)) * 16 + (← hexValue? c)) *
    16 + (← hexValue? d)

/-- The code point that a one-letter escape stands for. -/
def escapeValue? : Char → Option Nat
  | '"' => some 0x22
  | '\\' => some 0x5C
  | '/' => some 0x2F
  | 'b' => some 0x8
  | 'f' => some 0xC
  | 'n' => some 0xA
  | 'r' => some 0xD
  | 't' => some 0x9
  | _ => none

/-- The code points of a string up to its closing quote, and what follows;
`done` holds those read so far in reverse. -/
def readString (done : List Nat) :
    List Char → Except Unreadable (List Nat × List Char)
  | [] => .error .notJson
  | '"' :: rest => .ok (done.reverse, rest)
  | '\\' :: 'u' :: a :: b :: c :: d :: rest =>
    match hexValues? a b c d with
    | some unit => readString (unit :: done) rest
    | none => .error .notJson
  | '\\' :: c :: rest =>
    match escapeValue? c with
    | some unit => readString (unit :: done) rest
    | none => .error .notJson
  | c :: rest =>
    if c.toNat < 0x20 || c == '\\' then .error .notJson
    else readString (c.toNat :: done) rest

/-- The fraction of a numeral: a point and at least one digit, or nothing. -/
def cutFraction : List Char → List Char × List Char
  | '.' :: rest =>
    if (rest.takeWhile Char.isDigit).isEmpty then ([], '.' :: rest)
    else (rest.takeWhile Char.isDigit, rest.dropWhile Char.isDigit)
  | cs => ([], cs)

/-- The exponent of a numeral: an `e`, an optional sign and at least one
digit, or nothing. -/
def cutExponent? : List Char → Option Int × List Char
  | c :: rest =>
    let (negative, tail) := cutSign rest
    if (c == 'e' || c == 'E') && !(tail.takeWhile Char.isDigit).isEmpty then
      let value : Int := digitsValue (tail.takeWhile Char.isDigit)
      (some (if negative then -value else value), tail.dropWhile Char.isDigit)
    else (none, c :: rest)
  | [] => (none, [])

/-- The whole part of a numeral: a zero, or digits that do
not begin with one. -/
def cutWhole? : List Char → Option (List Char × List Char)
  | '0' :: rest => some (['0'], rest)
  | cs => if (cs.takeWhile Char.isDigit).isEmpty then none
    else some (cs.takeWhile Char.isDigit, cs.dropWhile Char.isDigit)

/-- A number without its sign. Without fraction and exponent it is whole. -/
def readMagnitude (negative : Bool) (cs : List Char) :
    Except Unreadable (Json × List Char) :=
  match cutWhole? cs with
  | none => .error .notJson
  | some (whole, rest) =>
    let (fraction, rest) := cutFraction rest
    let (exponent?, rest) := cutExponent? rest
    if fraction.isEmpty && exponent?.isNone then
      if digitLimit < whole.length then .error .tooManyDigits
      else
        let value : Int := digitsValue whole
        .ok (.int (if negative then -value else value), rest)
    else
      let exponent := exponent?.getD 0 - fraction.length
      .ok (.double (.ofDecimal negative (digitsValue (whole ++ fraction))
        exponent), rest)

def readScalar (cs : List Char) : Except Unreadable (Json × List Char) :=
  match cs with
  | 'n' :: 'u' :: 'l' :: 'l' :: rest => .ok (.null, rest)
  | 't' :: 'r' :: 'u' :: 'e' :: rest => .ok (.bool true, rest)
  | 'f' :: 'a' :: 'l' :: 's' :: 'e' :: rest => .ok (.bool false, rest)
  | 'N' :: 'a' :: 'N' :: rest => .ok (.double .nan, rest)
  | 'I' :: 'n' :: 'f' :: 'i' :: 'n' :: 'i' :: 't' :: 'y' :: rest =>
      .ok (.double (.infinite false), rest)
  | '-' :: 'I' :: 'n' :: 'f' :: 'i' :: 'n' :: 'i' :: 't' :: 'y' :: rest =>
      .ok (.double (.infinite true), rest)
  | '-' :: rest => readMagnitude true rest
  | cs => readMagnitude false cs

/-- Sets an entry: in place if the key is there, at the end if not. -/
def putEntry (entries : List (String × Json)) (key : String) (v : Json) :
    List (String × Json) :=
  if entries.any (·.1 == key) then
    entries.map fun e => if e.1 == key then (key, v) else e
  else entries ++ [(key, v)]

mutual

/-- One value and what follows it. Every step down takes one of the `fuel`,
every array and object one of the `levels`. -/
def readValue : Nat → Nat → List Char → Except Unreadable (Json × List Char)
  | 0, _, _ => .error .notJson
  | fuel + 1, levels, cs =>
    match cs with
    | '"' :: rest => do
      let (codes, rest) ← readString [] rest
      return (.str (String.ofList (Text.joinSurrogates codes)), rest)
    | '[' :: rest =>
      match levels, skipBlanks rest with
      | 0, _ => .error .tooDeep
      | _ + 1, ']' :: rest => .ok (.arr [], rest)
      | levels + 1, rest => readItems fuel levels [] rest
    | '\x7b' :: rest =>
      match levels, skipBlanks rest with
      | 0, _ => .error .tooDeep
      | _ + 1, '\x7d' :: rest => .ok (.obj [], rest)
      | levels + 1, rest => readEntries fuel levels [] rest
    | cs => readScalar cs

/-- The items of an array up to its end; `done` holds those read
so far in reverse. -/
def readItems :
    Nat → Nat → List Json → List Char → Except Unreadable (Json × List Char)
  | 0, _, _, _ => .error .notJson
  | fuel + 1, levels, done, cs =>
    match readValue fuel levels (skipBlanks cs) with
    | .error reason => .error reason
    | .ok (v, rest) =>
      match skipBlanks rest with
      | ',' :: rest => readItems fuel levels (v :: done) rest
      | ']' :: rest => .ok (.arr (v :: done).reverse, rest)
      | _ => .error .notJson

/-- The entries of an object up to its end. -/
def readEntries : Nat → Nat → List (String × Json) → List Char →
    Except Unreadable (Json × List Char)
  | 0, _, _, _ => .error .notJson
  | fuel + 1, levels, done, cs =>
    match skipBlanks cs with
    | '"' :: rest =>
      match readString [] rest with
      | .error reason => .error reason
      | .ok (codes, rest) =>
        match skipBlanks rest with
        | ':' :: rest =>
          match readValue fuel levels (skipBlanks rest) with
          | .error reason => .error reason
          | .ok (v, rest) =>
            let entries :=
              putEntry done (String.ofList (Text.joinSurrogates codes)) v
            match skipBlanks rest with
            | ',' :: rest => readEntries fuel levels entries rest
            | '\x7d' :: rest => .ok (.obj entries, rest)
            | _ => .error .notJson
        | _ => .error .notJson
    | _ => .error .notJson

end

/-- The value that a text writes, nested in at most the given number of levels.
Each character allows at most two steps down, so the fuel of twice the length
is never used up. -/
def ofTextWithin (levels : Nat) (s : String) : Except Unreadable Json :=
  let cs := s.toList
  match readValue (2 * cs.length + 2) levels (skipBlanks cs) with
  | .ok (v, rest) =>
      if (skipBlanks rest).isEmpty then .ok v else .error .notJson
  | .error reason => .error reason

def ofText (s : String) : Except Unreadable Json :=
  ofTextWithin nestingLimit s

def ofBytes (bytes : List UInt8) : Except Unreadable Json :=
  match Text.decode? bytes with
  | some s => ofText s
  | none => .error .notUnicode

end Typings.Json
