import Typings.Json.Inspect
import Typings.Json.Numeral
import Typings.Schema.Basic
import Typings.TypeExpr.Basic

/-!
Ranges as type arguments. A range becomes an object of at most `leftExclusive`,
`rightExclusive`, `min` and `max`. Both bounds are spelled out only while the
closed range holds few whole numbers, so that a type checker never expands a
huge union; a wider range keeps one bound, weakened to its sign.
-/

namespace Typings

/-- Largest closed range that is spelled out with both bounds. -/
def cardinalityLimit : Int := 100

/-- Is the bit of the given weight set in a range kind? -/
def Range.bit (kind : Json) (weight : Int) : Except Misuse Bool :=
  match kind.number? with
  | some (.int k) => .ok (decide (k / weight % 2 = 1))
  | _ => .error .notNumber

namespace Range

/-- Is the lower bound itself left out? -/
def omitsLow (r : Range) : Except Misuse Bool :=
  bit r.kind 2

/-- Is the upper bound itself left out? -/
def omitsHigh (r : Range) : Except Misuse Bool :=
  bit r.kind 1

/-- A bound in a range text; an open one is empty. -/
def boundText : Json → String
  | .null => ""
  | v => v.wholePlain

/-- The range as a text such as `0..<10`; a single number stands alone. -/
def text (r : Range) : Except Misuse String := do
  if r.kind.same (.int 0) && !r.low.isNull && r.low.same r.high then
    return r.low.wholePlain
  let left := if ← r.omitsLow then "<" else ""
  let right := if ← r.omitsHigh then "<" else ""
  return boundText r.low ++ left ++ ".." ++ right ++ boundText r.high

def isWholeBound (bound : Json) : Except Misuse Bool :=
  match bound with
  | .null => .ok false
  | v => v.asDouble.map (·.isWhole)

/-- How many whole numbers lie in the closed range; nothing unless both
bounds are whole. -/
def cardinality? (low high : Json) : Except Misuse (Option Int) := do
  if ← isWholeBound low then
    if ← isWholeBound high then
      return some (max ((← high.asWhole) - (← low.asWhole) + 1) 0)
  return none

/-- Is the closed range small enough to be spelled out? -/
def isSmall (low high : Json) : Except Misuse Bool := do
  match ← cardinality? low high with
  | some n => return decide (n ≤ cardinalityLimit)
  | none => return false

/-- Are both bounds there, and is the closed range between them small enough
to be spelled out? -/
def isSpelledOut (low high : Json) : Except Misuse Bool :=
  if low.isNull || high.isNull then .ok false else isSmall low high

def atLeast (bound : Json) (n : Int) : Except Misuse Bool :=
  match bound with
  | .null => .ok false
  | v => v.asNumber.map fun x => (Number.int n).le x

def atMost (bound : Json) (n : Int) : Except Misuse Bool :=
  match bound with
  | .null => .ok false
  | v => v.asNumber.map fun x => x.le (.int n)

/-- The type of one entry: truth values as they are, whole numbers without
a fraction part. -/
def entryType (v : Json) : Except Misuse TypeExpr := do
  match v with
  | .bool b => return .truth b
  | _ =>
      if ← isWholeBound v then return .number (.int (← v.asWhole))
      else return .number v

def objectOf (entries : List (String × Json)) : Except Misuse TypeExpr := do
  return .object
    (← entries.mapM fun e => do return Property.plain e.1 (← entryType e.2))

/-- The bound moved by one whole number. -/
def shift (bound : Json) (k : Int) : Except Misuse Json := do
  return .ofNumber ((← bound.asNumber).addInt k)

/-- A moved bound in docs. It may have one digit more than any
number that is read. -/
def movedText (bound : Json) : Except Misuse String :=
  match bound with
  | .int i =>
      if i.natAbs < Binary64.tenTo Json.digitLimit then .ok bound.wholePlain
      else .error .tooLong
  | _ => .ok bound.wholePlain

/-- The lower bound of the whole numbers in the range. -/
def effectiveLow (r : Range) : Except Misuse Json := do
  if r.low.isNull then return .null
  else if ← r.omitsLow then shift r.low 1
  else return r.low

/-- The upper bound of the whole numbers in the range. -/
def effectiveHigh (r : Range) : Except Misuse Json := do
  if r.high.isNull then return .null
  else if ← r.omitsHigh then shift r.high (-1)
  else return r.high

/-- The bounds that a range of whole numbers keeps. -/
def wholeEntries (low high : Json) : Except Misuse (List (String × Json)) := do
  if ← isSpelledOut low high then return [("min", low), ("max", high)]
  else if ← atLeast low 0 then
    return [("min", .int (if ← atLeast low 1 then 1 else 0))]
  else if ← atMost high 0 then
    let negative := (← high.asNumber).lt (.int 0)
    return [("max", .int (if negative then -1 else 0))]
  else return []

/-- Type argument and docs of a range of whole numbers. Bounds that are left out
are moved inward, so no exclusivity is recorded. -/
def wholeArgument (r : Range) : Except Misuse (TypeExpr × List String) := do
  let shown ← r.text
  let low ← r.effectiveLow
  let lowDocs ← do
    if !r.low.isNull && (← r.omitsLow) then
      pure ["Effective minimum: " ++ (← movedText low)]
    else pure []
  let high ← r.effectiveHigh
  let highDocs ← do
    if !r.high.isNull && (← r.omitsHigh) then
      pure ["Effective maximum: " ++ (← movedText high)]
    else pure []
  let type ← objectOf (← wholeEntries low high)
  return (type, ("Range: " ++ shown) :: (lowDocs ++ highDocs))

/-- The bounds that a range of any numbers keeps, with their exclusivity. -/
def boundedEntries (r : Range) : Except Misuse (List (String × Json)) := do
  if ← isSpelledOut r.low r.high then
    return [("leftExclusive", .bool (← r.omitsLow)),
      ("rightExclusive", .bool (← r.omitsHigh)),
      ("min", r.low), ("max", r.high)]
  else if ← atLeast r.low 0 then
    let low ← r.low.asNumber
    let bound : Number := .int (if (Number.int 1).le low then 1 else 0)
    let exclusive ← if low.same bound then r.omitsLow else pure (bound.lt low)
    return [("leftExclusive", .bool exclusive), ("min", .ofNumber bound)]
  else if ← atMost r.high 0 then
    let high ← r.high.asNumber
    let bound : Number := .int (if high.le (.int (-1)) then -1 else 0)
    let exclusive ←
      if high.same bound then r.omitsHigh else pure (high.lt bound)
    return [("rightExclusive", .bool exclusive), ("max", .ofNumber bound)]
  else return []

/-- Docs that spell out which bounds are left out. -/
def openEndDocs (r : Range) : Except Misuse (List String) := do
  let low ← do
    if !r.low.isNull && (← r.omitsLow) then
      pure ["Minimum is exclusive; must be higher than " ++ r.low.wholePlain]
    else pure []
  let high ← do
    if !r.high.isNull && (← r.omitsHigh) then
      pure ["Maximum is exclusive; must be lower than " ++ r.high.wholePlain]
    else pure []
  return low ++ high

/-- Type argument and docs of a range with a heading. -/
def boundsArgument (r : Range) (heading : String) :
    Except Misuse (TypeExpr × List String) := do
  let shown ← r.text
  let docs ← r.openEndDocs
  let type ← objectOf (← r.boundedEntries)
  return (type, (heading ++ ": " ++ shown) :: docs)

/-- Type argument and docs of a range of fractional numbers. -/
def fractionalArgument (r : Range) : Except Misuse (TypeExpr × List String) :=
  r.boundsArgument "Range"

/-- Type argument and docs of a range of lengths. -/
def lengthArgument (r : Range) (label : String) :
    Except Misuse (TypeExpr × List String) :=
  r.boundsArgument (label ++ " length range")

end Range

end Typings
