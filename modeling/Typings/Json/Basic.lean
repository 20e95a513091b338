import Typings.Number.Value

/-!
JSON values as documents hold them. Object entries keep the order in which they
were written, and whole numbers stay apart from binary64 numbers. A loaded
document is checked for shape only, so a value may turn out to be of the wrong
kind where it is used; `Misuse` says in what way.
-/

namespace Typings

inductive Json where
  | null
  | bool (b : Bool)
  | int (i : Int)
  | double (x : Binary64)
  | str (s : String)
  | arr (items : List Json)
  | obj (entries : List (String × Json))

instance : Inhabited Json := ⟨.null⟩

/-- How a value can be of the wrong kind for its use. -/
inductive Misuse where
  /-- Walked over or searched, but not a collection. -/
  | notCollection
  /-- Indexed by a name or a place that its kind does not have. -/
  | notIndexed
  /-- Calculated with, but not a number. -/
  | notNumber
  /-- Looked up as a key, but itself a collection. -/
  | notKey
  /-- Put in order with a value of another kind. -/
  | notOrdered
  /-- Edited as a text, but not a text. -/
  | notText
  /-- Asked for its entries, but not an object. -/
  | notObject
  /-- A text that spells no number. -/
  | notNumeral
  /-- A whole number beyond the range of binary64. -/
  | tooLarge
  /-- A whole number with more digits than may be written. -/
  | tooLong
  /-- Taken apart, but with too few or too many items. -/
  | wrongCount
  /-- An object without the entry asked for. -/
  | missingEntry
  deriving DecidableEq, Repr

namespace Json

/-- Nothing, false, zero and everything empty count as unset. -/
def isSet : Json → Bool
  | .null => false
  | .bool b => b
  | .int i => i != 0
  | .double x => !(Number.double x).same (.int 0)
  | .str s => s != ""
  | .arr items => !items.isEmpty
  | .obj entries => !entries.isEmpty

/-- The number a value stands for; truth counts as one and falsehood as zero. -/
def number? : Json → Option Number
  | .bool b => some (.int (if b then 1 else 0))
  | .int i => some (.int i)
  | .double x => some (.double x)
  | _ => none

def asNumber (v : Json) : Except Misuse Number :=
  match v.number? with
  | some n => .ok n
  | none => .error .notNumber

/-- The greatest whole number that is not above the value. -/
def floor (v : Json) : Except Misuse Int := do
  match (← v.asNumber).toRat? with
  | some x => return x.floor
  | none => throw .notNumber

def ofNumber : Number → Json
  | .int i => .int i
  | .double x => .double x

def asText : Json → Except Misuse String
  | .str s => .ok s
  | _ => .error .notText

def asEntries : Json → Except Misuse (List (String × Json))
  | .obj entries => .ok entries
  | _ => .error .notObject

/-- A text that serves as a key; a collection cannot be looked up, and of the
other kinds no key is. -/
def asKey? : Json → Except Misuse (Option String)
  | .str s => .ok (some s)
  | .arr _ => .error .notKey
  | .obj _ => .error .notKey
  | _ => .ok none

def isText (v : Json) (s : String) : Bool :=
  match v with
  | .str t => t == s
  | _ => false

/-- The entry of an object under a key; anything else has none. -/
def entry? (v : Json) (key : String) : Option Json :=
  match v with
  | .obj entries => entries.lookup key
  | _ => none

/-- The entry under a key, with a value for when there is none. -/
def entryD (v : Json) (key : String) (fallback : Json) : Json :=
  (v.entry? key).getD fallback

def entry (v : Json) (key : String) : Json :=
  v.entryD key .null

/-- What walking over a value meets: items, characters or keys. -/
def walk : Json → Except Misuse (List Json)
  | .arr items => .ok items
  | .str s => .ok (s.toList.map fun c => .str (String.singleton c))
  | .obj entries => .ok (entries.map fun e => .str e.1)
  | _ => .error .notCollection

def get? (entries : List (String × Json)) (key : String) : Option Json :=
  entries.lookup key

def isNull : Json → Bool
  | .null => true
  | _ => false

/-- The entry under a key, null if there is none. -/
def getD (entries : List (String × Json)) (key : String) : Json :=
  (get? entries key).getD .null

mutual

/-- How many values are nested in one another at most. -/
def depth : Json → Nat
  | .arr items => itemsDepth items + 1
  | .obj entries => entriesDepth entries + 1
  | _ => 1

def itemsDepth : List Json → Nat
  | [] => 0
  | v :: rest => max v.depth (itemsDepth rest)

def entriesDepth : List (String × Json) → Nat
  | [] => 0
  | (_, v) :: rest => max v.depth (entriesDepth rest)

end

mutual

/-- Are the values equal? Numbers compare by value, objects without
regard to order. -/
def same : Json → Json → Bool
  | .null, .null => true
  | .str s, .str t => s == t
  | .arr xs, .arr ys => sameItems xs ys
  | .obj xs, .obj ys => xs.length == ys.length && sameEntries xs ys
  | v, w =>
    match v.number?, w.number? with
    | some m, some n => m.same n
    | _, _ => false

def sameItems : List Json → List Json → Bool
  | [], [] => true
  | v :: xs, w :: ys => same v w && sameItems xs ys
  | _, _ => false

/-- Every entry of the first object has an equal one in the second. -/
def sameEntries : List (String × Json) → List (String × Json) → Bool
  | [], _ => true
  | (k, v) :: xs, ys =>
    (match get? ys k with
      | some w => same v w
      | none => false) && sameEntries xs ys

end

/-- The values without repetitions, each at its first place. -/
def distinct (vs : List Json) : List Json :=
  (vs.foldl (fun seen v => if seen.any (same v) then seen else v :: seen)
    []).reverse

mutual

/-- Is the first value smaller? Texts compare by code point, numbers
by value and lists by the first place where they differ; no other
values have an order. -/
def less? : Json → Json → Option Bool
  | .str s, .str t => some (decide (s < t))
  | .arr xs, .arr ys => lessItems? xs ys
  | v, w =>
    match v.number?, w.number? with
    | some m, some n => some (m.lt n)
    | _, _ => none

/-- Of two lists without a difference the shorter one is smaller. -/
def lessItems? : List Json → List Json → Option Bool
  | [], [] => some false
  | [], _ :: _ => some true
  | _ :: _, [] => some false
  | v :: xs, w :: ys => if same v w then lessItems? xs ys else less? v w

end

/-- Does every value have an order with every later one? -/
def areOrdered : List Json → Bool
  | [] => true
  | v :: rest => rest.all (fun w => (less? v w).isSome) && areOrdered rest

/-- Are the values all texts, or all numbers? Then they have an order. -/
def areAlike (vs : List Json) : Bool :=
  (vs.all fun v => match v with
    | .str _ => true
    | _ => false) || vs.all fun v => v.number?.isSome

/-- The values in increasing order. A single value is in
order whatever it is. -/
def ordered (vs : List Json) : Except Misuse (List Json) :=
  if areAlike vs || areOrdered vs then
    .ok (vs.mergeSort fun v w => less? w v != some true)
  else .error .notOrdered

/-- The distinct values in increasing order. -/
def orderedSet (vs : List Json) : Except Misuse (List Json) := do
  if vs.any fun v => match v with
    | .arr _ => true
    | .obj _ => true
    | _ => false
  then .error .notKey
  ordered (distinct vs)

end Json

end Typings
