import Typings.Proofs.Compilation

/-!
Where in a type other types are referred to. An occurrence is a reference or a
dispatcher index with the lists and structs around it, counted from the inside
out; version-gated parts have none. A dynamic index asks the struct that lies so
many levels out for the value of a property.
-/

namespace Typings

inductive Link where
  | reference (path : Json)
  | dispatcher (registry : Json) (indices : List Index)

/-- What a dispatcher index asks for: the last of its steps is the property,
the others lead up. -/
def Link.asks? : Link → Option Request
  | .dispatcher _ [.dynamic steps] =>
    match steps.getLast? with
    | some (.property name) =>
        some { parents := steps.length - 1, property := name }
    | _ => none
  | _ => none

/-- Where in a struct something lies. -/
inductive Place where
  /-- In the value of a fixed key. Of several fields with one name only the last
  can be selected. -/
  | property (name : String) (isLast : Bool)
  /-- In the keys of a dynamic field. -/
  | keys
  /-- In the values of a dynamic field, or in a spread. -/
  | rest
  deriving DecidableEq

/-- A list or a struct around an occurrence. -/
inductive Frame where
  | list
  /-- A struct with the names of its fixed keys, and the one that it
  is a union over. -/
  | struct (names : List String) (selector? : Option String) (place : Place)
  deriving DecidableEq

/-- Does the frame keep requests from passing? -/
def Frame.isKeys : Frame → Bool
  | .struct _ _ .keys => true
  | _ => false

/-- A reference or an index with everything around it, innermost first. -/
structure Occurrence where
  link : Link
  frames : List Frame

namespace Occurrence

/-- The occurrence as seen from outside one more frame. -/
def within (o : Occurrence) (frame : Frame) : Occurrence :=
  { o with frames := o.frames ++ [frame] }

/-- Does the occurrence lie in the keys of a dynamic field? -/
def isHidden (o : Occurrence) : Bool :=
  o.frames.any (·.isKeys)

/-- What the occurrence asks of the structs further out. -/
def request? (o : Occurrence) : Option Request :=
  match o.link.asks? with
  | some r =>
    if o.isHidden = false ∧ o.frames.length ≤ r.parents then
      some { r with parents := r.parents - o.frames.length }
    else none
  | none => none

/-- The struct that a request of the occurrence leads to has the property, and
is a union over it. -/
def IsAnswered (o : Occurrence) (r : Request) : Prop :=
  ∃ names place,
    o.frames[r.parents]? = some (.struct names (some r.property) place) ∧
    r.property ∈ names

/-- Whatever the occurrence asks for is answered, unless it leads further out
than the frames. -/
def IsSettled (o : Occurrence) : Prop :=
  o.isHidden = false → ∀ r, o.link.asks? = some r →
    r.parents < o.frames.length → o.IsAnswered r

end Occurrence

def Field.fixedName? : Field → Option String
  | .pair (.name name) _ _ _ _ _ => some name
  | _ => none

/-- The names of the fixed keys that are still there. -/
def Field.liveNames (fields : List Field) : List String :=
  (fields.filter (·.isLive)).filterMap (·.fixedName?)

/-- The requests that leave the fields of a struct. -/
def visibleRequests (placed : List (Place × Occurrence)) : List Request :=
  placed.filterMap fun e => if e.1 = .keys then none else e.2.request?

/-- The property that a struct is a union over: the first that is
asked for and there. -/
def selectorOf (names : List String) (placed : List (Place × Occurrence)) :
    Option String :=
  (requestedHere (visibleRequests placed)).find? (names.contains ·)

/-- The occurrences in the fields of a struct as seen from outside it. -/
def structOccurrences (names : List String)
    (placed : List (Place × Occurrence)) :
    List Occurrence :=
  placed.map fun e => e.2.within (.struct names (selectorOf names placed) e.1)

mutual

/-- The occurrences in a type, from left to right. -/
def Schema.occurrences : Schema → List Occurrence
  | .list item _ _ => item.occurrences.map (·.within .list)
  | .tuple items _ => occurrencesLive items
  | .union members _ => occurrencesLive members
  | .struct fields _ =>
      structOccurrences (Field.liveNames fields) (fieldOccurrences fields)
  | .reference path _ => [⟨.reference path, []⟩]
  | .concrete child args _ => child.occurrences ++ occurrencesAll args
  | .template child _ _ => child.occurrences
  | .dispatcher registry indices _ => [⟨.dispatcher registry indices, []⟩]
  | .indexed child _ _ => child.occurrences
  | _ => []

def Schema.occurrencesAll : List Schema → List Occurrence
  | [] => []
  | type :: rest => type.occurrences ++ occurrencesAll rest

/-- The occurrences in those of the types that are still there. -/
def Schema.occurrencesLive : List Schema → List Occurrence
  | [] => []
  | type :: rest =>
    if type.isLive then type.occurrences ++ occurrencesLive rest
    else occurrencesLive rest

/-- The occurrences in the fields that are still there, each with its place. -/
def Schema.fieldOccurrences : List Field → List (Place × Occurrence)
  | [] => []
  | .pair (.name name) type optional deprecated description attributes ::
      rest =>
    if (Field.pair (.name name) type optional deprecated description
      attributes).isLive then
      (type.occurrences.map fun o =>
          (.property name !(Field.liveNames rest).contains name, o)) ++
        fieldOccurrences rest
    else fieldOccurrences rest
  | .pair (.type key) type optional deprecated description attributes :: rest =>
    if (Field.pair (.type key) type optional deprecated description
      attributes).isLive then
      (key.occurrences.map fun o => (.keys, o)) ++
        (type.occurrences.map fun o => (.rest, o)) ++ fieldOccurrences rest
    else fieldOccurrences rest
  | .spread type attributes :: rest =>
    if (Field.spread type attributes).isLive then
      (type.occurrences.map fun o => (.rest, o)) ++ fieldOccurrences rest
    else fieldOccurrences rest

end

/-- The occurrences in a type at the root. Templates stand for their
body there, and an index that is the whole type admits every member
instead of asking for one. -/
def Schema.rootOccurrences : Schema → List Occurrence
  | .template child _ _ => child.rootOccurrences
  | .dispatcher _ _ _ => []
  | .indexed _ _ _ => []
  | type => type.occurrences

/-- The occurrences in a type, at the root or away from it. -/
def Schema.occurrencesAt (isRoot : Bool) (type : Schema) : List Occurrence :=
  if isRoot then type.rootOccurrences else type.occurrences

end Typings
