import Typings.Compiled.Access
import Typings.TypeExpr.Naming

/-!
Struct composition. A struct is the intersection of what it inherits, the
object of its own fixed keys, and what is merged in after the first of them.
A request for one of its own properties turns it into a union over the values
of that property.
-/

namespace Typings

inductive Part where
  /-- A fixed key. -/
  | own (key : String) (optional : Bool) (docs : List String) (value : Compiled)
  /-- One optional property for each of the keys. -/
  | mapped (keys : TypeExpr) (keyImports : Option ImportPaths)
      (value : Compiled)
  /-- All fields of another type. -/
  | spread (value : Compiled)

namespace Part

def value : Part → Compiled
  | own _ _ _ v => v
  | mapped _ _ v => v
  | spread v => v

/-- The imports needed for the keys of a field. -/
def keyImports : Part → Option ImportPaths
  | mapped _ imports _ => imports
  | _ => none

def property? : Part → Option Property
  | own key optional docs v => some (.mk key v.expr optional docs)
  | _ => none

/-- Is the key of the field fixed? -/
def isOwn : Part → Bool
  | own _ _ _ _ => true
  | _ => false

/-- The type that every key of a dynamic field adds. -/
def mappedType? : Part → Option TypeExpr
  | mapped keys _ v => some (.mapped "Key" keys v.expr true none)
  | _ => none

def spreadType? : Part → Option TypeExpr
  | spread v => some v.expr
  | _ => none

/-- The type of a dynamic field or a spread. -/
def inheritedType? (p : Part) : Option TypeExpr :=
  p.mappedType? <|> p.spreadType?

/-- The parts before the first fixed key. -/
def front (parts : List Part) : List Part :=
  parts.takeWhile (!·.isOwn)

/-- The parts from the first fixed key on. -/
def back (parts : List Part) : List Part :=
  parts.dropWhile (!·.isOwn)

/-- What the struct inherits: spreads before the first fixed key, and dynamic
fields anywhere. -/
def inherited (parts : List Part) : List TypeExpr :=
  (front parts).filterMap inheritedType? ++ (back parts).filterMap mappedType?

/-- What is merged in: spreads after the first fixed key. -/
def merged (parts : List Part) : List TypeExpr :=
  (back parts).filterMap spreadType?

def properties (parts : List Part) : List Property :=
  parts.filterMap property?

def allImports (parts : List Part) : Option ImportPaths :=
  parts.foldl (fun imports p =>
    joinImports (joinImports imports p.keyImports) p.value.imports) none

def allRequests (parts : List Part) : List Request :=
  parts.flatMap (·.value.requests)

end Part

/-- The docs of a field: its description, then the docs of its value. -/
def pairDocs (description : Json) (valueDocs : List String) :
    Except Fault (List String) := do
  let own ← if description.isSet then
      do pure [Text.strip (← description.asText)] else pure []
  if valueDocs.isEmpty then return own
  else if own.isEmpty then return valueDocs
  else return own ++ "" :: "Value:" :: valueDocs

/-- The property that the struct is a union over. The first request for
a property that is there decides, and no other may be asked for after
it. Before it, a struct that is not at the root must have every property
it is asked for. -/
def chooseSelector (isRoot : Bool) (keys : List String) :
    List String → Except ShapeCause (Option String)
  | [] => .ok none
  | property :: rest =>
    if keys.contains property then
      match rest.find? (· != property) with
      | some other => .error (.twoSelectors property other)
      | none => .ok (some property)
    else if isRoot then chooseSelector isRoot keys rest
    else .error (.missingSelector property)

/-- The type of the last property with the name, if there is one, and the
properties with the discriminator in its place. -/
def selectProperty (name : String) :
    List Property → Option (TypeExpr × List Property)
  | [] => none
  | p :: rest =>
    match selectProperty name rest with
    | some (type, rest) => some (type, p :: rest)
    | none =>
        if p.name == name then some (p.type, p.withType discriminator :: rest)
        else none

/-- The intersection of all parts around the given properties. -/
def composeParts (parts : List Part) (properties : List Property) : TypeExpr :=
  let own := if properties.isEmpty then [] else [TypeExpr.object properties]
  match Part.inherited parts ++ own ++ Part.merged parts with
  | [] => .noProperties
  | types => .allOf types

/-- The union over the values of a discriminating property. -/
def distribute (values inner : TypeExpr) : TypeExpr :=
  .access (.mapped "S" values inner false none) values

/-- The body of a struct that is a union over the given property,
if there is one. -/
def structBody (parts : List Part) (selector? : Option String) : TypeExpr :=
  match selector?.bind (selectProperty · (Part.properties parts)) with
  | some (values, properties) =>
      distribute values (composeParts parts properties)
  | none => composeParts parts (Part.properties parts)

/-- The requests that structs further out have to answer. -/
def outerRequests (requests : List Request) : List Request :=
  requests.filterMap fun r =>
    if 0 < r.parents then some { r with parents := r.parents - 1 } else none

def requestedHere (requests : List Request) : List String :=
  requests.filterMap fun r => if r.parents = 0 then some r.property else none

/-- Puts a struct together. A struct at the root that leaves a request open
takes the discriminator as a type parameter. -/
def composeStruct (scope : Scope) (parts : List Part) : Except Fault Compiled :=
  let requests := Part.allRequests parts
  let keys := (Part.properties parts).map (·.name)
  match chooseSelector scope.isRoot keys (requestedHere requests) with
  | .error cause =>
      .error (.shape { cause, kind := .str "struct", path := scope.name })
  | .ok selector? =>
    let body := structBody parts selector?
    let isOpen := scope.isRoot && requests.any fun r =>
      decide (0 < r.parents) || !keys.contains r.property
    let compiled : Compiled :=
      { type := .expression body, imports := Part.allImports parts,
        requests := outerRequests requests }
    if isOpen then
      match scope.name with
      | none =>
          .error (.shape { cause := .unnamedStruct, kind := .str "struct" })
      | some name =>
        .ok { compiled with
          type := .declaration
            { name, type := body, params := [.discriminator] } }
    else .ok compiled

end Typings
