import Typings.Dispatcher.Head
import Typings.Plan.Compile

/-!
The declarations of a dispatcher: one alias for each member, the object of all
members by key, the union of their keys, the union of all members, and a symbol
that selects one of these by case.
-/

namespace Typings

structure DispatcherSymbol where
  info : DispatcherHead
  members : List Alias
  map : Alias
  keys : Alias
  fallback : Alias
  symbol : Alias
  imports : Option ImportPaths := none

/-- All declarations in the order in which they are written. -/
def DispatcherSymbol.declarations (d : DispatcherSymbol) : List Alias :=
  d.members ++ [d.map, d.keys, d.fallback, d.symbol]

/-- The branch of a chain of cases that a case selects; `never`
if there is none. -/
def caseBranch (case : String) : TypeExpr → TypeExpr
  | .conditional _ (.text label) yes no _ =>
      if label = case then yes else caseBranch case no
  | .conditional _ _ _ no _ => caseBranch case no
  | _ => .never

def DispatcherSymbol.select (d : DispatcherSymbol) (case : String) : TypeExpr :=
  caseBranch case d.symbol.type

/-- The name of a member's alias. -/
def memberName (info : DispatcherHead) (key : String) : String :=
  if key = otherKey then info.name ++ "FallbackType"
  else if key = absentKey then info.name ++ "NoneType"
  else info.name ++ memberEnding key

/-- Shared type parameters come first, unless the alias has one of
the name itself. -/
def hoistParams (shared own : List TypeParameter) : List TypeParameter :=
  shared.filter (fun p => !own.any (·.name == p.name)) ++ own

def declareMember (info : DispatcherHead) (name : String)
    (compiled : Compiled) : Alias :=
  match compiled.type with
  | .declaration declared =>
    { declared with name, params := hoistParams info.params declared.params,
                    exported := false }
  | .expression type => { name, type, params := info.params, exported := false,
                          docs := compiled.docs }

/-- A declaration of the dispatcher, applied to the shared type parameters. -/
def DispatcherHead.apply (info : DispatcherHead) (name : String) : TypeExpr :=
  .reference name (info.params.map fun p => .named p.name)

/-- Compiles one member. Nothing is counted, since it lies in no module. -/
def compileMember (env : Environment) (info : DispatcherHead) (key : String)
    (type : Schema) :
    Except Fault (Alias × Option ImportPaths) := do
  let name := memberName info key
  let compiled ←
    (Schema.compile env { isRoot := true, name := some name } type).outcome
  return (declareMember info name compiled, compiled.imports)

/-- The keys that select a member of their own. -/
def ordinaryKeys (members : Table Schema) : List String :=
  members.keys.filter fun key => !isSpecialMember key

def fallbackKeys (members : Table Schema) : List String :=
  members.keys.filter fun key => key != absentKey

def caseLink (case : String) (yes no : TypeExpr) : TypeExpr :=
  .conditional (.named "CASE") (.text case) yes no false

def caseChain (info : DispatcherHead) (hasAbsent : Bool) : TypeExpr :=
  let none := if hasAbsent then
      caseLink "%none" (info.apply (memberName info absentKey)) .never
    else .never
  caseLink "map" (info.apply (info.name ++ "Map"))
    (caseLink "keys" (info.apply (info.name ++ "Keys"))
      (caseLink "%fallback" (info.apply (info.name ++ "Fallback")) none))

def caseSelector : TypeParameter :=
  { name := "CASE"
    bound := some (.union [.text "map", .text "keys", fallbackCase, noneCase])
    fallback := some (.text "map") }

/-- The declarations of a dispatcher whose members are compiled. -/
def DispatcherSymbol.assemble (info : DispatcherHead) (members : Table Schema)
    (aliases : List Alias) (imports : Option ImportPaths) : DispatcherSymbol :=
  let member (key : String) := info.apply (memberName info key)
  let keys := ordinaryKeys members
  { info
    members := aliases
    map :=
      { name := info.name ++ "Map", params := info.params, exported := false
        type := .object (keys.map fun key => .plain key (member key)) }
    keys :=
      { name := info.name ++ "Keys", params := info.params, exported := false
        type := .anyOf (keys.map .text) }
    fallback :=
      { name := info.name ++ "Fallback", params := info.params,
        exported := false
        type := .anyOf ((fallbackKeys members).map member) }
    symbol :=
      { name := info.tableName, params := info.params ++ [caseSelector]
        type := caseChain info (members.has absentKey) }
    imports }

/-- Compiles a dispatcher whose head is known. -/
def DispatcherSymbol.build (env : Environment) (registry : String)
    (members : Table Schema) :
    Except Fault DispatcherSymbol := do
  match env.dispatchers.get? registry with
  | none => throw (.dispatcher registry .withoutMetadata)
  | some info =>
    let compiled ← members.entries.mapM fun m => compileMember env info m.1 m.2
    let imports :=
      compiled.foldl (fun imports c => joinImports imports c.2) none
    return assemble info members (compiled.map (·.1)) imports

end Typings
