import Typings.Compiled.Struct
import Typings.Plan.OfSchema

/-!
Compiling a plan in a scope.
-/

namespace Typings

def pathText : Json → Except Misuse String
  | .str path => .ok path
  | .arr _ => .error .notKey
  | .obj _ => .error .notKey
  | _ => .error .notText

/-- The path that a reference ends at. A type parameter stands for itself. -/
def Environment.target (env : Environment) (generics : List String)
    (path : Json) : Except Misuse String := do
  let path ← pathText path
  if generics.contains path then return path else pathText (env.follow path)

/-- A reference, applied to the type arguments in scope. -/
def compileReference (env : Environment) (scope : Scope) (path : Json) :
    Except Fault Compiled := do
  let path ← env.target scope.generics path
  let imports := if scope.generics.contains path then none
    else some (ImportPaths.ofList [path])
  return .ofExpr (.reference (lastSegment path) scope.args) imports

/-- The identifiers of a registry; a registry without entries admits any
namespaced string. -/
def identifiersOf (env : Environment) (registry : Json) :
    Except Fault (TypeExpr × Option ImportPaths) := do
  let registry ← registry.asText
  if env.knowsRegistry registry then
    return (.access (.named "Registry") (.text (withNamespace registry)),
      some (.ofList [registriesModule ++ "::Registry"]))
  else return (.identifierText, none)

def compileIdentifier (env : Environment) (registry tags : Json) :
    Except Fault Compiled := do
  let (type, imports) ← identifiersOf env registry
  if tags.isText "required" then return .ofExpr .tagText none
  else if tags.isText "allowed" || tags.isText "implicit" then
    return .ofExpr (.union [type, .tagText]) imports
  else return .ofExpr type imports

/-- A translation key; any string while no keys are known. -/
def translationKeyType (env : Environment) : Compiled :=
  if env.hasTranslationKeys then
    .ofExpr (.reference "LiteralUnion" [.named "TranslationKey"])
      (some (.ofList [libraryPath "LiteralUnion",
        registriesModule ++ "::TranslationKey"]))
  else .ofExpr .string none

/-- The type of one value of an enum, the path it is imported from, and
its line of docs. -/
def compileCase (kind : Json) (c : EnumCase) :
    Except Fault (TypeExpr × Option String × List String) := do
  let (type, source) ← literalExpr kind c.value
  if c.description.isSet then
    let description ← c.description.asText
    return (type, source,
      ["`" ++ c.identifier.plain ++ "`: " ++ Text.strip description])
  else return (type, source, [])

def compileEnum (kind : Json) (cases : List EnumCase) :
    Except Fault Compiled := do
  let compiled ← cases.mapM (compileCase kind)
  return {
    type := .expression (.anyOf (compiled.map (·.1)))
    imports := (compiled.filterMap (·.2.1)).foldl includeImport none
    docs := compiled.flatMap (·.2.2) }

/-- A list of items. A request for a property of the struct around the
items cannot pass. -/
def compileList (scope : Scope) (item : Compiled) (length : Option Range) :
    Except Fault Compiled := do
  let requests ← item.requests.mapM fun r =>
    if r.parents = 0 then
      .error (.shape { cause := .requestThroughList r.property,
                       kind := .str "list", path := scope.name })
    else .ok { r with parents := r.parents - 1 }
  match length with
  | none =>
    return { type := .expression (.reference "Array" [item.expr]),
             imports := item.imports, docs := item.docs,
             requests }
  | some range =>
    let (generic, docs) ← range.lengthArgument "List"
    return {
      type := .expression (.reference "NBTList" [item.expr, generic])
      imports :=
        joinImports (some (.ofList [libraryPath "NBTList"])) item.imports
      docs := docs ++ item.docs
      requests }

def unionDocs (heading : String) : List Compiled → List String
  | [] => []
  | c :: rest => (if c.docs.isEmpty then [] else heading :: c.docs) ++
      unionDocs "*or*" rest

/-- The union of compiled members; a single one stands for itself. -/
def compileUnion : List Compiled → Compiled
  | [] => .ofExpr .never none
  | [one] => one
  | members =>
    { type := .expression (.union (members.map (·.expr)))
      imports := Compiled.allImports members
      docs := unionDocs "*either*" members
      requests := Compiled.allRequests members }

def compileTuple (items : List Compiled) : Compiled :=
  { type := .expression (.tuple (items.map (·.expr)))
    imports := Compiled.allImports items
    requests := Compiled.allRequests items }

/-- The type parameters of a template around a body: its own, those of
the body, and the discriminator if the body leaves requests open and
nothing else binds it. -/
def templateParams (params : List String) (body : Compiled) :
    List TypeParameter :=
  let own :=
    params.map fun path => ({ name := lastSegment path } : TypeParameter)
  let inner := match body.type with
    | .declaration declared => declared.params
    | .expression _ => []
  let all := own ++ inner
  if !body.requests.isEmpty && !all.any (·.name == "S") then
    all ++ [.discriminator]
  else all

/-- A template is declared under the name of its symbol. -/
def compileTemplate (name : String) (params : List String) (body : Compiled) :
    Compiled :=
  { type := .declaration
      { name, type := body.expr, params := templateParams params body,
        docs := body.docs }
    imports := body.imports
    requests := body.requests }

/-- What is known of a dispatcher that is referred to. -/
def Environment.dispatcher (env : Environment) (registry : Json) :
    Except Fault (String × DispatcherHead) := do
  let unknown : Fault := .dispatcher registry.plain .unknown
  match ← registry.asKey? with
  | none => throw unknown
  | some key =>
    match env.dispatchers.get? key with
    | some info => return (key, info)
    | none => throw unknown

/-- An index into a dispatcher. The reference is noted if it is
made from a module. -/
def compileDispatcher (env : Environment) (scope : Scope) (registry : Json)
    (index : IndexForm) (keys : List Json) : Emit Compiled := do
  let (registry, info) ← env.dispatcher registry
  if let some source := scope.source then Emit.note { registry, source }
  let (type, requests) := info.access index scope.isRoot scope.args keys
  return { type := .expression type,
           imports := some (.ofList [tablePath info.tableName]), requests }

def Scope.nameUnder (scope : Scope) (key : String) : Option String :=
  match scope.name with
  | some name => if name = "" then none else some (name ++ pascalCase key)
  | none => none

mutual

def Plan.compile (env : Environment) (scope : Scope) : Plan → Emit Compiled
  | .fixed type source docs =>
    pure { type := .expression type,
           imports := source.map fun path => .ofList [path], docs }
  | .identifier registry tags =>
      Emit.ofExcept (compileIdentifier env registry tags)
  | .translationKey => pure (translationKeyType env)
  | .enum kind cases => Emit.ofExcept (compileEnum kind cases)
  | .reference path => Emit.ofExcept (compileReference env scope path)
  | .concrete path args => do
    let args ← compileAll env (scope.nested none) args
    let child ← compileReference env { scope.nested none with
      args := args.map (·.expr) } path
    return {
      type := child.type
      imports := joinImports (Compiled.allImports args) child.imports
      docs := child.docs
      requests := Compiled.allRequests args }
  | .template params body =>
    match scope.isRoot, scope.name with
    | true, some name => do
      let inner := { scope with
        generics := scope.generics ++ params, args := [], keys := [] }
      return compileTemplate name params (← body.compile env inner)
    | _, _ => .fail (.shape
        { cause := .templateInside, kind := .str "template",
          path := scope.name })
  | .list item length => do
    let item ← item.compile env (scope.nested scope.name)
    compileList scope item length
  | .union members => do
    return compileUnion (← compileAll env (scope.nested scope.name) members)
  | .tuple items => do
    return compileTuple (← compileAll env (scope.nested scope.name) items)
  | .struct entries => do
    let parts ← compileEntries env scope entries
    composeStruct scope parts
  | .dispatcher registry index keys =>
      compileDispatcher env scope registry index (keys.getD scope.keys)

def Plan.compileAll (env : Environment) (scope : Scope) :
    List Plan → Emit (List Compiled)
  | [] => pure []
  | p :: rest => do
    let compiled ← p.compile env scope
    return compiled :: (← compileAll env scope rest)

/-- Compiles the fields of a struct in the scope of the struct. -/
def Plan.compileEntries (env : Environment) (scope : Scope) :
    List Entry → Emit (List Part)
  | [] => pure []
  | .pair key value optional description :: rest => do
    let value ← value.compile env (scope.nested (scope.nameUnder key))
    let docs ← pairDocs description value.docs
    return .own key optional docs value :: (← compileEntries env scope rest)
  | .dynamic key value :: rest => do
    let (keys, keyImports) ← compileKey env scope key
    let value ← value.compile env (scope.nested scope.name)
    return .mapped keys keyImports value :: (← compileEntries env scope rest)
  | .spread value :: rest => do
    let value ← value.compile env (scope.nested scope.name)
    return .spread value :: (← compileEntries env scope rest)

/-- Compiles the keys of a dynamic field. Requests inside them
are not passed on. -/
def Plan.compileKey (env : Environment) (scope : Scope) :
    KeyPlan → Emit (TypeExpr × Option ImportPaths)
  | .fixed type sources =>
      pure (type, if sources.isEmpty then none else some (.ofList sources))
  | .registry registry => Emit.ofExcept (identifiersOf env registry)
  | .computed plan => do
    let compiled ← plan.compile env (scope.nested none)
    return (compiled.expr, compiled.imports)

end

def Schema.compile (env : Environment) (scope : Scope) (type : Schema) :
    Emit Compiled := do
  let plan ← Plan.ofSchema type
  plan.compile env scope

/-- Counts the references that were met, whatever came out. -/
def Bookkeeping.absorb {α : Type} (r : Bookkeeping) (emit : Emit α) :
    Except Fault α × Bookkeeping :=
  (emit.outcome, emit.references.foldl Bookkeeping.count r)

end Typings
