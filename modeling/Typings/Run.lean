import Typings.Dispatcher.Symbol
import Typings.Event
import Typings.Output.Drafts
import Typings.Override
import Typings.Registry
import Typings.Resources
import Typings.Schema.References

/-!
A run over a symbol dump. Four phases follow one another: the registries, what
is to be known of the dispatchers, the symbols of every module, and the
declarations of the dispatchers, each placed beside its main user or in a shared
module. A phase that fails keeps what it did so far.
-/

namespace Typings

/-- A run: its inputs, how far it has come, and what it has produced. -/
structure Run where
  books : Bookkeeping
  dispatchers : Dispatchers
  registries : Json
  translationKeys : List Json := []
  blockProperties : List Json := []
  drafts : Drafts := {}
  completed : List Phase := []
  redirects : Table String := {}
  journal : List Event := []

/-- A step of a run. A fault keeps the changes made before it. -/
abbrev Step := ExceptT Fault (StateM Run)

namespace Run

/-- The items of a collection, none if it is unset. -/
def itemsOf (values : Json) : Except Misuse (List Json) :=
  if values.isSet then values.walk else .ok []

def start (symbols : Symbols) (dispatchers : Dispatchers)
    (registries translationKeys blockProperties : Json) :
    Except Misuse Run := do
  return {
    books := { env := { symbols } }
    dispatchers
    registries := if registries.isSet then registries else .obj []
    translationKeys := ← itemsOf translationKeys
    blockProperties := ← itemsOf blockProperties }

def compute {α : Type} (outcome : Except Fault α) : Step α :=
  fun g => (outcome, g)

def tell (event : Event) : Step Unit :=
  modify fun g => { g with journal := g.journal ++ [event] }

/-- Changes what compiling may look up. -/
def updateEnv (f : Environment → Environment) : Step Unit :=
  modify fun g => { g with books := { g.books with env := f g.books.env } }

def openDraft (path : String) : Step Draft := do
  let (draft, drafts) ← compute ((← get).drafts.access path)
  modify fun g => { g with drafts }
  return draft

def declare (path : String) (declaration : Declaration)
    (imports : Option ImportPaths) (source : Option String) :
    Step Unit := do
  let draft ← openDraft path
  modify fun g => { g with
    drafts := g.drafts.store (draft.add declaration imports source) }

/-- Adds an alias that needs no imports. -/
def declareAlias (path : String) (a : Alias) : Step Unit :=
  declare path (.typeAlias a) none none

def inPhase (phase : Phase) (body : Step Unit) : Step Unit := do
  let expected := Phase.all[(← get).completed.length]?
  if expected ≠ some phase then
    throw (.run (.outOfOrder phase.words (expected.map Phase.words)))
  tell (.resolving phase)
  body
  modify fun g => { g with completed := g.completed ++ [phase] }

/-- Declares the registries, the string registries and the resource classes. -/
def declareRegistries : Step Unit :=
  inPhase .registries do
    let registries ←
      compute (Fault.ofMisuse (readRegistries (← get).registries))
    updateEnv fun env => { env with registries }
    let _ ← openDraft registriesModule
    (registryAliases registries).forM (declareAlias registriesModule)
    match ← compute (Fault.ofMisuse (literalAlias? "TranslationKey"
      (← get).translationKeys)) with
    | some keys =>
      declareAlias registriesModule keys
      updateEnv fun env => { env with hasTranslationKeys := true }
    | none => pure ()
    match ← compute (Fault.ofMisuse (literalAlias? "BlockStateKey"
      (← get).blockProperties)) with
    | some keys => declareAlias registriesModule keys
    | none => pure ()
    declareAlias classesModule resourcesByClass

/-- Notes what is to be known of every dispatcher. -/
def noteDispatchers : Step Unit :=
  inPhase .metadata do
    (← get).dispatchers.entries.forM fun d => do
      let info ← compute (DispatcherHead.of d.1 d.2)
      updateEnv fun env => { env with
        dispatchers := env.dispatchers.put d.1 info }

def ownDocs (doc : Json) : Except Fault (List String) := do
  if doc.isSet then return [Text.strip (← doc.asText)] else return []

/-- The declaration of a compiled symbol. One that still waits for a struct
further out takes the discriminator as a type parameter. -/
def symbolAlias (name : String) (doc : Json) (compiled : Compiled) :
    Except Fault Alias := do
  let own ← ownDocs doc
  match compiled.type with
  | .declaration declared =>
      return { declared with docs := own ++ declared.docs }
  | .expression type =>
    let params :=
      if compiled.requests.isEmpty then [] else [TypeParameter.discriminator]
    return { name, type, params, docs := own ++ compiled.docs }

/-- Every path that is referred to, in symbols and in members of dispatchers. -/
def targets (g : Run) : Except Fault (List Json) := do
  let members := g.dispatchers.values.flatMap (·.values)
  return ← Schema.targets (g.books.env.symbols.values.map (·.type) ++ members)

/-- Is the symbol the published copy of a struct that its parent
declares inline? -/
def isNestedCopy (env : Environment) (referenced : List Json)
    (parent path : String) (symbol : Symbol) : Bool :=
  match symbol.type with
  | .struct _ _ => env.symbols.has parent && !referenced.any (·.isText path)
  | _ => false

def compileSymbol (referenced : List Json) (path : String) (symbol : Symbol) :
    Step Unit := do
  compute (checkAttributes symbol.attributes)
  if Attribute.isGone symbol.attributes then return ()
  let (source, name) ← compute (splitPath path)
  match Override.find? path with
  | some o =>
    let docs ← compute (ownDocs symbol.doc)
    declare source
      (.typeAlias { name, type := o.type, params := o.params, docs })
      (some (.ofList o.imports)) (some path)
  | none =>
    let books := (← get).books
    if isNestedCopy books.env referenced source path symbol then return ()
    let scope : Scope :=
      { isRoot := true, name := some name, source := some source }
    let (outcome, books) :=
      books.absorb (Schema.compile books.env scope symbol.type)
    modify fun g => { g with books }
    let compiled ← compute outcome
    let _ ← openDraft source
    let declared ← compute (symbolAlias name symbol.doc compiled)
    declare source (.typeAlias declared) compiled.imports (some path)

def compileSymbols : Step Unit :=
  inPhase .symbols do
    let referenced ← compute (← get).targets
    (← get).books.env.symbols.entries.forM fun s =>
      compileSymbol referenced s.1 s.2

/-- Would a name be declared twice, or be both declared and imported, if the
dispatcher moved into the module? -/
def clashes (draft : Draft) (d : DispatcherSymbol) : Except Fault Bool := do
  let own := tablePath d.info.tableName
  let declared := draft.aliasNames
  let imported ← draft.namesFromOutside [own]
  let twice := d.declarations.any fun a => declared.contains a.name ||
    imported.contains a.name
  let paths := match d.imports with
    | some l => l.ordered
    | none => []
  let brought ← draft.foreignNames [own] paths
  return twice || brought.any declared.contains

/-- The module that a dispatcher goes to, none for the shared one. -/
def homeOf (registry : String) (d : DispatcherSymbol) :
    Step (Option String) := do
  let (owner?, books) := (← get).books.home registry
  modify fun g => { g with books }
  match owner? with
  | none => return none
  | some owner =>
    if ← compute (clashes (← openDraft owner) d) then return none
    else return some owner

/-- Adds all declarations of a dispatcher to a module; the first one
carries the imports. -/
def declareAll (path : String) (d : DispatcherSymbol) : Step Unit :=
  match d.declarations with
  | [] => pure ()
  | first :: rest => do
    declare path (.typeAlias first) d.imports none
    rest.forM (declareAlias path)

def compileTable (registry : String) : Step ExportedSymbol := do
  let g ← get
  let d ← compute (DispatcherSymbol.build g.books.env registry
    ((g.dispatchers.get? registry).getD {}))
  let symbol := d.info.tableName
  match ← homeOf registry d with
  | none => declareAll tablesModule d
  | some owner =>
    modify fun g => { g with
      redirects := g.redirects.put (tablePath symbol)
        (owner ++ "::" ++ symbol) }
    let file ← compute (importFile owner)
    declare tablesModule (.reExport { names := [symbol], file }) none none
    declareAll owner d
  return { name := symbol, generics := d.info.params.length }

/-- Compiles every dispatcher, in order of the registries, and
exports them together. -/
def compileTables : Step Unit :=
  inPhase .tables do
    let _ ← openDraft tablesModule
    let symbols ← (← get).dispatchers.sortedKeys.mapM fun registry => do
      return (registry, ← compileTable registry)
    let (declared, imports) := dispatcherCatalogue ⟨symbols⟩
    declare tablesModule (.typeAlias declared) (some imports) none

def close : Step (List OutputModule) := fun g =>
  let (outcome, drafts) := g.drafts.close g.redirects
  (outcome, { g with drafts })

/-- Runs all phases and finishes the modules. -/
def runAll : Step (List OutputModule) := do
  declareRegistries
  noteDispatchers
  compileSymbols
  compileTables
  let modules ← close
  tell (.resolved modules.length)
  return modules

end Run

def Run.ofDump (data registries translationKeys blockProperties : Json) :
    Except Fault Run := do
  let symbols ← Symbols.read data
  let entries ← data.asEntries
  let dispatchers ←
    Dispatchers.read ((Json.get? entries "mcdoc/dispatcher").getD (.obj []))
  return ← start symbols dispatchers registries translationKeys blockProperties

end Typings
