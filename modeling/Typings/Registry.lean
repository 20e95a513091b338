import Typings.Declaration
import Typings.ImportPaths
import Typings.Ownership

/-!
Registries and the aggregates built from them. A registry with entries becomes a
union of string literals under a name in capitals, and one object type gives
access to all of them by identifier.
-/

namespace Typings

/-- Lets through letters and digits; every run of other characters
becomes one underscore. -/
def joinWords : List Char → List Char
  | [] => []
  | c :: rest =>
    if c.isAlphanum then c :: joinWords rest
    else match joinWords rest with
      | '_' :: more => '_' :: more
      | more => '_' :: more

/-- The name of a registry's alias: its words in capitals,
joined by underscores. -/
def constantName (registry : String) : String :=
  let words := joinWords (withoutNamespace registry).toList
  let trimmed :=
    ((words.dropWhile (· == '_')).reverse.dropWhile (· == '_')).reverse
  String.ofList (trimmed.map Char.toUpper)

/-- A value with a namespace. One with a colon among its items or keys stays as
it is, like a text that names its namespace. -/
def identifierOf : Json → Except Misuse Json
  | .str id => .ok (.str (withNamespace id))
  | v => do
    if (← v.walk).any (·.isText ":") then return v
    else return .str (standardNamespace ++ ":" ++ v.plain)

def entryText (v : Json) : Except Misuse String := do
  match ← identifierOf v with
  | .str id => return id
  | _ => throw .notKey

/-- Texts in increasing order, each once. -/
def sortedTexts (texts : List String) : List String :=
  (texts.mergeSort fun a b => decide (a ≤ b)).eraseReps

/-- Registries by name without the default namespace; entries have a namespace
and are in order. -/
def readRegistries (registries : Json) :
    Except Misuse (Table (List String)) := do
  (← registries.asEntries).foldlM (fun table e => do
    let values ← (← e.2.walk).mapM entryText
    return table.put (withoutNamespace e.1) (sortedTexts values)) .empty

/-- The entries of an object in order of their keys. Of other collections only
an empty one will do. -/
def entriesInOrder : Json → Except Misuse (List (String × Json))
  | .obj entries => .ok (entries.mergeSort fun a b => decide (a.1 ≤ b.1))
  | v => do if (← v.walk).isEmpty then return [] else throw .notIndexed

/-- Registries whose entries are taken as they stand. One that
is unset has none. -/
def readEntries (registries : Json) : Except Misuse (Table (List String)) := do
  let walked ← (← entriesInOrder registries).mapM fun r => do
    return (r.1, ← if r.2.isSet then r.2.walk else pure [])
  return ⟨← walked.mapM fun r => do return (r.1, ← r.2.mapM Json.asText)⟩

/-- The registries that have entries, in order of their names. -/
def filledRegistries (registries : Table (List String)) :
    List (String × List String) :=
  (registries.sortedKeys.map fun r => (r, (registries.get? r).getD [])).filter
    fun r => !r.2.isEmpty

def registryAliases (registries : Table (List String)) : List Alias :=
  let filled := filledRegistries registries
  filled.map
    (fun r => { name := constantName r.1, type := .anyOf (r.2.map .text) }) ++
    [{ name := "Registry"
       type := .object (filled.map fun r =>
         .plain (withNamespace r.1) (.named (constantName r.1))) }]

/-- A union of the given values under a name, if there are any. -/
def literalAlias? (name : String) (values : List Json) :
    Except Misuse (Option Alias) := do
  match ← Json.orderedSet values with
  | [] => return none
  | values => return some { name, type := .anyOf (values.map .ofValue) }

/-- The first item of a block's data. -/
def firstItem : Json → Except Misuse Json
  | .arr (first :: _) => .ok first
  | .str s =>
    match s.toList with
    | c :: _ => .ok (.str (String.singleton c))
    | [] => .error .notIndexed
  | .obj _ => .error .missingEntry
  | _ => .error .notIndexed

/-- The names of block state properties. The data of a block starts
with its properties. -/
def blockProperties (blockStates : Json) : Except Misuse (List Json) := do
  let found ← (← blockStates.asEntries).mapM fun block => do
    if block.2.isSet then
      let names ← (← firstItem block.2).walk
      names.forM fun n => do let _ ← n.asKey?
      return names
    else return []
  Json.orderedSet found.flatten

/-- A dispatcher's symbol and how many type arguments it needs. -/
structure ExportedSymbol where
  name : String
  generics : Nat

/-- A symbol from the pair of its name and its count. A count below
zero is like zero. -/
def ExportedSymbol.read (pair : Json) : Except Misuse ExportedSymbol := do
  match ← pair.walk with
  | [name, count] =>
    match count.number? with
    | some (.int generics) =>
        return { name := name.plain, generics := generics.toNat }
    | _ => throw .notNumber
  | _ => throw .wrongCount

/-- Symbols by registry, read in order of the registries. -/
def readExportedSymbols (symbols : Json) :
    Except Misuse (Table ExportedSymbol) := do
  return ⟨← (← entriesInOrder symbols).mapM fun s =>
    do return (s.1, ← ExportedSymbol.read s.2)⟩

/-- The object of all dispatchers by registry, with unknown type arguments. -/
def dispatcherCatalogue (symbols : Table ExportedSymbol) :
    Alias × ImportPaths :=
  let sorted :=
    symbols.sortedKeys.filterMap fun r => (symbols.get? r).map (r, ·)
  ({ name := "Dispatcher"
     type := .object (sorted.map fun s =>
       .plain s.1 (.reference s.2.name (.replicate s.2.generics .unknown))) },
   ImportPaths.ofList (sorted.map fun s => tablePath s.2.name))

end Typings
