import Typings.Fault
import Typings.Schema.Basic
import Typings.Table
import Typings.Text.Split

/-!
Loading schemas from JSON. A type is an object whose `kind` says which other
entries it has. A missing entry, an unknown kind or something that is no type at
all is a fault that names the symbol being loaded; faults are met in the order
in which the document is read.
-/

namespace Typings

def shapeFault (cause : ShapeCause) (kind : Json)
    (path : Option String) : Fault :=
  .shape { cause, kind, path }

def needed (kind : String) (path : Option String) (data : Json) (key : String) :
    Except Fault Json :=
  match data with
  | .obj entries =>
    match Json.get? entries key with
    | some v => .ok v
    | none => .error (shapeFault (.missingField key) (.str kind) path)
  | _ => .error (shapeFault (.missingField key) (.str kind) path)

namespace Range

def read (data : Json) : Except Fault (Option Range) :=
  match data with
  | .null => .ok none
  | .obj entries =>
    .ok (some
      { kind := (Json.get? entries "kind").getD (.int 0)
        low := Json.getD entries "min"
        high := Json.getD entries "max" })
  | _ => .error (.misuse .notObject)

end Range

/-- One step of a dynamic index. -/
def Accessor.read (path : Option String) (data : Json) :
    Except Fault Accessor :=
  match data with
  | .str name => .ok (.property name)
  | _ => (needed "dispatcher" path data "keyword").map .keyword

def Index.read (path : Option String) (data : Json) : Except Fault Index := do
  let entries ← data.asEntries
  let kind := Json.getD entries "kind"
  if kind.isText "static" then
    return .static (← needed "dispatcher" path data "value")
  else if kind.isText "dynamic" then
    let steps ← (← needed "dispatcher" path data "accessor").walk
    return .dynamic (← steps.mapM (Accessor.read path))
  else throw (shapeFault (.unknownIndexKind kind) (.str "dispatcher") path)

def Index.readAll (kind : String) (path : Option String) (data : Json) :
    Except Fault (List Index) := do
  let items ← (← needed kind path data "parallelIndices").walk
  items.mapM (Index.read path)

namespace Schema

mutual

/-- A type. Every step into the document takes one of the `fuel`. -/
def readWith (fuel : Nat) (path : Option String) (data : Json) :
    Except Fault Schema :=
  match fuel with
  | 0 => .error (shapeFault (.notType data) .null path)
  | fuel + 1 =>
    match data with
    | .obj entries =>
      match Json.get? entries "kind" with
      | none => .error (shapeFault (.notType data) .null path)
      | some kind => do
        let attributes ←
          readAttributes fuel path (Json.getD entries "attributes")
        match kind with
        | .str "any" => return .any attributes
        | .str "unsafe" => return .unchecked attributes
        | .str "boolean" => return .boolean attributes
        | .str "string" =>
            return .string (← Range.read (Json.getD entries "lengthRange"))
              attributes
        | .str "list" =>
          let item ← readWith fuel path (← needed "list" path data "item")
          return .list item (← Range.read (Json.getD entries "lengthRange"))
            attributes
        | .str "tuple" =>
          let items ← (← needed "tuple" path data "items").walk
          return .tuple (← items.mapM (readWith fuel path)) attributes
        | .str "enum" =>
          let values ← (← needed "enum" path data "values").walk
          let values ← values.mapM fun v => do
            let identifier ← needed "enum" path v "identifier"
            let value ← needed "enum" path v "value"
            let attributes ← readAttributes fuel path (v.entry "attributes")
            return EnumValue.mk identifier value (v.entry "desc") attributes
          return .enum ((Json.get? entries "enumKind").getD (.str "string"))
            values attributes
        | .str "literal" =>
          let literal ← needed "literal" path data "value"
          let kind ← needed "literal" path literal "kind"
          return .literal kind (← needed "literal" path literal "value")
            attributes
        | .str "struct" =>
          let fields ← (← needed "struct" path data "fields").walk
          return .struct (← fields.mapM (readField fuel path)) attributes
        | .str "reference" =>
            return .reference (Json.getD entries "path") attributes
        | .str "concrete" =>
          let child ← readWith fuel path (← needed "concrete" path data "child")
          let args ← ((Json.get? entries "typeArgs").getD (.arr [])).walk
          return .concrete child (← args.mapM (readWith fuel path)) attributes
        | .str "template" =>
          let child ← readWith fuel path (← needed "template" path data "child")
          let params ← ((Json.get? entries "typeParams").getD (.arr [])).walk
          return .template child
            (← params.mapM (needed "template" path · "path")) attributes
        | .str "dispatcher" =>
          let registry ← needed "dispatcher" path data "registry"
          return .dispatcher registry (← Index.readAll "dispatcher" path data)
            attributes
        | .str "indexed" =>
          let child ← readWith fuel path (← needed "indexed" path data "child")
          return .indexed child (← Index.readAll "indexed" path data) attributes
        | .str "union" =>
          let members ← (← needed "union" path data "members").walk
          return .union (← members.mapM (readWith fuel path)) attributes
        | _ =>
          match NumericKind.all.find? fun k => kind.isText k.word with
          | some k =>
              return .numeric k
                (← Range.read (Json.getD entries "valueRange")) attributes
          | none =>
            match ArrayKind.all.find? fun k => kind.isText k.word with
            | some k =>
              let range ← Range.read (Json.getD entries "valueRange")
              return .array k range
                (← Range.read (Json.getD entries "lengthRange")) attributes
            | none => throw (shapeFault (.unsupportedKind kind) kind path)
    | _ => .error (shapeFault (.notType data) .null path)

/-- The attributes of a type, a field or a value; unset data has none. -/
def readAttributes (fuel : Nat) (path : Option String) (data : Json) :
    Except Fault (List Attribute) :=
  match fuel with
  | 0 => .ok []
  | fuel + 1 => do
    if data.isSet then
      (← data.walk).mapM fun item => do
        let name ← needed "attribute" path item "name"
        return .mk name (← readAttributeValue fuel path (item.entry "value"))
    else return []

/-- The value of an attribute: nothing, a tree of named arguments or a type. -/
def readAttributeValue (fuel : Nat) (path : Option String) (data : Json) :
    Except Fault AttributeValue :=
  match fuel with
  | 0 => .ok .absent
  | fuel + 1 =>
    if data.isNull then .ok .absent
    else if (data.entry "kind").isText "tree" then do
      let arguments ← (data.entryD "values" (.obj [])).asEntries
      return .tree (← arguments.mapM fun a =>
        do return (a.1, ← readAttributeValue fuel path a.2))
    else return .type (← readWith fuel path data)

def readField (fuel : Nat) (path : Option String) (data : Json) :
    Except Fault Field :=
  match fuel with
  | 0 => .error (.misuse .notObject)
  | fuel + 1 => do
    let entries ← data.asEntries
    let attributes ← readAttributes fuel path (Json.getD entries "attributes")
    let kind := Json.getD entries "kind"
    if kind.isText "spread" then
      return .spread (← readWith fuel path (← needed "struct" path data "type"))
        attributes
    else if kind.isText "pair" then
      let key ← match ← needed "struct" path data "key" with
        | .str name => pure (FieldKey.name name)
        | key => FieldKey.type <$> readWith fuel path key
      let type ← readWith fuel path (← needed "struct" path data "type")
      return .pair key type (Json.getD entries "optional").isSet
        (Json.getD entries "deprecated").isSet
        (Json.getD entries "desc") attributes
    else throw (shapeFault (.unknownFieldKind kind) (.str "struct") path)

end

/-- A type. The depth of a document bounds the steps into it. -/
def read (path : Option String) (data : Json) : Except Fault Schema :=
  readWith data.depth path data

end Schema

/-- Is there an entry, an item or a piece of text equal to `key`, and what is
under it? Only an object has something under a key. -/
def Json.under? (data : Json) (key : String) : Except Misuse (Option Json) :=
  match data with
  | .obj entries => .ok (Json.get? entries key)
  | .arr items =>
      if items.any (·.isText key) then .error .notIndexed else .ok none
  | .str s =>
      if Text.holds key.toList s.toList then .error .notIndexed else .ok none
  | _ => .error .notCollection

/-- A symbol: a type, or a type definition with docs and
attributes of its own. -/
def Symbol.read (path : Option String) (data : Json) : Except Fault Symbol := do
  match ← data.under? "typeDef" with
  | some typeDef =>
    let type ← Schema.read path typeDef
    let doc := data.entryD "desc" (data.entry "doc")
    let attributes ←
      Schema.readAttributes data.depth path (data.entry "attributes")
    return { type, doc, attributes }
  | none => return { type := ← Schema.read path data, doc := data.entry "desc" }

abbrev Symbols := Table Symbol

/-- The symbols of a section, or of a whole dump with the
section under `mcdoc`. -/
def Symbols.read (data : Json) : Except Fault Symbols := do
  let section? ← data.under? "mcdoc"
  let entries ← match section? with
    | some (.obj entries) => pure entries
    | _ => data.asEntries
  entries.foldlM (fun table e =>
    do return table.put e.1 (← Symbol.read (some e.1) e.2)) .empty

/-- The members of each dispatcher by key. -/
abbrev Dispatchers := Table (Table Schema)

def Dispatchers.readMembers (registry : String) (data : Json) :
    Except Fault (Table Schema) := do
  (← data.asEntries).foldlM (fun table e => do
    let symbol ← Symbol.read (some (registry ++ "[" ++ e.1 ++ "]")) e.2
    return table.put e.1 symbol.type) .empty

/-- The dispatchers of a section, or of a whole dump with the section under
`mcdoc/dispatcher`. -/
def Dispatchers.read (data : Json) : Except Fault Dispatchers := do
  let data := (← data.under? "mcdoc/dispatcher").getD data
  (← data.asEntries).foldlM
    (fun table e => do return table.put e.1 (← readMembers e.1 e.2)) .empty

end Typings
