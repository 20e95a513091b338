import Typings.Fault
import Typings.Plan.Basic
import Typings.RangeEncoding
import Typings.Schema.AttributeShape
import Typings.Schema.Loader

/-!
From a schema type to its plan. This is where a schema is validated: attributes
against their grammar, children against what their parent can wrap, indices
against the shapes that are understood. Version-gated parts keep their
attributes validated, and are dropped.
-/

namespace Typings

/-- The name of a kind of type in messages. -/
def Schema.label : Schema → String
  | .any _ => "AnyType"
  | .unchecked _ => "UnsafeType"
  | .boolean _ => "BooleanType"
  | .string _ _ => "StringType"
  | .numeric _ _ _ => "NumericType"
  | .array _ _ _ _ => "PrimitiveArrayType"
  | .list _ _ _ => "ListType"
  | .tuple _ _ => "TupleType"
  | .enum _ _ _ => "EnumType"
  | .literal _ _ _ => "LiteralType"
  | .struct _ _ => "StructType"
  | .reference _ _ => "ReferenceType"
  | .concrete _ _ _ => "ConcreteType"
  | .template _ _ _ => "TemplateType"
  | .dispatcher _ _ _ => "DispatcherType"
  | .indexed _ _ _ => "IndexedType"
  | .union _ _ => "UnionType"

def Schema.labels : List (String × String) :=
  [("any", "AnyType"), ("unsafe", "UnsafeType"), ("boolean", "BooleanType"),
    ("string", "StringType"), ("literal", "LiteralType"),
    ("byte", "NumericType"), ("short", "NumericType"), ("int", "NumericType"),
   ("long", "NumericType"), ("float", "NumericType"), ("double", "NumericType"),
   ("byte_array", "PrimitiveArrayType"), ("int_array", "PrimitiveArrayType"),
   ("long_array", "PrimitiveArrayType"), ("list", "ListType"),
   ("enum", "EnumType"), ("union", "UnionType"), ("tuple", "TupleType"),
   ("reference", "ReferenceType"), ("concrete", "ConcreteType"),
   ("template", "TemplateType"), ("struct", "StructType"),
   ("dispatcher", "DispatcherType"), ("indexed", "IndexedType")]

/-- An accessor step as messages show it. -/
def Accessor.inspect : Accessor → String
  | .property name => Text.inspect name
  | .keyword word => "KeywordAccessor(keyword=" ++ word.inspect ++ ")"

/-- A group as messages show it; a single member is followed by a comma. -/
def inspectGroup : List String → String
  | [one] => "(" ++ one ++ ",)"
  | all => "(" ++ ", ".intercalate all ++ ")"

def Index.inspect : Index → String
  | .static value => "StaticIndex(value=" ++ value.inspect ++ ")"
  | .dynamic steps =>
      "DynamicIndex(accessor=" ++ inspectGroup (steps.map (·.inspect)) ++ ")"

/-- The shape of a single dynamic index: it ends in a property, or it is
the keyword `key`. -/
def IndexForm.ofSteps? (steps : List Accessor) : Option IndexForm :=
  match steps.getLast? with
  | some (.property name) => some (.dynamic (steps.length - 1) name)
  | some (.keyword word) =>
      if steps.length = 1 ∧ word.isText "key" then some .mapKey else none
  | none => none

/-- The shape of the indices, if it is understood. -/
def IndexForm.ofIndices? : List Index → Option IndexForm
  | [.static value] => some (.static value)
  | [.dynamic steps] => ofSteps? steps
  | _ => none

def IndexForm.of (registry : Json) (indices : List Index) :
    Except Fault IndexForm :=
  match ofIndices? indices with
  | some shape => .ok shape
  | none => .error (.dispatcher registry.plain
      (.unsupportedIndex (inspectGroup (indices.map (·.inspect)))))

/-- The library type of a whole number. -/
def NumericKind.wholeName? : NumericKind → Option String
  | .byte => some "NBTByte"
  | .short => some "NBTShort"
  | .int => some "NBTInt"
  | .long => some "NBTLong"
  | _ => none

def ArrayKind.name : ArrayKind → String
  | .byteArray => "NBTByteArray"
  | .intArray => "NBTIntArray"
  | .longArray => "NBTLongArray"

/-- The type of a number. A plain number is accepted wherever a double is. -/
def Plan.ofNumeric (kind : NumericKind) (range : Option Range) :
    Except Fault Plan := do
  match kind.wholeName? with
  | some name =>
    match range with
    | none => return .fixed (.named name) (some (libraryPath name)) []
    | some r =>
      let (generic, docs) ← r.wholeArgument
      return .fixed (.reference name [generic]) (some (libraryPath name)) docs
  | none =>
    let name := if kind = .float then "NBTFloat" else "NBTDouble"
    let (args, docs) ← match range with
      | none => pure ([], [])
      | some r => do
        let (generic, docs) ← r.fractionalArgument
        pure ([TypeExpr.numeric, generic], docs)
    let type := TypeExpr.reference name args
    return .fixed (if kind = .float then type else .union [type, .numeric])
      (some (libraryPath name)) docs

def Plan.ofArray (kind : ArrayKind) (range length : Option Range) :
    Except Fault Plan := do
  let rangeDocs ← match range with
    | none => pure []
    | some r => do pure ["Value range: " ++ (← r.text)]
  match length with
  | none =>
      return .fixed (.named kind.name) (some (libraryPath kind.name)) rangeDocs
  | some r =>
    let (generic, docs) ← r.lengthArgument "Array"
    return .fixed (.reference kind.name [generic])
      (some (libraryPath kind.name)) (rangeDocs ++ docs)

/-- The library types of the number literals that need one. -/
def literalNames : List (String × String) :=
  [("byte", "NBTByte"), ("short", "NBTShort"), ("float", "NBTFloat")]

/-- The type of a literal, and the path it is imported from. A long may exceed
what a number can hold exactly, so it is written as a string. -/
def literalExpr (kind value : Json) :
    Except Fault (TypeExpr × Option String) := do
  let unknown : Fault :=
    .shape { cause := .unknownLiteralKind kind, kind := .str "literal" }
  match ← kind.asKey? with
  | none => throw unknown
  | some "boolean" => return (.truth value.isSet, none)
  | some "string" => return (.text value.plain, none)
  | some "int" => return (.number value, none)
  | some "double" => return (.number value, none)
  | some "long" =>
    return (.reference "NBTLong" [.text (toString (← value.asWhole))],
      some (libraryPath "NBTLong"))
  | some word =>
    match literalNames.lookup word with
    | some name =>
        return (.reference name [.number value], some (libraryPath name))
    | none => throw unknown

/-- The attributes that narrow a string without changing its type. -/
def plainTextAttributes : List String :=
  ["block_predicate", "color", "command", "crafting_ingredient", "criterion",
    "entity", "game_rule", "integer", "item_slots", "match_regex", "nbt",
    "nbt_path", "objective", "regex_pattern",
   "score_holder", "team", "texture_slot", "time_pattern", "translation_value",
   "uuid", "vector", "dispatcher_key"]

/-- Does the length range leave out the empty string? -/
def excludesEmpty (length : Option Range) : Except Misuse Bool :=
  match length with
  | some r => if r.low.isSet then Range.atLeast r.low 1 else .ok false
  | none => .ok false

def Plan.ofString (length : Option Range) (attributes : List Attribute) :
    Except Fault Plan := do
  let docs ← match length with
    | none => pure []
    | some r => do pure ["String length range: " ++ (← r.text)]
  match Attribute.significant? attributes with
  | none =>
      return .fixed (if ← excludesEmpty length then .someText else .string)
        none docs
  | some found =>
    match ← found.name.asKey? with
    | some "id" =>
      let registry := found.value.registry
      if registry.isNull then return .fixed .identifierText none []
      else return .identifier registry (found.value.textArgument "tags")
    | some "translation_key" => return .translationKey
    | name? =>
      if name?.any plainTextAttributes.contains then
        return .fixed .string none docs
      else throw (.shape { cause := .unsupportedTextAttribute found.name,
                           kind := .str "string" })

/-- The attributes of a string key that admit any string. -/
def plainKeyAttributes : List String :=
  ["texture_slot", "criterion", "dispatcher_key", "translation_key",
    "permutation"]

/-- The keys that a string type stands for. -/
def KeyPlan.ofString (length : Option Range) (attributes : List Attribute) :
    Except Fault KeyPlan := do
  match Attribute.significant? attributes with
  | none =>
      return .fixed (if ← excludesEmpty length then .someText else .string) []
  | some found =>
    match ← found.name.asKey? with
    | some "id" =>
      let registry := found.value.registry
      if registry.isNull then return .fixed .someText []
      else return .registry registry
    | some "item_slots" =>
      return .fixed (.reference "LiteralUnion" [.named "ENTITY_SLOTS"])
        [libraryPath "arguments::ENTITY_SLOTS", libraryPath "LiteralUnion"]
    | some "objective" =>
      return .fixed (.union [.string, .named "ObjectiveClass"])
        [libraryPath "ObjectiveClass"]
    | some "crafting_ingredient" =>
      return .fixed (.named "CRAFTING_INGREDIENT")
        [libraryPath "arguments::CRAFTING_INGREDIENT"]
    | name? =>
      if name?.any plainKeyAttributes.contains then return .fixed .string []
      else throw (.shape { cause := .unsupportedKeyAttribute found.name,
                           kind := .str "struct" })

/-- A fault in a kind of type, away from any symbol. -/
def kindFault (kind : String) (cause : ShapeCause) : Fault :=
  .shape { cause, kind := .str kind }

def Plan.ofPath (path : Json) : Except Fault Plan :=
  if path.isNull then .error (kindFault "reference" .referenceWithoutPath)
  else .ok (.reference path)

/-- The keys of an index access, which are all fixed. -/
def staticKeys (registry : Json) : List Index → Except Fault (List Json)
  | [] => .ok []
  | .static value :: rest => (staticKeys registry rest).map (value :: ·)
  | .dynamic _ :: _ => .error (.dispatcher registry.plain .dynamicIndex)

def enumCases : List EnumValue → Except Fault (List EnumCase)
  | [] => .ok []
  | v :: rest => do
    checkAttributes v.attributes
    let cases ← enumCases rest
    if Attribute.isGone v.attributes then return cases
    else return { identifier := v.identifier, value := v.value,
                  description := v.description } :: cases

/-- Is the type one that a struct can take its fields from? -/
def isSpreadable : Schema → Bool
  | .reference _ _ => true
  | .dispatcher _ _ _ => true
  | .concrete _ _ _ => true
  | .template _ _ _ => true
  | _ => false

mutual

/-- The plan of a type whose own attributes are valid. -/
def Plan.ofBody : Schema → Except Fault Plan
  | .any _ => .ok (.fixed .unknown none [])
  | .unchecked _ => .ok (.fixed .unknown none [])
  | .boolean _ => .ok (.fixed .boolean none [])
  | .string length attributes => ofString length attributes
  | .numeric kind range _ => ofNumeric kind range
  | .array kind range length _ => ofArray kind range length
  | .list item length _ => do
    checkAttributes item.attributes
    return .list (← ofBody item) length
  | .tuple items _ => do
    items.forM fun i => checkAttributes i.attributes
    return .tuple (← ofLive items)
  | .enum kind values _ => do return .enum kind (← enumCases values)
  | .literal kind value _ => do
    let (type, source) ← literalExpr kind value
    return .fixed type source []
  | .struct fields _ => do return .struct (← ofFields fields)
  | .reference path _ => ofPath path
  | .concrete child args _ =>
    match child with
    | .reference path attributes => do
      checkAttributes attributes
      if path.isNull then throw (kindFault "reference" .referenceWithoutPath)
      return .concrete path (← ofAll args)
    | other => .error (kindFault "concrete" (.concreteOverOther other.kind))
  | .template child params _ => do
    checkAttributes child.attributes
    let body ← ofBody child
    return .template (← params.mapM fun p => Fault.ofMisuse p.asText) body
  | .dispatcher registry indices _ => do
    return .dispatcher registry (← IndexForm.of registry indices) none
  | .indexed child indices _ =>
    match child with
    | .dispatcher registry inner attributes => do
      let keys ← staticKeys registry indices
      checkAttributes attributes
      return .dispatcher registry (← IndexForm.of registry inner) (some keys)
    | other => .error (kindFault "indexed" (.indexedOverOther other.kind))
  | .union members _ => do
    members.forM fun m => checkAttributes m.attributes
    return .union (← ofLive members)

def Plan.ofAll : List Schema → Except Fault (List Plan)
  | [] => .ok []
  | s :: rest => do
    checkAttributes s.attributes
    let plan ← ofBody s
    return plan :: (← ofAll rest)

/-- The plans of the types that are still there; all attributes are
known to be valid. -/
def Plan.ofLive : List Schema → Except Fault (List Plan)
  | [] => .ok []
  | s :: rest =>
    if Attribute.isGone s.attributes then ofLive rest
    else do
      let plan ← ofBody s
      return plan :: (← ofLive rest)

def Plan.ofFields : List Field → Except Fault (List Entry)
  | [] => .ok []
  | .spread type attributes :: rest => do
    checkAttributes attributes
    if Attribute.isGone attributes || Attribute.isDeprecated attributes then
      ofFields rest
    else
      if !isSpreadable type then
        throw (kindFault "struct" (.unsupportedSpread type.kind))
      checkAttributes type.attributes
      let plan ← ofBody type
      return .spread plan :: (← ofFields rest)
  | .pair key type optional deprecated description attributes :: rest => do
    checkAttributes attributes
    if Attribute.isGone attributes || Attribute.isDeprecated attributes ||
      deprecated then ofFields rest
    else
      match key with
      | .name name =>
        checkAttributes type.attributes
        let plan ← ofBody type
        return .pair name plan optional description :: (← ofFields rest)
      | .type keyType =>
        let keyPlan ← ofKey keyType
        checkAttributes type.attributes
        let plan ← ofBody type
        return .dynamic keyPlan plan :: (← ofFields rest)

/-- The keys of a dynamic field. -/
def Plan.ofKey : Schema → Except Fault KeyPlan
  | .string length attributes => do
    checkAttributes attributes
    KeyPlan.ofString length attributes
  | .reference path attributes => do
    checkAttributes attributes
    if path.isNull then throw (kindFault "struct" .keyReferenceWithoutPath)
    return .computed (.reference path)
  | .concrete child args attributes => do
    checkAttributes attributes
    match child with
    | .reference path childAttributes =>
      if path.isNull then throw (kindFault "struct" .keyConcreteOverOther)
      checkAttributes childAttributes
      return .computed (.concrete path (← ofAll args))
    | _ => throw (kindFault "struct" .keyConcreteOverOther)
  | .union members attributes => do
    checkAttributes attributes
    members.forM fun m => checkAttributes m.attributes
    return .computed (.union (← ofLive members))
  | other => do
    checkAttributes other.attributes
    throw (kindFault "struct" (.unsupportedKey other.kind))

end

def Plan.ofSchema (type : Schema) : Except Fault Plan := do
  checkAttributes type.attributes
  ofBody type

/-- The plan of a type that is taken for one of the given kind, with its own
attributes unchecked. -/
def Plan.ofSchemaAs (kind : String) (type : Schema) : Except Fault Plan :=
  match Schema.labels.lookup kind with
  | none => .error (.misuse .missingEntry)
  | some wanted =>
    if wanted = "AnyType" ∨ wanted = "UnsafeType" then
      .ok (.fixed .unknown none [])
    else if wanted = "BooleanType" then .ok (.fixed .boolean none [])
    else if wanted = type.label then ofBody type
    else .error (kindFault type.kind (.unexpectedType wanted type.label))

end Typings
