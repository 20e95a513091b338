import Typings.Fault
import Typings.Schema.Basic

/-!
Which attributes there are and what values they take. A misused attribute is a
fault of the schema, so anything outside this grammar is refused.
-/

namespace Typings

/-- A short description of an attribute value for messages. -/
def AttributeValue.describe : AttributeValue → String
  | .absent => "absent"
  | .tree arguments => "tree(" ++ ", ".intercalate (arguments.map (·.1)) ++ ")"
  | .type (.literal kind value _) => kind.plain ++ " literal " ++ value.inspect
  | .type t => t.kind ++ " type"

def AttributeValue.isPresent : AttributeValue → Bool
  | .absent => false
  | _ => true

def AttributeValue.literal? : AttributeValue → Option (Json × Json)
  | .type (.literal kind value _) => some (kind, value)
  | _ => none

inductive AttributeShape where
  | absent
  /-- A string, of the given choices if there are any. -/
  | text (choices : Option (List String))
  | number
  | boolean
  | type
  | maybe (shape : AttributeShape)
  | oneOf (shapes : List AttributeShape)
  /-- Named arguments. Of the `single` ones exactly one has to be there. -/
  | tree (fields : List (String × AttributeShape))
      (required single : List String)

namespace AttributeShape

mutual

def describe : AttributeShape → String
  | .absent => "no value"
  | .text none => "a string"
  | .text (some choices) =>
      "one of " ++ ", ".intercalate (choices.map Text.inspect)
  | .number => "a number"
  | .boolean => "a boolean"
  | .type => "a type"
  | .maybe shape => "no value or " ++ shape.describe
  | .oneOf shapes => " or ".intercalate (describeAll shapes)
  | .tree fields _ _ => "tree(" ++ ", ".intercalate (fields.map (·.1)) ++ ")"

def describeAll : List AttributeShape → List String
  | [] => []
  | s :: rest => s.describe :: describeAll rest

end

def refuse (shape : AttributeShape) (name : String) (value : AttributeValue) :
    Except AttributeFault Unit :=
  .error { name, cause := .expected shape.describe, received := value.describe }

def numberKinds : List String :=
  NumericKind.all.map (·.word)

def isLiteralOf (kinds : List String) (value : AttributeValue) : Bool :=
  match value.literal? with
  | some (kind, _) => kinds.any kind.isText
  | none => false

/-- Is the value a string literal of the given choices? -/
def isTextOf (choices : Option (List String)) (value : AttributeValue) : Bool :=
  match value.literal? with
  | some (kind, v) => kind.isText "string" && choices.all (·.any v.isText)
  | none => false

def isType : AttributeValue → Bool
  | .type _ => true
  | _ => false

def argument? (arguments : List (String × AttributeValue)) (key : String) :
    Option AttributeValue :=
  (arguments.lookup key).filter (·.isPresent)

/-- The names of a tree's arguments: none unknown, exactly one of the single
ones, none missing. -/
def checkNames (fields required single : List String) (name : String)
    (arguments : List (String × AttributeValue)) :
    Except AttributeFault Unit := do
  let received := (AttributeValue.tree arguments).describe
  match arguments.find? fun a => !fields.contains a.1 with
  | some a => throw { name, cause := .unknownArgument a.1, received }
  | none => pure ()
  if !single.isEmpty &&
    (single.filter fun key => (argument? arguments key).isSome).length != 1 then
    throw { name, cause := .notExactlyOne single, received }
  match required.find? fun key => (argument? arguments key).isNone with
  | some key => throw { name, cause := .missingArgument key, received }
  | none => pure ()

mutual

/-- Does the value have the shape? If not, the fault names the attribute
and the argument. -/
def check (shape : AttributeShape) (name : String) (value : AttributeValue) :
    Except AttributeFault Unit :=
  match shape with
  | .absent => if value.isPresent then refuse shape name value else .ok ()
  | .text choices =>
      if isTextOf choices value then .ok () else refuse shape name value
  | .number =>
      if isLiteralOf numberKinds value then .ok () else refuse shape name value
  | .boolean =>
      if isLiteralOf ["boolean"] value then .ok () else refuse shape name value
  | .type => if isType value then .ok () else refuse shape name value
  | .maybe inner => if value.isPresent then inner.check name value else .ok ()
  | .oneOf shapes =>
      if anyAccepts shapes name value then .ok () else refuse shape name value
  | .tree fields required single =>
    match value with
    | .tree arguments => do
      checkNames (fields.map (·.1)) required single name arguments
      arguments.forM fun a => checkArgument fields name a.1 a.2
    | _ => refuse shape name value

def anyAccepts : List AttributeShape → String → AttributeValue → Bool
  | [], _, _ => false
  | s :: rest, name, value =>
      (s.check name value).isOk || anyAccepts rest name value

/-- Does the argument's value have the shape declared for it? -/
def checkArgument : List (String × AttributeShape) → String → String →
    AttributeValue → Except AttributeFault Unit
  | [], _, _, _ => .ok ()
  | (key, shape) :: rest, name, argument, value =>
    if key == argument then shape.check (name ++ "." ++ argument) value
    else checkArgument rest name argument value

end

def choice (choices : List String) : AttributeShape :=
  .text (some choices)

def anyText : AttributeShape :=
  .text none

def treeOf (fields : List (String × AttributeShape)) : AttributeShape :=
  .tree fields [] []

/-- An argument that says whether a name is defined here. -/
def mayDefine : AttributeShape :=
  treeOf [("definition", .boolean)]

/-- Every attribute with the shape of its value. -/
def declared : List (String × AttributeShape) :=
  [ -- Versions
    ("since", anyText),
    ("until", anyText),
    ("deprecated", .maybe anyText),
    -- Identifiers
    ("id", .oneOf [.absent, anyText, .tree
      [("registry", anyText),
        ("tags", choice ["allowed", "implicit", "required"]),
        ("definition", .boolean),
        ("prefix", choice ["!"]),
        ("path", anyText),
        ("exclude", .oneOf [anyText, .type]),
        ("empty", choice ["allowed"])] ["registry"] []]),
    ("dispatcher_key", anyText),
    ("item_slots", .absent),
    ("objective", .absent),
    ("score_holder", .absent),
    ("team", .absent),
    ("uuid", .absent),
    ("translation_key", .absent),
    ("translation_value", .absent),
    ("texture_slot", .tree
      [("kind", choice ["definition", "value", "reference"])] ["kind"] []),
    ("criterion", .maybe mayDefine),
    ("crafting_ingredient", .maybe mayDefine),
    ("permutation", mayDefine),
    ("game_rule", .tree [("type", choice ["boolean", "int"])] ["type"] []),
    -- Formats
    ("color", choice ["hex_rgb", "hex_argb", "dec_rgb", "dec_argb",
      "composite_rgb", "composite_argb", "named"]),
    ("command", .tree
      [("slash", choice ["allowed", "required", "chat", "none"]),
        ("macro", choice ["implicit", "allowed", "required"]),
        ("empty", choice ["allowed"]),
        ("max_length", .number),
        ("incomplete", choice ["allowed"])] [] ["macro", "slash"]),
    ("entity", .oneOf [.absent, treeOf
      [("amount", choice ["single", "multiple"]),
        ("type", choice ["entities", "players"])]]),
    ("vector", .tree [("dimension", .number), ("integer", .boolean),
      ("min", .number)] ["dimension"] []),
    ("bitfield", .type),
    ("integer", .maybe (treeOf [("min", .number), ("max", .number)])),
    ("divisible_by", .number),
    ("block_predicate", .absent),
    ("nbt", .maybe .type),
    ("nbt_path", .maybe .type),
    ("regex_pattern", .absent),
    ("match_regex", anyText),
    ("time_pattern", .absent),
    -- Markers that never carry a value
    ("canonical", .absent),
    ("text_component", .absent),
    ("url", .absent),
    ("random", .absent)]

end AttributeShape

namespace Attribute

/-- Is the attribute declared, and does its value have the declared shape? -/
def check (a : Attribute) : Except Fault Unit := do
  let name? ← a.name.asKey?
  match name?.bind fun name => AttributeShape.declared.lookup name with
  | none =>
      throw (.attribute
        { name := a.name.plain, cause := .unrecognized,
          received := a.value.describe })
  | some shape =>
    match shape.check a.name.plain a.value with
    | .ok () => return ()
    | .error fault => throw (.attribute fault)

def find? (attributes : List Attribute) (name : String) : Option Attribute :=
  attributes.find? fun a => a.name.isText name

/-- Is something gone since some version, so that the latest one
does not have it? -/
def isGone (attributes : List Attribute) : Bool :=
  (find? attributes "until").isSome

def isDeprecated (attributes : List Attribute) : Bool :=
  (find? attributes "deprecated").isSome

/-- The attributes that speak of versions only. -/
def versionMarkers : List String :=
  ["since", "until", "deprecated"]

/-- The first attribute that does not speak of versions. -/
def significant? (attributes : List Attribute) : Option Attribute :=
  attributes.find? fun a => !versionMarkers.any a.name.isText

end Attribute

/-- All attributes are declared with values of the declared shapes; the
first fault counts. -/
def checkAttributes (attributes : List Attribute) : Except Fault Unit :=
  attributes.forM Attribute.check

namespace AttributeValue

/-- The value of a string literal, null for anything else. -/
def textLiteral (value : AttributeValue) : Json :=
  match value.literal? with
  | some (kind, v) => if kind.isText "string" then v else .null
  | none => .null

/-- The string literal under an argument of a tree, null for anything else. -/
def textArgument (value : AttributeValue) (key : String) : Json :=
  match value with
  | .tree arguments => ((arguments.lookup key).getD .absent).textLiteral
  | _ => .null

/-- The registry that an identifier points into: the value itself or its
argument `registry`. -/
def registry (value : AttributeValue) : Json :=
  match value with
  | .tree _ => value.textArgument "registry"
  | _ => value.textLiteral

end AttributeValue

end Typings
