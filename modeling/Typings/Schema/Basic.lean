import Typings.Json.Basic

/-!
The schema language: types with the attributes written on them. Loading checks
the shape of a document and leaves its leaves as they are, so paths, registries,
literal kinds, descriptions and bounds are JSON values here.
-/

namespace Typings

/-- A range of numbers. Bit 1 of the kind leaves the lower bound out and bit 0
the upper one; a bound that is null is open. -/
structure Range where
  kind : Json := .int 0
  low : Json := .null
  high : Json := .null

inductive NumericKind where
  | byte
  | short
  | int
  | long
  | float
  | double
  deriving DecidableEq, Repr

def NumericKind.word : NumericKind → String
  | .byte => "byte"
  | .short => "short"
  | .int => "int"
  | .long => "long"
  | .float => "float"
  | .double => "double"

/-- The kinds of numbers, from the narrowest whole one to the
widest fractional one. -/
def NumericKind.all : List NumericKind :=
  [.byte, .short, .int, .long, .float, .double]

inductive ArrayKind where
  | byteArray
  | intArray
  | longArray
  deriving DecidableEq, Repr

def ArrayKind.word : ArrayKind → String
  | .byteArray => "byte_array"
  | .intArray => "int_array"
  | .longArray => "long_array"

/-- The kinds of arrays, by the width of their items. -/
def ArrayKind.all : List ArrayKind :=
  [.byteArray, .intArray, .longArray]

/-- One step of a dynamic index: a property, or a keyword such as
`%key` and `%parent`. -/
inductive Accessor where
  | property (name : String)
  | keyword (word : Json)

/-- An index into a dispatcher: a fixed key, or one found by walking from
the current struct. -/
inductive Index where
  | static (value : Json)
  | dynamic (steps : List Accessor)

mutual

inductive Schema where
  | any (attributes : List Attribute)
  /-- A type whose values are not checked. -/
  | unchecked (attributes : List Attribute)
  | boolean (attributes : List Attribute)
  | string (length : Option Range) (attributes : List Attribute)
  | numeric (kind : NumericKind) (range : Option Range)
      (attributes : List Attribute)
  | array (kind : ArrayKind) (range length : Option Range)
      (attributes : List Attribute)
  | list (item : Schema) (length : Option Range) (attributes : List Attribute)
  | tuple (items : List Schema) (attributes : List Attribute)
  | enum (kind : Json) (values : List EnumValue) (attributes : List Attribute)
  | literal (kind value : Json) (attributes : List Attribute)
  | struct (fields : List Field) (attributes : List Attribute)
  /-- A symbol named by its path; null if the path is missing. -/
  | reference (path : Json) (attributes : List Attribute)
  /-- A generic type with its arguments. -/
  | concrete (child : Schema) (args : List Schema) (attributes : List Attribute)
  /-- A type with parameters, each named by a path. -/
  | template (child : Schema) (params : List Json) (attributes : List Attribute)
  | dispatcher (registry : Json) (indices : List Index)
      (attributes : List Attribute)
  | indexed (child : Schema) (indices : List Index)
      (attributes : List Attribute)
  | union (members : List Schema) (attributes : List Attribute)

/-- An attribute written on a type, a field or an enum value. -/
inductive Attribute where
  | mk (name : Json) (value : AttributeValue)

inductive AttributeValue where
  | absent
  | type (type : Schema)
  | tree (arguments : List (String × AttributeValue))

inductive EnumValue where
  | mk (identifier value description : Json) (attributes : List Attribute)

/-- A field of a struct: a key with its type, or all fields of another type. -/
inductive Field where
  | pair (key : FieldKey) (type : Schema) (optional deprecated : Bool)
      (description : Json) (attributes : List Attribute)
  | spread (type : Schema) (attributes : List Attribute)

/-- The key of a field: a fixed name, or any key of a type. -/
inductive FieldKey where
  | name (name : String)
  | type (type : Schema)

end

instance : Inhabited Schema := ⟨.any []⟩

namespace Attribute

def name : Attribute → Json
  | mk n _ => n

def value : Attribute → AttributeValue
  | mk _ v => v

end Attribute

namespace EnumValue

def identifier : EnumValue → Json
  | mk i _ _ _ => i

def value : EnumValue → Json
  | mk _ v _ _ => v

def description : EnumValue → Json
  | mk _ _ d _ => d

def attributes : EnumValue → List Attribute
  | mk _ _ _ as => as

end EnumValue

def Field.attributes : Field → List Attribute
  | .pair _ _ _ _ _ as => as
  | .spread _ as => as

namespace Schema

def attributes : Schema → List Attribute
  | .any as => as
  | .unchecked as => as
  | .boolean as => as
  | .string _ as => as
  | .numeric _ _ as => as
  | .array _ _ _ as => as
  | .list _ _ as => as
  | .tuple _ as => as
  | .enum _ _ as => as
  | .literal _ _ as => as
  | .struct _ as => as
  | .reference _ as => as
  | .concrete _ _ as => as
  | .template _ _ as => as
  | .dispatcher _ _ as => as
  | .indexed _ _ as => as
  | .union _ as => as

def kind : Schema → String
  | .any _ => "any"
  | .unchecked _ => "unsafe"
  | .boolean _ => "boolean"
  | .string _ _ => "string"
  | .numeric k _ _ => k.word
  | .array k _ _ _ => k.word
  | .list _ _ _ => "list"
  | .tuple _ _ => "tuple"
  | .enum _ _ _ => "enum"
  | .literal _ _ _ => "literal"
  | .struct _ _ => "struct"
  | .reference _ _ => "reference"
  | .concrete _ _ _ => "concrete"
  | .template _ _ _ => "template"
  | .dispatcher _ _ _ => "dispatcher"
  | .indexed _ _ _ => "indexed"
  | .union _ _ => "union"

end Schema

/-- A symbol: its type, its doc text and the attributes of the symbol itself. -/
structure Symbol where
  type : Schema
  doc : Json := .null
  attributes : List Attribute := []

end Typings
