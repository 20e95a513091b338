import Typings.Json.Basic

/-!
TypeScript type expressions.
-/

namespace Typings

mutual

inductive TypeExpr where
  /-- A built-in name such as `string` or `never`. -/
  | keyword (name : String)
  /-- A named type, applied to type arguments. -/
  | reference (name : String) (args : List TypeExpr)
  /-- A string literal. -/
  | text (value : String)
  /-- The place of a string literal filled with a value that is no text. It has
  no printed form. -/
  | misfit (value : Json)
  /-- A number literal, printed as data writes the value. -/
  | number (value : Json)
  /-- `true` or `false`. -/
  | truth (value : Bool)
  | union (members : List TypeExpr)
  | intersection (members : List TypeExpr)
  /-- An object type with named properties. -/
  | object (members : List Property)
  /-- One property for each key of a type: `[Key in Keys as Name]?: Value`. -/
  | mapped (key : String) (keys value : TypeExpr) (optional : Bool)
      (name : Option TypeExpr)
  /-- `Object[Index]`. -/
  | access (object index : TypeExpr)
  /-- `Check extends Bound ? Yes : No`. -/
  | conditional (check bound yes no : TypeExpr) (parenthesized : Bool)
  /-- `keyof T` and `readonly T`. -/
  | operator (name : String) (operand : TypeExpr)
  /-- A template literal: a head, then types each followed by text. -/
  | template (head : String) (spans : List Span)
  /-- A tuple element that may be missing. -/
  | optional (element : TypeExpr)
  | tuple (elements : List TypeExpr)

inductive Property where
  | mk (name : String) (type : TypeExpr) (optional : Bool) (docs : List String)

/-- A type inside a template literal and the text behind it. -/
inductive Span where
  | mk (type : TypeExpr) (tail : String)

end

instance : Inhabited TypeExpr := ⟨.keyword "never"⟩
instance : Inhabited Property := ⟨.mk "" default false []⟩

namespace Property

def name : Property → String
  | mk n _ _ _ => n

def type : Property → TypeExpr
  | mk _ t _ _ => t

def docs : Property → List String
  | mk _ _ _ d => d

def withType : Property → TypeExpr → Property
  | mk n _ o d, t => mk n t o d

def plain (name : String) (type : TypeExpr) : Property :=
  mk name type false []

end Property

namespace TypeExpr

def named (name : String) : TypeExpr :=
  .reference name []

/-- A value in the place of a string literal. -/
def ofValue : Json → TypeExpr
  | .str s => .text s
  | v => .misfit v

def string : TypeExpr := .keyword "string"
def numeric : TypeExpr := .keyword "number"
def boolean : TypeExpr := .keyword "boolean"
def unknown : TypeExpr := .keyword "unknown"
def never : TypeExpr := .keyword "never"
def undefined : TypeExpr := .keyword "undefined"
def any : TypeExpr := .keyword "any"

def noProperties : TypeExpr := .reference "Record" [string, never]

/-- An object about which nothing is known. -/
def openRecord : TypeExpr := .reference "Record" [string, unknown]

def someText : TypeExpr := .template "" [.mk any "", .mk string ""]

def identifierText : TypeExpr := .template "" [.mk string ":", .mk string ""]

/-- A namespaced string behind a hash. -/
def tagText : TypeExpr := .template "#" [.mk string ":", .mk string ""]

/-- The union of the members: `never` for none, the member itself for one. -/
def anyOf : List TypeExpr → TypeExpr
  | [] => never
  | [t] => t
  | ts => .union ts

/-- The intersection of the members: the member itself for one. -/
def allOf : List TypeExpr → TypeExpr
  | [t] => t
  | ts => .intersection ts

def isLiteral : TypeExpr → Bool
  | .text _ => true
  | .misfit _ => true
  | .number _ => true
  | .truth _ => true
  | _ => false

def keyof (t : TypeExpr) : TypeExpr :=
  .operator "keyof" t

end TypeExpr

end Typings
