import Typings.ImportPaths
import Typings.Schema.Basic

/-!
Plans: validated types, ready to be compiled in any context. Version-gated parts
are gone, keys and indices are classified, and what does not depend on the
context is already compiled.
-/

namespace Typings

/-- The index shapes of a dispatcher reference that are understood. -/
inductive IndexForm where
  /-- A property, found in the struct that lies `parents` levels up. -/
  | dynamic (parents : Nat) (property : String)
  /-- A fixed key. -/
  | static (value : Json)
  /-- The key of the mapped type around it. -/
  | mapKey

def IndexForm.word : IndexForm → String
  | .dynamic _ _ => "dynamic"
  | .static _ => "static"
  | .mapKey => "key"

structure EnumCase where
  identifier : Json
  value : Json
  description : Json

mutual

inductive Plan where
  /-- The same type in every context, with the path it is imported from. -/
  | fixed (type : TypeExpr) (source : Option String) (docs : List String)
  /-- An identifier of a registry, possibly a tag. -/
  | identifier (registry tags : Json)
  | translationKey
  | enum (kind : Json) (cases : List EnumCase)
  | reference (path : Json)
  /-- A referenced type with type arguments. -/
  | concrete (path : Json) (args : List Plan)
  | template (params : List String) (body : Plan)
  | list (item : Plan) (length : Option Range)
  | union (members : List Plan)
  | tuple (items : List Plan)
  | struct (entries : List Entry)
  /-- A dispatcher reference; the keys, if there are any, are those of an index
  access around it. -/
  | dispatcher (registry : Json) (index : IndexForm) (keys : Option (List Json))

/-- A field of a struct that is still there. -/
inductive Entry where
  | pair (key : String) (value : Plan) (optional : Bool) (description : Json)
  | dynamic (key : KeyPlan) (value : Plan)
  | spread (value : Plan)

inductive KeyPlan where
  | fixed (type : TypeExpr) (sources : List String)
  /-- The identifiers of a registry. -/
  | registry (registry : Json)
  | computed (plan : Plan)

end

end Typings
