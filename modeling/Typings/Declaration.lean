import Typings.TypeExpr.Printer

/-!
Declarations of an output module: type aliases, re-exports and imports.
-/

namespace Typings

/-- A type parameter with an optional bound and an optional default. -/
structure TypeParameter where
  name : String
  bound : Option TypeExpr := none
  fallback : Option TypeExpr := none

def TypeParameter.render (p : TypeParameter) : String :=
  let bound := match p.bound with
    | some t => " extends " ++ t.render
    | none => ""
  let fallback := match p.fallback with
    | some t => " = " ++ t.render
    | none => ""
  p.name ++ bound ++ fallback

/-- Does the type parameter have a printed form? -/
def TypeParameter.printable (p : TypeParameter) : Bool :=
  p.bound.all (·.printable) && p.fallback.all (·.printable)

/-- The discriminator that a struct above the root would supply; undefined
when nobody does. -/
def TypeParameter.discriminator : TypeParameter :=
  { name := "S", fallback := some .undefined }

structure Alias where
  name : String
  type : TypeExpr
  params : List TypeParameter := []
  exported : Bool := true
  docs : List String := []

def Alias.render (a : Alias) : String :=
  let params :=
    if a.params.isEmpty then ""
    else "<" ++ ", ".intercalate (a.params.map (·.render)) ++ ">"
  docComment a.docs "" ++ (if a.exported then "export " else "") ++ "type " ++
    a.name ++ params ++ " = " ++ a.type.render

def Alias.printable (a : Alias) : Bool :=
  a.params.all (·.printable) && a.type.printable

/-- Names passed on from another file. -/
structure ReExport where
  names : List String
  file : String

def ReExport.render (r : ReExport) : String :=
  "export type \x7b " ++ ", ".intercalate r.names ++ " \x7d from " ++
    Text.quote r.file

/-- Names brought in from another file. -/
structure Import where
  file : String
  names : List String := []

def Import.render (i : Import) : String :=
  "import type \x7b " ++ ", ".intercalate i.names ++ " \x7d from " ++
    Text.quote i.file

inductive Declaration where
  | typeAlias (a : Alias)
  | reExport (r : ReExport)

def Declaration.render : Declaration → String
  | .typeAlias a => a.render
  | .reExport r => r.render

def Declaration.printable : Declaration → Bool
  | .typeAlias a => a.printable
  | .reExport _ => true

def Declaration.typeAlias? : Declaration → Option Alias
  | .typeAlias a => some a
  | .reExport _ => none

def Declaration.print (d : Declaration) : Except Misuse String :=
  if d.printable then .ok d.render else .error .notText

end Typings
