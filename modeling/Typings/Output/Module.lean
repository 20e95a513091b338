import Typings.Declaration

/-!
Finished output modules. A module is written as its imports, its re-exports and
then every alias, with an empty line between these parts.
-/

namespace Typings

structure OutputModule where
  path : String
  file : String
  declarations : List Declaration
  imports : List Import
  sources : List String

namespace OutputModule

def typeAlias? (m : OutputModule) (name : String) : Option Alias :=
  (m.declarations.filterMap (·.typeAlias?)).find? fun a => a.name == name

def reExports (m : OutputModule) : List ReExport :=
  m.declarations.filterMap fun d => match d with
    | .reExport r => some r
    | .typeAlias _ => none

def aliases (m : OutputModule) : List Alias :=
  m.declarations.filterMap (·.typeAlias?)

def block (lines : List String) : List String :=
  if lines.isEmpty then [] else ["\n".intercalate lines]

def render (m : OutputModule) : String :=
  "\n\n".intercalate
    (block (m.imports.map (·.render)) ++ block (m.reExports.map (·.render)) ++
      m.aliases.map (·.render)) ++ "\n"

def print (m : OutputModule) : Except Misuse String :=
  if m.declarations.all (·.printable) then .ok m.render else .error .notText

end OutputModule

end Typings
