import Typings.Bookkeeping
import Typings.SymbolPath
import Typings.TypeExpr.Naming

/-!
What is known of a dispatcher before its members are compiled: the names
of its declarations, the type parameters they share, and which special
members there are.
-/

namespace Typings

/-- The key of the member that stands for every unknown key. -/
def otherKey : String := "%unknown"

/-- The key of the member that stands for a missing discriminator. -/
def absentKey : String := "%none"

def isSpecialMember (key : String) : Bool :=
  key == otherKey || key == absentKey

/-- The name of a dispatcher in pascal case. The default
namespace is left out. -/
def baseName (registry : String) : String :=
  match Text.cutAtColon? registry.toList with
  | none => pascalCase registry
  | some (front, path) =>
    let path := pascalCase (String.ofList path)
    if String.ofList front = standardNamespace then path
    else pascalCase (String.ofList front) ++ path

/-- The endings of the declarations that every dispatcher has. -/
def reservedEndings : List String :=
  ["Map", "Keys", "Fallback", "FallbackType", "NoneType"]

/-- What the name of a member's declaration ends in. -/
def memberEnding (key : String) : String :=
  let key := key.toList.map fun c => if c = '/' ∨ c = ':' then '_' else c
  let suffix := pascalCase (String.ofList key)
  if reservedEndings.contains suffix then suffix ++ "Member" else suffix

/-- The type parameters of a template, without bounds. -/
def Schema.templateParams : Schema → Except Misuse (List TypeParameter)
  | .template _ params _ =>
      params.mapM fun path => do return { name := lastSegment (← path.asText) }
  | _ => .ok []

/-- The type parameters that all declarations of a dispatcher share: those of
its first member that is not special. -/
def sharedParams (members : Table Schema) :
    Except Misuse (List TypeParameter) :=
  match members.entries.find? fun m => !isSpecialMember m.1 with
  | some (_, type) => type.templateParams
  | none => .ok []

/-- What is known of a dispatcher with the given members. -/
def DispatcherHead.of (registry : String) (members : Table Schema) :
    Except Fault DispatcherHead := do
  return {
    name := baseName registry
    params := ← sharedParams members
    hasOther := members.has otherKey
    hasAbsent := members.has absentKey }

end Typings
