import Typings.ImportPaths

/-!
Drafts of output modules: declarations in the order in which they arrive, with
the imports they need so far and the paths of the symbols they come from.
-/

namespace Typings

/-- A module that declarations are still added to. -/
structure Draft where
  path : String
  declarations : List Declaration := []
  imports : Option ImportPaths := none
  /-- The paths of the symbols declared here, each once. -/
  sources : List String := []

namespace Draft

/-- Adds a declaration with the imports it needs, and the path of its symbol if
it comes from one. -/
def add (d : Draft) (declaration : Declaration) (imports : Option ImportPaths)
    (source : Option String) : Draft :=
  { d with
    declarations := d.declarations ++ [declaration]
    imports := joinImports d.imports imports
    sources := match source with
      | some path =>
          if d.sources.contains path then d.sources else d.sources ++ [path]
      | none => d.sources }

/-- The names of the aliases declared here. -/
def aliasNames (d : Draft) : List String :=
  d.declarations.filterMap fun declaration =>
    declaration.typeAlias?.map (·.name)

def importPaths (d : Draft) : List String :=
  match d.imports with
  | some l => l.ordered
  | none => []

/-- Does the path name a symbol of this module? -/
def owns (d : Draft) (path : String) : Except Fault Bool := do
  return (← splitPath path).1 == d.path

/-- The names that paths bring in from other modules, without
the ignored paths. -/
def foreignNames (d : Draft) (ignored : List String) :
    List String → Except Fault (List String)
  | [] => .ok []
  | path :: rest => do
    if ignored.contains path then foreignNames d ignored rest
    else if ← d.owns path then foreignNames d ignored rest
    else return lastSegment path :: (← foreignNames d ignored rest)

def namesFromOutside (d : Draft) (ignored : List String) :
    Except Fault (List String) :=
  d.foreignNames ignored d.importPaths

end Draft

end Typings
