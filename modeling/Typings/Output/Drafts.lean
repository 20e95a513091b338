import Typings.Output.Draft
import Typings.Output.Module

/-!
All drafts of a run. A draft appears when it is first written to. Closing turns
every draft into a finished module and closes the drafts for good, whether it
succeeds or not.
-/

namespace Typings

/-- The drafts by module path, and whether they are closed. -/
structure Drafts where
  modules : Table Draft := {}
  closed : Bool := false

namespace Drafts

def draft (ds : Drafts) (path : String) : Draft :=
  (ds.modules.get? path).getD { path }

/-- The draft of a module, put in place if it is not there yet. -/
def access (ds : Drafts) (path : String) : Except Fault (Draft × Drafts) :=
  if ds.closed then .error (.run (.closed path))
  else if ds.modules.has path then .ok (ds.draft path, ds)
  else .ok (ds.draft path,
    { ds with modules := ds.modules.put path (ds.draft path) })

/-- Puts a changed draft back. -/
def store (ds : Drafts) (d : Draft) : Drafts :=
  { ds with modules := ds.modules.put d.path d }

end Drafts

/-- The imports of a module once every path leads to where its
symbol has ended up. -/
def redirectImports (redirects : Table String) (imports : ImportPaths) :
    ImportPaths :=
  .ofList (imports.ordered.map fun path => (redirects.get? path).getD path)

/-- The redirected imports without the symbols of the module itself. -/
def Draft.finalImports (d : Draft) (redirects : Table String) :
    Except Fault (Option ImportPaths) := do
  match d.imports with
  | none => return none
  | some l =>
    let redirected := redirectImports redirects l
    let foreign ←
      redirected.ordered.filterM fun path => do return !(← d.owns path)
    return some (.ofList foreign)

def Draft.toModule (d : Draft) (redirects : Table String) :
    Except Fault OutputModule := do
  let imports ← d.finalImports redirects
  let file ← importFile d.path
  return {
    path := d.path
    file
    declarations := d.declarations
    imports := ← importDeclarations imports none
    sources := d.sources }

/-- Finishes every module, in order of their paths. -/
def Drafts.close (ds : Drafts) (redirects : Table String) :
    Except Fault (List OutputModule) × Drafts :=
  (ds.modules.sortedKeys.mapM fun path => (ds.draft path).toModule redirects,
    { ds with closed := true })

end Typings
