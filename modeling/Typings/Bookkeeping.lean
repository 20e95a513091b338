import Typings.Declaration
import Typings.Ownership
import Typings.Schema.Loader

/-!
What a run knows while types are compiled. The environment is only read;
references to dispatchers are counted beside it, and homes are decided once
from the counts.
-/

namespace Typings

/-- What is known of a dispatcher before its members are compiled. -/
structure DispatcherHead where
  name : String
  params : List TypeParameter := []
  hasOther : Bool := false
  hasAbsent : Bool := false

/-- The name of the dispatcher's table of members. -/
def DispatcherHead.tableName (info : DispatcherHead) : String :=
  "Symbol" ++ info.name

/-- What compiling a type may look up. -/
structure Environment where
  symbols : Symbols := {}
  dispatchers : Table DispatcherHead := {}
  registries : Table (List String) := {}
  hasTranslationKeys : Bool := false

/-- Is the registry known, and does it have entries? -/
def Environment.knowsRegistry (env : Environment) (registry : String) : Bool :=
  match env.registries.get? (withoutNamespace registry) with
  | some values => !values.isEmpty
  | none => false

/-- The path that a path stands for: one bare reference is followed. -/
def Environment.follow (env : Environment) (path : String) : Json :=
  match env.symbols.get? path with
  | some { type := .reference target [], attributes := [], .. } =>
      if target.isNull then .str path else target
  | _ => .str path

/-- The path that a value stands for; what is no text stands for itself. -/
def Environment.followValue (env : Environment) (path : Json) :
    Except Misuse Json := do
  match ← path.asKey? with
  | some path => return env.follow path
  | none => return path

/-- A reference to a dispatcher, met while compiling a symbol of a module. -/
structure Reference where
  registry : String
  source : String
  deriving DecidableEq

/-- The state of a run. -/
structure Bookkeeping where
  env : Environment := {}
  counters : Table Tally := {}
  homes : Table (Option String) := {}

namespace Bookkeeping

def count (r : Bookkeeping) (ref : Reference) : Bookkeeping :=
  let counter := (r.counters.get? ref.registry).getD {}
  { r with counters := r.counters.put ref.registry (counter.add ref.source 1) }

/-- The owner that the counts speak for. -/
def owner? (r : Bookkeeping) (registry : String) : Option String :=
  if isForeign registry then none
  else (r.counters.get? registry).bind (·.owner? ownershipLead)

/-- The module that owns a dispatcher, none for the shared one. The
first answer stands. -/
def home (r : Bookkeeping) (registry : String) : Option String × Bookkeeping :=
  match r.homes.get? registry with
  | some owner => (owner, r)
  | none => (r.owner? registry,
      { r with homes := r.homes.put registry (r.owner? registry) })

end Bookkeeping

end Typings
