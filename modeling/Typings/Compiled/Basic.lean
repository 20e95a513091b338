import Typings.Bookkeeping
import Typings.ImportPaths

/-!
What compiling a type gives: a type expression or a whole alias, with the
imports it needs, its docs and the requests it leaves open. Compiling changes
nothing; the dispatcher references met on the way are handed back beside the
outcome, also when it is a fault.
-/

namespace Typings

/-- A dispatcher index that waits for a struct `parents` levels further out
with this property. -/
structure Request where
  parents : Nat
  property : String
  deriving DecidableEq, Repr

/-- A compiled type: an expression, or an alias where only a
declaration will do. -/
inductive Emitted where
  | expression (type : TypeExpr)
  | declaration (declared : Alias)

def Emitted.body : Emitted → TypeExpr
  | .expression type => type
  | .declaration declared => declared.type

/-- Does the compiled type have a printed form? -/
def Emitted.print : Emitted → Except Misuse String
  | .expression type => type.print
  | .declaration declared => (Declaration.typeAlias declared).print

/-- A compiled type with what it needs and what it leaves open. -/
structure Compiled where
  type : Emitted
  imports : Option ImportPaths := none
  docs : List String := []
  requests : List Request := []

def Compiled.ofExpr (type : TypeExpr) (imports : Option ImportPaths) :
    Compiled :=
  { type := .expression type, imports }

def Compiled.expr (c : Compiled) : TypeExpr :=
  c.type.body

/-- The imports of several compiled types in one list. -/
def Compiled.allImports (cs : List Compiled) : Option ImportPaths :=
  cs.foldl (fun imports c => joinImports imports c.imports) none

/-- The requests of several compiled types, one after the other. -/
def Compiled.allRequests (cs : List Compiled) : List Request :=
  cs.flatMap (·.requests)

structure Scope where
  /-- Is the type the whole body of a symbol? -/
  isRoot : Bool := false
  /-- The name of the symbol, extended by the keys on the way down. -/
  name : Option String := none
  /-- The module of the symbol, if references are to be counted for it. -/
  source : Option String := none
  /-- The paths of the type parameters in scope. -/
  generics : List String := []
  /-- The type arguments that the type is applied to. -/
  args : List TypeExpr := []
  /-- The keys of the index access around the type. -/
  keys : List Json := []

/-- The scope of a child; what is meant for one type only does not reach it. -/
def Scope.nested (scope : Scope) (name : Option String) : Scope :=
  { scope with isRoot := false, name, args := [], keys := [] }

/-- An outcome with the dispatcher references met before it. -/
structure Emit (α : Type) where
  references : List Reference
  outcome : Except Fault α

namespace Emit

variable {α β : Type}

/-- The outcome of the first step decides whether there is a second. -/
def andThen (x : Emit α) (f : α → Emit β) : Emit β :=
  match x.outcome with
  | .ok a => ⟨x.references ++ (f a).references, (f a).outcome⟩
  | .error fault => ⟨x.references, .error fault⟩

instance : Monad Emit where
  pure a := ⟨[], .ok a⟩
  bind := andThen

def ofExcept (outcome : Except Fault α) : Emit α :=
  ⟨[], outcome⟩

instance : MonadLift (Except Fault) Emit := ⟨ofExcept⟩

def fail (fault : Fault) : Emit α :=
  ⟨[], .error fault⟩

def note (reference : Reference) : Emit Unit :=
  ⟨[reference], .ok ()⟩

@[simp] theorem references_pure (a : α) :
    (pure a : Emit α).references = [] := rfl

@[simp] theorem outcome_pure (a : α) : (pure a : Emit α).outcome = .ok a := rfl

theorem bind_of_ok {x : Emit α} {a : α} (h : x.outcome = .ok a)
    (f : α → Emit β) :
    x >>= f = ⟨x.references ++ (f a).references, (f a).outcome⟩ := by
  simp only [bind, andThen, h]

theorem bind_of_error {x : Emit α} {fault : Fault}
    (h : x.outcome = .error fault) (f : α → Emit β) :
    x >>= f = ⟨x.references, .error fault⟩ := by
  simp only [bind, andThen, h]

end Emit

end Typings
