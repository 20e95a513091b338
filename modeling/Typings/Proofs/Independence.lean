import Typings.Proofs.References

/-!
What compiling does not depend on. The counts of references and the homes of
dispatchers reach no outcome, and neither does the module that a type is
compiled for. The name that it is compiled under is that of its declaration at
the root; away from there, only faults tell of it.
-/

namespace Typings

/-- The fault without the symbol that it was met in. -/
def Fault.unplaced : Fault → Fault
  | .shape fault => .shape { fault with path := none }
  | fault => fault

/-- Both computations give the same, or both fail in the same way but for the
symbol that is named. -/
inductive SameOutcome {α : Type} : Except Fault α → Except Fault α → Prop where
  | ok (a : α) : SameOutcome (.ok a) (.ok a)
  | error {fault fault' : Fault} (h : fault.unplaced = fault'.unplaced) :
      SameOutcome (.error fault) (.error fault')

namespace SameOutcome

variable {α β : Type}

theorem refl : ∀ x : Except Fault α, SameOutcome x x
  | .ok a => .ok a
  | .error _ => .error rfl

theorem bind {x y : Except Fault α} {f f' : α → Except Fault β}
    (h : SameOutcome x y) (hf : ∀ a, SameOutcome (f a) (f' a)) :
    SameOutcome (x >>= f) (y >>= f') := by
  cases h with
  | ok a => exact hf a
  | error hfault => exact .error hfault

theorem mapM {f f' : α → Except Fault β} (h : ∀ a, SameOutcome (f a) (f' a))
    (xs : List α) :
    SameOutcome (xs.mapM f) (xs.mapM f') := by
  induction xs with
  | nil => exact refl _
  | cons x rest ih =>
      rw [List.mapM_cons, List.mapM_cons]
      exact (h x).bind fun _ => ih.bind fun _ => refl _

end SameOutcome

/-- The computations have the same outcome. The references that
they met may differ. -/
def Emit.Alike {α : Type} (x y : Emit α) : Prop :=
  SameOutcome x.outcome y.outcome

namespace Emit.Alike

variable {α β : Type}

theorem refl (x : Emit α) : x.Alike x :=
  SameOutcome.refl x.outcome

theorem bind {x y : Emit α} {f f' : α → Emit β} (h : x.Alike y)
    (hf : ∀ a, (f a).Alike (f' a)) :
    (x >>= f).Alike (y >>= f') := by
  rw [Alike] at h
  generalize hx : x.outcome = outcome, hy : y.outcome = outcome' at h
  cases h with
  | ok a =>
      rw [Emit.bind_of_ok hx, Emit.bind_of_ok hy]
      exact hf a
  | error hfault =>
      rw [Emit.bind_of_error hx, Emit.bind_of_error hy]
      exact .error hfault

/-- What is done with the result is the same in both. -/
theorem bind_same {x y : Emit α} (h : x.Alike y) (f : α → Emit β) :
    (x >>= f).Alike (y >>= f) :=
  h.bind fun a => refl (f a)

end Emit.Alike

theorem sameOutcome_compileList (scope scope' : Scope) (item : Compiled)
    (length : Option Range) :
    SameOutcome (compileList scope item length)
      (compileList scope' item length) := by
  refine (SameOutcome.mapM (fun r => ?_) item.requests).bind fun _ => .refl _
  split
  · exact .error rfl
  · exact .ok _

/-- The scopes differ at most in the module and, away from the
root, in the name. -/
structure Scope.Alike (scope scope' : Scope) : Prop where
  isRoot : scope.isRoot = scope'.isRoot
  name : scope.isRoot = true → scope.name = scope'.name
  generics : scope.generics = scope'.generics
  args : scope.args = scope'.args
  keys : scope.keys = scope'.keys

namespace Scope.Alike

variable {env : Environment} {scope scope' : Scope} (h : scope.Alike scope')

include h

/-- A child is never at the root, so it may have any name. -/
theorem nested (name name' : Option String) :
    (scope.nested name).Alike (scope'.nested name') where
  isRoot := rfl
  name hroot := by cases hroot
  generics := h.generics
  args := rfl
  keys := rfl

theorem withArgs (args : List TypeExpr) :
    Scope.Alike { scope.nested none with
      args } { scope'.nested none with args } :=
  { h.nested none none with args := rfl }

theorem inTemplate (params : List String) :
    Scope.Alike { scope with
      generics := scope.generics ++ params, args := [], keys := [] }
      { scope' with
        generics := scope'.generics ++ params, args := [], keys := [] } where
  isRoot := h.isRoot
  name := h.name
  generics := by rw [h.generics]
  args := rfl
  keys := rfl

theorem compileReference_eq (path : Json) :
    compileReference env scope path = compileReference env scope' path := by
  simp only [compileReference, h.generics, h.args]

/-- The module decides whether the reference is noted, and nothing else. -/
theorem alike_compileDispatcher (registry : Json) (index : IndexForm)
    (keys : List Json) :
    (compileDispatcher env scope registry index keys).Alike
      (compileDispatcher env scope' registry index keys) := by
  refine Emit.Alike.bind (.refl _) fun found => ?_
  rw [h.isRoot, h.args]
  cases scope.source <;> cases scope'.source <;> exact .refl _

theorem sameOutcome_composeStruct (parts : List Part) :
    SameOutcome (composeStruct scope parts) (composeStruct scope' parts) := by
  rw [composeStruct, composeStruct, ← h.isRoot]
  dsimp only
  split
  · exact .error rfl
  · split
    · -- Only a struct at the root is declared, and there the names agree.
      rename_i hopen
      rw [← h.name (Bool.and_eq_true_iff.mp hopen).1]
      exact .refl _
    · exact .refl _

end Scope.Alike

variable {env : Environment}

mutual

theorem Plan.alike_compile :
    ∀ (plan : Plan) {scope scope' : Scope}, scope.Alike scope' →
    (plan.compile env scope).Alike (plan.compile env scope')
  | .fixed _ _ _, _, _, _ | .identifier _ _, _, _, _ | .translationKey, _, _,
      _ | .enum _ _, _, _, _ =>
      .refl _
  | .reference path, scope, scope', h => by
      rw [Plan.compile, Plan.compile, h.compileReference_eq]
      exact .refl _
  | .concrete path args, scope, scope', h => by
      rw [Plan.compile, Plan.compile]
      refine (Plan.alike_compileAll args (h.nested none none)).bind fun cs => ?_
      rw [(h.withArgs _).compileReference_eq]
      exact .refl _
  | .template params body, scope, scope', h => by
      have hbody := Plan.alike_compile body (h.inTemplate params)
      rw [Plan.compile, Plan.compile]
      rw [← h.isRoot] at hbody ⊢
      cases hroot : scope.isRoot with
      | false => exact .error rfl
      | true =>
          rw [hroot, ← h.name hroot] at hbody
          rw [← h.name hroot]
          cases hname : scope.name with
          | none => exact .error rfl
          | some name =>
              rw [hname] at hbody
              exact hbody.bind_same _
  | .list item length, scope, scope', h => by
      rw [Plan.compile, Plan.compile]
      exact (Plan.alike_compile item (h.nested _ _)).bind fun c =>
        sameOutcome_compileList scope scope' c length
  | .union members, _, _, h =>
      (Plan.alike_compileAll members (h.nested _ _)).bind_same _
  | .tuple items, _, _, h =>
      (Plan.alike_compileAll items (h.nested _ _)).bind_same _
  | .struct entries, scope, scope', h => by
      rw [Plan.compile, Plan.compile]
      exact (Plan.alike_compileEntries entries h).bind fun parts =>
        h.sameOutcome_composeStruct parts
  | .dispatcher registry index keys, scope, scope', h => by
      rw [Plan.compile, Plan.compile, h.keys]
      exact h.alike_compileDispatcher registry index _

theorem Plan.alike_compileAll :
    ∀ (plans : List Plan) {scope scope' : Scope}, scope.Alike scope' →
    (Plan.compileAll env scope plans).Alike (Plan.compileAll env scope' plans)
  | [], _, _, _ => .refl _
  | plan :: rest, _, _, h =>
      (Plan.alike_compile plan h).bind fun _ =>
        (Plan.alike_compileAll rest h).bind_same _

theorem Plan.alike_compileEntries :
    ∀ (entries : List Entry) {scope scope' : Scope}, scope.Alike scope' →
    (Plan.compileEntries env scope entries).Alike
      (Plan.compileEntries env scope' entries)
  | [], _, _, _ => .refl _
  | .pair key value optional description :: rest, scope, scope', h => by
      rw [Plan.compileEntries, Plan.compileEntries]
      exact (Plan.alike_compile value (h.nested _ _)).bind fun _ =>
        Emit.Alike.bind (.refl _) fun _ =>
          (Plan.alike_compileEntries rest h).bind_same _
  | .dynamic key value :: rest, scope, scope', h => by
      rw [Plan.compileEntries, Plan.compileEntries]
      exact (Plan.alike_compileKey key h).bind fun _ =>
        (Plan.alike_compile value (h.nested _ _)).bind
        fun _ => (Plan.alike_compileEntries rest h).bind_same _
  | .spread value :: rest, scope, scope', h => by
      rw [Plan.compileEntries, Plan.compileEntries]
      exact (Plan.alike_compile value (h.nested _ _)).bind fun _ =>
        (Plan.alike_compileEntries rest h).bind_same _

theorem Plan.alike_compileKey :
    ∀ (key : KeyPlan) {scope scope' : Scope}, scope.Alike scope' →
    (Plan.compileKey env scope key).Alike (Plan.compileKey env scope' key)
  | .fixed _ _, _, _, _ | .registry _, _, _, _ => .refl _
  | .computed plan, _, _, h =>
      (Plan.alike_compile plan (h.nested none none)).bind_same _

end

theorem Schema.alike_compile (type : Schema) {scope scope' : Scope}
    (h : scope.Alike scope') :
    (type.compile env scope).Alike (type.compile env scope') := by
  rw [Schema.compile, Schema.compile]
  exact Emit.Alike.bind (.refl _) fun plan => Plan.alike_compile plan h

/-- Bookkeeping does not influence what a type compiles to. States that differ
in their counts and homes only, and scopes that differ in the module and, away
from the root, in the name, give the same outcome, and they leave states that
differ in their counts and homes only. -/
theorem Schema.bookkeeping_irrelevant {books books' after after' : Bookkeeping}
    {scope scope' : Scope} {type : Schema}
    {outcome outcome' : Except Fault Compiled} (henv : books.env = books'.env)
    (hscope : scope.Alike scope')
    (h : books.absorb (type.compile books.env scope) = (outcome, after))
    (h' : books'.absorb (type.compile books'.env scope') = (outcome', after')) :
    SameOutcome outcome outcome' ∧ after.env = after'.env := by
  obtain ⟨rfl, rfl⟩ := Prod.mk.inj h
  obtain ⟨rfl, rfl⟩ := Prod.mk.inj h'
  rw [Bookkeeping.env_foldl_count, Bookkeeping.env_foldl_count]
  refine ⟨?_, henv⟩
  rw [← henv]
  exact Schema.alike_compile type hscope

/-- A struct inside a symbol, compiled for a module in a fresh state and, under
another name, for none in a state where the dispatcher has a home. -/
theorem bookkeeping_irrelevant_struct :
    let env : Environment :=
      { dispatchers := Table.empty.put "minecraft:thing" { name := "Thing" } }
    let books : Bookkeeping := { env }
    let books' : Bookkeeping :=
      { env
        counters :=
          Table.empty.put "minecraft:thing" (Tally.add {} "::java::b" 3)
        homes := Table.empty.put "minecraft:thing" (some "::java::b") }
    let type : Schema := .struct
      [.pair (.name "k") (.string none []) false false .null [],
        .pair (.name "x")
          (.dispatcher (.str "minecraft:thing") [.dynamic [.property "k"]] [])
          false false .null []] []
    let scope : Scope :=
      { name := some "HolderInner", source := some "::java::a" }
    books.env = books'.env ∧ scope.Alike {} ∧
      ∃ c after outcome' after',
        books.absorb (type.compile books.env scope) = (.ok c, after) ∧
        books'.absorb (type.compile books'.env {}) = (outcome', after') ∧
        SameOutcome (.ok c) outcome' ∧ after.env = after'.env := by
  intro env books books' type scope
  have henv : books.env = books'.env := rfl
  have hscope : scope.Alike {} := ⟨rfl, (nomatch ·), rfl, rfl, rfl⟩
  obtain ⟨c, after, hc⟩ :
      ∃ c after, books.absorb (type.compile books.env scope) = (.ok c, after) :=
    ⟨_, _, rfl⟩
  obtain ⟨outcome', after', hc'⟩ : ∃ outcome' after',
      books'.absorb (type.compile books'.env {}) = (outcome', after') :=
        ⟨_, _, rfl⟩
  exact ⟨henv, hscope, c, after, outcome', after', hc, hc',
    Schema.bookkeeping_irrelevant henv hscope hc hc'⟩

end Typings
