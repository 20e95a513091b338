import Typings.Proofs.Address
import Typings.Proofs.ClosedAliases

/-!
Type arguments of dispatchers. The symbol of a dispatcher takes the type
parameters that its declarations share, and a case. An index gives it an unknown
type for each of the parameters and a case or none, and the case of a missing
discriminator only if the symbol has one. The type arguments of a reference
never reach an index.
-/

namespace Typings

/-- The type is an index into the dispatcher, alone or with an index
access around it. -/
inductive Schema.IsIndexInto (registry : String) : Schema → Prop where
  | dispatcher {indices : List Index} {attributes : List Attribute} :
      IsIndexInto registry (.dispatcher (.str registry) indices attributes)
  | indexed {inner indices : List Index}
      {attributes attributes' : List Attribute} :
      IsIndexInto registry (.indexed
        (.dispatcher (.str registry) inner attributes) indices attributes')

section Access

variable {info : DispatcherHead}

/-- What the path starts from stands in it. -/
theorem exists_at?_guardedPath (base : TypeExpr) (keys : List Json) :
    ∃ p, (guardedPath base keys).at? p = some base := by
  cases keys with
  | nil => exact ⟨[], rfl⟩
  | cons key rest => exact ⟨[.bound, .operand], rfl⟩

theorem exists_at?_guardedAccess (table key : TypeExpr) (keys : List Json) :
    ∃ p, (guardedAccess table key keys).at? p = some table := by
  rw [guardedAccess]
  split
  · obtain ⟨p, hp⟩ := exists_at?_guardedPath (.access table key) keys
    exact ⟨p ++ [.object], TypeExpr.at?_append hp⟩
  · exact ⟨[.bound, .operand], rfl⟩

theorem DispatcherHead.exists_at?_access (info : DispatcherHead)
    (index : IndexForm) (isRoot : Bool)
    (args : List TypeExpr) (keys : List Json) :
    ∃ p args', (info.access index isRoot args keys).1.at? p =
      some (.reference info.tableName args') := by
  rw [access.eq_def]
  cases index with
  | dynamic parents property =>
      dsimp only
      split
      · obtain ⟨p, hp⟩ :=
          exists_at?_guardedPath (.reference info.tableName _) keys
        exact ⟨p, _, hp⟩
      · split
        · exact ⟨[.yes], _, rfl⟩
        · obtain ⟨p, hp⟩ := exists_at?_guardedAccess
            (.reference info.tableName _) discriminator keys
          exact ⟨p, _, hp⟩
  | static value =>
      dsimp only
      split
      · obtain ⟨p, hp⟩ :=
          exists_at?_guardedPath (.reference info.tableName _) keys
        exact ⟨p, _, hp⟩
      · obtain ⟨p, hp⟩ := exists_at?_guardedAccess (.reference info.tableName _)
          (.ofValue value) keys
        exact ⟨p, _, hp⟩
  | mapKey =>
      obtain ⟨p, hp⟩ := exists_at?_guardedAccess (.reference info.tableName _)
        (.named "Key") keys
      exact ⟨p, _, hp⟩

/-- Wherever an index refers to the symbol of its dispatcher, it
fills the parameters. -/
theorem DispatcherHead.isFilled_of_at? {index : IndexForm} {isRoot : Bool}
    {keys : List Json} {p : List Turn} {args : List TypeExpr}
    (h : (info.access index isRoot [] keys).1.at? p =
      some (.reference info.tableName args)) :
    info.IsFilled args := by
  have hall := info.everywhere_access
    (P := fun u => ∀ args, u = .reference info.tableName args →
      info.IsFilled args) ?_ ?_ ?_ index isRoot keys
  · exact hall p _ h args rfl
  · rintro u hplain args rfl
    cases hplain
  · intro name args hname args' heq
    have hne : ∀ name ∈ ["Record", "S", "Key"], info.tableName ≠ name := by
      intro name hname
      apply tableName_ne
      revert name
      decide
    exact absurd (TypeExpr.reference.inj heq).1.symm (hne name hname)
  · intro args hfilled args' heq
    exact (TypeExpr.reference.inj heq).2 ▸ hfilled

end Access

section Sites

variable {env : Environment} {scope : Scope} {registry : String}
  {info : DispatcherHead} {c : Compiled}

theorem compileDispatcher_of_get? {index : IndexForm} {keys : List Json}
    (hget : env.dispatchers.get? registry = some info)
    (h : (compileDispatcher env scope (.str registry) index keys).outcome =
      .ok c) :
    c.type =
      .expression (info.access index scope.isRoot scope.args keys).1 := by
  obtain ⟨key, info', hkey, rfl⟩ := compileDispatcher_eq_ok h
  obtain ⟨hregistry, hget'⟩ := Environment.dispatcher_eq_ok hkey
  cases hregistry
  cases hget.symm.trans hget'
  rfl

/-- An index compiles to an access into its dispatcher. -/
theorem Schema.IsIndexInto.exists_access
    {type : Schema} (htype : type.IsIndexInto registry)
    (hget : env.dispatchers.get? registry = some info)
    (h : (type.compile env scope).outcome = .ok c) :
    ∃ index keys, c.type =
      .expression (info.access index scope.isRoot scope.args keys).1 := by
  have hrules := Schema.compile_sound h
  cases htype with
  | dispatcher =>
      cases hrules with
      | dispatcher _ hc => exact ⟨_, _, compileDispatcher_of_get? hget hc⟩
      | leaf hleaf => cases hleaf
  | indexed =>
      cases hrules with
      | indexed _ _ hc => exact ⟨_, _, compileDispatcher_of_get? hget hc⟩
      | leaf hleaf => cases hleaf

end Sites

section Declaration

variable {env : Environment} {registry : String} {members : Table Schema}
  {info : DispatcherHead} {d : DispatcherSymbol}

theorem symbol_eq_of_build (hget : env.dispatchers.get? registry = some info)
    (h : DispatcherSymbol.build env registry members = .ok d) :
    d.symbol.name = info.tableName ∧
      d.symbol.params = info.params ++ [caseSelector] ∧
      d.symbol.type = caseChain info (members.has absentKey) := by
  rw [DispatcherSymbol.build, hget] at h
  obtain ⟨compiled, -, h⟩ := bind_eq_ok_iff.mp h
  cases pure_eq_ok_iff.mp h
  exact ⟨rfl, rfl, rfl⟩

theorem hasAbsent_of (h : DispatcherHead.of registry members = .ok info) :
    info.hasAbsent = members.has absentKey := by
  obtain ⟨params, -, h⟩ := bind_eq_ok_iff.mp h
  cases pure_eq_ok_iff.mp h
  rfl

/-- The case of a missing discriminator leads to the member for it,
if there is one. -/
theorem select_none_eq (hget : env.dispatchers.get? registry = some info)
    (h : DispatcherSymbol.build env registry members = .ok d) :
    d.select "%none" =
      if members.has absentKey then info.apply (memberName info absentKey)
      else .never := by
  rw [DispatcherSymbol.select, (symbol_eq_of_build hget h).2.2]
  cases members.has absentKey <;>
    simp [caseChain, caseLink, caseBranch, TypeExpr.never]

end Declaration

section Handler

variable (env : Environment)
  (onIndex : Scope → Json → IndexForm → List Json → Emit Compiled)

mutual

/-- Compiles a plan with another rule for dispatcher indices. -/
def Plan.compileWith (scope : Scope) : Plan → Emit Compiled
  | .fixed type source docs => Plan.compile env scope (.fixed type source docs)
  | .identifier registry tags =>
      Plan.compile env scope (.identifier registry tags)
  | .translationKey => Plan.compile env scope .translationKey
  | .enum kind cases => Plan.compile env scope (.enum kind cases)
  | .reference path => Plan.compile env scope (.reference path)
  | .concrete path args => do
    let args ← compileAllWith (scope.nested none) args
    let child ← compileReference env { scope.nested none with
      args := args.map (·.expr) } path
    return {
      type := child.type
      imports := joinImports (Compiled.allImports args) child.imports
      docs := child.docs
      requests := Compiled.allRequests args }
  | .template params body =>
    match scope.isRoot, scope.name with
    | true, some name => do
      let inner := { scope with
        generics := scope.generics ++ params, args := [], keys := [] }
      return compileTemplate name params (← body.compileWith inner)
    | _, _ => .fail (.shape
        { cause := .templateInside, kind := .str "template",
          path := scope.name })
  | .list item length => do
    let item ← item.compileWith (scope.nested scope.name)
    compileList scope item length
  | .union members => do
    return compileUnion (← compileAllWith (scope.nested scope.name) members)
  | .tuple items => do
    return compileTuple (← compileAllWith (scope.nested scope.name) items)
  | .struct entries => do
    let parts ← compileEntriesWith scope entries
    composeStruct scope parts
  | .dispatcher registry index keys =>
      onIndex scope registry index (keys.getD scope.keys)

def Plan.compileAllWith (scope : Scope) : List Plan → Emit (List Compiled)
  | [] => pure []
  | p :: rest => do
    let compiled ← p.compileWith scope
    return compiled :: (← compileAllWith scope rest)

def Plan.compileEntriesWith (scope : Scope) : List Entry → Emit (List Part)
  | [] => pure []
  | .pair key value optional description :: rest => do
    let value ← value.compileWith (scope.nested (scope.nameUnder key))
    let docs ← pairDocs description value.docs
    return .own key optional docs value :: (← compileEntriesWith scope rest)
  | .dynamic key value :: rest => do
    let (keys, keyImports) ← compileKeyWith scope key
    let value ← value.compileWith (scope.nested scope.name)
    return .mapped keys keyImports value :: (← compileEntriesWith scope rest)
  | .spread value :: rest => do
    let value ← value.compileWith (scope.nested scope.name)
    return .spread value :: (← compileEntriesWith scope rest)

def Plan.compileKeyWith (scope : Scope) :
    KeyPlan → Emit (TypeExpr × Option ImportPaths)
  | .fixed type sources => Plan.compileKey env scope (.fixed type sources)
  | .registry registry => Plan.compileKey env scope (.registry registry)
  | .computed plan => do
    let compiled ← plan.compileWith (scope.nested none)
    return (compiled.expr, compiled.imports)

end

/-- Compiles a type with another rule for dispatcher indices. -/
def Schema.compileWith (scope : Scope) (type : Schema) : Emit Compiled := do
  let plan ← Plan.ofSchema type
  plan.compileWith env onIndex scope

/-- The rule does as usual in scopes with certain type arguments, those
without any among them. -/
structure UsualFor (Q : List TypeExpr → Prop) : Prop where
  nil : Q []
  index : ∀ scope registry index keys, Q scope.args →
    onIndex scope registry index keys =
      compileDispatcher env scope registry index keys

variable {env onIndex} {Q : List TypeExpr → Prop}

mutual

/-- No scope further down has type arguments, so the rule matters for those of
the whole type only. -/
theorem Plan.compileWith_eq (h : UsualFor env onIndex Q) :
    ∀ (scope : Scope) (plan : Plan), Q scope.args →
    plan.compileWith env onIndex scope = plan.compile env scope
  | _, .fixed _ _ _, _ => by rw [Plan.compileWith]
  | _, .identifier _ _, _ => by rw [Plan.compileWith]
  | _, .translationKey, _ => by rw [Plan.compileWith]
  | _, .enum _ _, _ => by rw [Plan.compileWith]
  | _, .reference _, _ => by rw [Plan.compileWith]
  | scope, .concrete path args, _ => by
      rw [Plan.compileWith, Plan.compile,
        Plan.compileAllWith_eq h (scope.nested none) args h.nil]
  | scope, .template params body, _ => by
      have hbody := Plan.compileWith_eq h
        { scope with generics := scope.generics ++ params, args := [],
                     keys := [] } body h.nil
      simp only [Plan.compileWith, hbody]
      rfl
  | scope, .list item _, _ => by
      rw [Plan.compileWith, Plan.compile,
        Plan.compileWith_eq h (scope.nested scope.name) item h.nil]
  | scope, .union members, _ => by
      rw [Plan.compileWith, Plan.compile,
        Plan.compileAllWith_eq h (scope.nested scope.name) members h.nil]
  | scope, .tuple items, _ => by
      rw [Plan.compileWith, Plan.compile,
        Plan.compileAllWith_eq h (scope.nested scope.name) items h.nil]
  | scope, .struct entries, _ => by
      rw [Plan.compileWith, Plan.compile,
        Plan.compileEntriesWith_eq h scope entries]
  | scope, .dispatcher registry index keys, hargs => by
      rw [Plan.compileWith, Plan.compile, h.index _ _ _ _ hargs]

theorem Plan.compileAllWith_eq (h : UsualFor env onIndex Q) :
    ∀ (scope : Scope) (plans : List Plan), Q scope.args →
      Plan.compileAllWith env onIndex scope plans =
        Plan.compileAll env scope plans
  | _, [], _ => by rw [Plan.compileAllWith, Plan.compileAll]
  | scope, p :: rest, hargs => by
      rw [Plan.compileAllWith,
        Plan.compileAll, Plan.compileWith_eq h scope p hargs,
        Plan.compileAllWith_eq h scope rest hargs]

theorem Plan.compileEntriesWith_eq (h : UsualFor env onIndex Q) :
    ∀ (scope : Scope) (entries : List Entry),
    Plan.compileEntriesWith env onIndex scope entries =
      Plan.compileEntries env scope entries
  | _, [] => by rw [Plan.compileEntriesWith, Plan.compileEntries]
  | scope, .pair key value _ _ :: rest => by
      rw [Plan.compileEntriesWith, Plan.compileEntries,
        Plan.compileWith_eq h (scope.nested (scope.nameUnder key)) value h.nil,
        Plan.compileEntriesWith_eq h scope rest]
  | scope, .dynamic key value :: rest => by
      rw [Plan.compileEntriesWith,
        Plan.compileEntries, Plan.compileKeyWith_eq h scope key,
        Plan.compileWith_eq h (scope.nested scope.name) value h.nil,
        Plan.compileEntriesWith_eq h scope rest]
  | scope, .spread value :: rest => by
      rw [Plan.compileEntriesWith, Plan.compileEntries,
        Plan.compileWith_eq h (scope.nested scope.name) value h.nil,
        Plan.compileEntriesWith_eq h scope rest]

theorem Plan.compileKeyWith_eq (h : UsualFor env onIndex Q) :
    ∀ (scope : Scope) (key : KeyPlan),
    Plan.compileKeyWith env onIndex scope key = Plan.compileKey env scope key
  | _, .fixed _ _ => by rw [Plan.compileKeyWith]
  | _, .registry _ => by rw [Plan.compileKeyWith]
  | scope, .computed plan => by
      rw [Plan.compileKeyWith, Plan.compileKey,
        Plan.compileWith_eq h (scope.nested none) plan h.nil]

end

theorem Schema.compileWith_eq (h : UsualFor env onIndex Q) (type : Schema)
    {scope : Scope} (hargs : Q scope.args) :
    type.compileWith env onIndex scope = type.compile env scope := by
  simp only [Schema.compileWith, Schema.compile,
    Plan.compileWith_eq h scope _ hargs]

end Handler

/-- Every index into a dispatcher applies its symbol as it is declared: in a
scope without type arguments, an unknown type for each type parameter without
default and then a case or none, and the case of a missing discriminator only if
the symbol has one. In compiling a type in such a scope no index ever sees a
type argument, since it makes no difference what an index does with them. -/
theorem index_agrees_with_symbol {env : Environment}
    {registry : String} {members : Table Schema} {info : DispatcherHead}
    (hinfo : DispatcherHead.of registry members = .ok info)
    (hget : env.dispatchers.get? registry = some info) :
    (∀ (type : Schema) (scope : Scope) (c : Compiled),
      type.IsIndexInto registry → scope.args = [] →
      (type.compile env scope).outcome = .ok c →
        ∃ t, c.type = .expression t ∧
          (∃ p args, t.at? p = some (.reference info.tableName args)) ∧
          ∀ p args, t.at? p = some (.reference info.tableName args) →
            ∃ case, args = .replicate info.params.length .unknown ++ case ∧
              (case = [] ∨ case = [.text "%fallback"] ∨ case = [.text "%none"] ∧
                ∀ d, DispatcherSymbol.build env registry members = .ok d →
                  d.select "%none" ≠ .never)) ∧
    (∀ d, DispatcherSymbol.build env registry members = .ok d →
      d.symbol.name = info.tableName ∧
        ∃ params, d.symbol.params = params ++ [
            { name := "CASE"
              bound := some (.union
                [.text "map", .text "keys", .text "%fallback", .text "%none"])
              fallback := some (.text "map") }] ∧
          params.length = info.params.length ∧
          ∀ p ∈ params, p.fallback = none) ∧
    (∀ (type : Schema) (scope : Scope),
      type.compileWith env (compileDispatcher env) scope =
        type.compile env scope) ∧
    ∀ onIndex, (∀ scope registry index keys, scope.args = [] →
        onIndex scope registry index keys =
          compileDispatcher env scope registry index keys) →
      ∀ (type : Schema) (scope : Scope), scope.args = [] →
        type.compileWith env onIndex scope = type.compile env scope := by
  refine ⟨fun type scope c htype hargs hc => ?_, fun d hd => ?_,
    fun type scope => ?_, fun onIndex hindex type scope hargs => ?_⟩
  · obtain ⟨index, keys, hexpr⟩ := htype.exists_access hget hc
    rw [hargs] at hexpr
    refine ⟨_, hexpr, info.exists_at?_access index scope.isRoot [] keys,
      fun p args hat => ?_⟩
    obtain ⟨case, hfilled, hcase⟩ := DispatcherHead.isFilled_of_at? hat
    refine ⟨case, hfilled,
      hcase.imp_right (Or.imp_right (And.imp_right fun habsent d hd => ?_))⟩
    rw [select_none_eq hget hd, ← hasAbsent_of hinfo, if_pos habsent]
    exact TypeExpr.noConfusion
  · obtain ⟨hname, hparams, -⟩ := symbol_eq_of_build hget hd
    refine ⟨hname, info.params, hparams, rfl, fun p hp => ?_⟩
    rw [params_head_eq hinfo p hp]
  · have husual : UsualFor env (compileDispatcher env) fun _ => True :=
      ⟨trivial, fun _ _ _ _ _ => rfl⟩
    exact type.compileWith_eq husual trivial
  · have husual : UsualFor env onIndex (· = []) := ⟨rfl, hindex⟩
    exact type.compileWith_eq husual hargs

/-- A dispatcher with a type parameter and a member for a missing discriminator:
an index that asks for a property has the case for it behind one unknown type,
and the symbol has that case. A rule that refuses type arguments changes nothing
there, but does where the whole type is applied to one. -/
theorem index_agrees_with_symbol_absent :
    let members : Table Schema :=
      ⟨[("a", .template (.string none []) [.str "::java::a::T"] []),
        ("%none", .boolean [])]⟩
    let type : Schema :=
      .dispatcher (.str "minecraft:x") [.dynamic [.property "k"]] []
    ∃ info c d, DispatcherHead.of "minecraft:x" members = .ok info ∧
      let env : Environment := { dispatchers := ⟨[("minecraft:x", info)]⟩ }
      let refuse : Scope → Json → IndexForm → List Json → Emit Compiled :=
        fun scope registry index keys =>
        if scope.args.isEmpty then
          compileDispatcher env scope registry index keys
        else .fail (.dispatcher "minecraft:x" .unknown)
      (type.compile env {}).outcome = .ok c ∧
        DispatcherSymbol.build env "minecraft:x" members = .ok d ∧
      c.expr.at? [.yes] =
        some (.reference "SymbolX" [.unknown, .text "%none"]) ∧
      d.select "%none" ≠ .never ∧
      d.symbol.params.map (fun p => (p.name, p.fallback)) =
        [("T", none), ("CASE", some (.text "map"))] ∧
      type.compileWith env refuse {} = type.compile env {} ∧
      (type.compileWith env refuse { args := [.string] }).outcome ≠
        (type.compile env { args := [.string] }).outcome := by
  intro members type
  obtain ⟨info, hinfo⟩ :
      ∃ info, DispatcherHead.of "minecraft:x" members = .ok info := ⟨_, rfl⟩
  have hget :
      ({ dispatchers := ⟨[("minecraft:x", info)]⟩ } :
        Environment).dispatchers.get? "minecraft:x" =
      some info := rfl
  obtain ⟨hsites, -, -, hreach⟩ := index_agrees_with_symbol hinfo hget
  cases hinfo
  refine ⟨_, _, _, rfl, rfl, rfl, rfl, ?_, rfl, ?_, ?_⟩
  · obtain ⟨t, ht, -, hall⟩ := hsites type {} _ .dispatcher rfl rfl
    cases ht
    obtain ⟨case, hargs, hcase⟩ := hall [.yes] [.unknown, .text "%none"] rfl
    obtain rfl : [.text "%none"] = case := (List.cons.inj hargs).2
    rcases hcase with hnil | hfallback | ⟨-, hselect⟩
    · cases hnil
    · simp at hfallback
    · exact hselect _ rfl
  · refine hreach _ (fun scope registry index keys hargs => ?_) type {} rfl
    rw [hargs]
    rfl
  · intro heq
    cases heq

end Typings
