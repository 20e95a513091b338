import Typings.Proofs.Cases

/-!
Where declarations stand. A type compiles to a declaration at the root only,
under the name in scope, and no type inside another one does: whatever were done
with a declaration there, nothing would come out differently. The type
parameters of a declaration are in an order that the language admits, also where
a member of a dispatcher takes the shared ones in front.
-/

namespace Typings

/-- No type parameter without a default follows one with a default. -/
def DefaultsLast (params : List TypeParameter) : Prop :=
  params.Pairwise fun p q => p.fallback.isSome = true → q.fallback.isSome = true

section Defaults

variable {params more : List TypeParameter} {p : TypeParameter}

/-- Type parameters without defaults may come first. -/
theorem DefaultsLast.append (h : DefaultsLast more)
    (hparams : ∀ p ∈ params, p.fallback = none) :
    DefaultsLast (params ++ more) := by
  have hnone : ∀ p ∈ params, ∀ q : TypeParameter,
      p.fallback.isSome = true → q.fallback.isSome = true := by
    intro p hp q hsome
    rw [hparams p hp] at hsome
    cases hsome
  have hpairs : DefaultsLast params :=
    List.pairwise_of_forall_mem_list fun p hp q _ => hnone p hp q
  exact List.pairwise_append.mpr ⟨hpairs, h, fun p hp q _ => hnone p hp q⟩

/-- A type parameter with a default may come last. -/
theorem DefaultsLast.concat (h : DefaultsLast params)
    (hp : p.fallback.isSome = true) :
    DefaultsLast (params ++ [p]) := by
  refine List.pairwise_append.mpr ⟨h, List.pairwise_singleton _ _, ?_⟩
  intro q _ r hr _
  rw [List.mem_singleton.mp hr]
  exact hp

theorem DefaultsLast.templateParams {paths : List String} {c : Compiled}
    (h : DefaultsLast c.type.params) :
    DefaultsLast (templateParams paths c) := by
  have hall : DefaultsLast
      ((paths.map fun path => ({ name := lastSegment path } : TypeParameter)) ++
      c.type.params) := by
    apply h.append
    intro p hp
    obtain ⟨path, -, rfl⟩ := List.mem_map.mp hp
    rfl
  rw [templateParams_eq]
  dsimp only
  split
  · exact hall.concat rfl
  · exact hall

end Defaults

/-- An expression fits anywhere. A declaration fits the root, under
the name in scope. -/
def Emitted.FitsIn (scope : Scope) : Emitted → Prop
  | .expression _ => True
  | .declaration declared =>
    scope.isRoot = true ∧ scope.name = some declared.name ∧
      DefaultsLast declared.params

section Fits

variable {env : Environment}

theorem Emitted.fitsIn_of_isExpr {scope : Scope} {type : Emitted} {t : TypeExpr}
    (h : type = .expression t) : type.FitsIn scope := by
  rw [h]
  trivial

theorem Emitted.FitsIn.exists_expression {scope : Scope}
    {type : Emitted} (h : type.FitsIn scope)
    (hroot : scope.isRoot = false) : ∃ t, type = .expression t := by
  cases type with
  | expression t => exact ⟨t, rfl⟩
  | declaration declared =>
      rw [FitsIn, hroot] at h
      cases h.1

theorem Emitted.FitsIn.defaultsLast {scope : Scope} {type : Emitted}
    (h : type.FitsIn scope) :
    DefaultsLast type.params := by
  cases type with
  | expression t => exact List.Pairwise.nil
  | declaration declared => exact h.2.2

theorem fitsIn_composeStruct {scope : Scope} {parts : List Part} {c : Compiled}
    (h : composeStruct scope parts = .ok c) : c.type.FitsIn scope := by
  obtain ⟨-, -, -, ⟨htype, -⟩ | ⟨name, hname, hopen, htype⟩⟩ :=
    composeStruct_eq_ok h
  · exact Emitted.fitsIn_of_isExpr htype
  · rw [htype]
    exact ⟨(Bool.and_eq_true_iff.mp hopen).1, hname,
      List.pairwise_singleton _ _⟩

mutual

/-- What a plan compiles to fits the scope. A template passes its scope on and
unwraps the declaration of its body; every other plan compiles its children in
scopes below the root. -/
theorem Plan.fitsIn : ∀ (plan : Plan) {scope : Scope} {c : Compiled},
    (plan.compile env scope).outcome = .ok c → c.type.FitsIn scope
  | .fixed _ _ _, _, _, h => by
      rw [Plan.compile] at h
      cases h
      trivial
  | .identifier _ _, _, _, h => by
      rw [Plan.compile] at h
      exact Emitted.fitsIn_of_isExpr (isClosed_compileIdentifier h).isExpr
  | .translationKey, _, _, h => by
      rw [Plan.compile] at h
      cases h
      exact Emitted.fitsIn_of_isExpr isClosed_translationKeyType.isExpr
  | .enum _ _, _, _, h => by
      rw [Plan.compile] at h
      exact Emitted.fitsIn_of_isExpr (isClosed_compileEnum h).isExpr
  | .reference _, _, _, h => by
      rw [Plan.compile] at h
      obtain ⟨target, -, rfl⟩ := compileReference_eq_ok h
      trivial
  | .concrete _ _, _, _, h => by
      rw [Plan.compile] at h
      obtain ⟨args, -, h⟩ := Emit.outcome_bind_eq_ok_iff.mp h
      obtain ⟨child, hchild, h⟩ := Emit.outcome_bind_eq_ok_iff.mp h
      obtain ⟨target, -, rfl⟩ := compileReference_eq_ok hchild
      cases h
      trivial
  | .template params body, _, _, h => by
      rw [Plan.compile] at h
      split at h
      · rename_i name hroot hname
        obtain ⟨inner, hinner, h⟩ := Emit.outcome_bind_eq_ok_iff.mp h
        cases h
        exact ⟨hroot, hname,
          (Plan.fitsIn body hinner).defaultsLast.templateParams⟩
      · cases h
  | .list _ _, _, _, h => by
      rw [Plan.compile] at h
      obtain ⟨item, -, h⟩ := Emit.outcome_bind_eq_ok_iff.mp h
      obtain ⟨-, -, ⟨htype, -⟩ | ⟨_, _, _, -, htype, -⟩⟩ := compileList_eq_ok h
      · exact Emitted.fitsIn_of_isExpr htype
      · exact Emitted.fitsIn_of_isExpr htype
  | .union members, _, _, h => by
      rw [Plan.compile] at h
      obtain ⟨cs, hcs, h⟩ := Emit.outcome_bind_eq_ok_iff.mp h
      cases h
      -- A single member stands for itself, so it has to be an expression
      -- already.
      have hall := Plan.exists_expression_of_compileAll members hcs rfl
      rw [compileUnion.eq_def]
      split
      · trivial
      · obtain ⟨t, ht⟩ := hall _ List.mem_cons_self
        exact Emitted.fitsIn_of_isExpr ht
      · trivial
  | .tuple _, _, _, h => by
      rw [Plan.compile] at h
      obtain ⟨cs, -, h⟩ := Emit.outcome_bind_eq_ok_iff.mp h
      cases h
      trivial
  | .struct _, _, _, h => by
      rw [Plan.compile] at h
      obtain ⟨parts, -, h⟩ := Emit.outcome_bind_eq_ok_iff.mp h
      exact fitsIn_composeStruct h
  | .dispatcher _ _ _, _, _, h => by
      rw [Plan.compile] at h
      obtain ⟨key, info, -, rfl⟩ := compileDispatcher_eq_ok h
      trivial

/-- Below the root every plan compiles to an expression. -/
theorem Plan.exists_expression_of_compileAll :
    ∀ (plans : List Plan) {scope : Scope} {cs : List Compiled},
    (Plan.compileAll env scope plans).outcome = .ok cs → scope.isRoot = false →
      ∀ c ∈ cs, ∃ t, c.type = .expression t
  | [], _, _, h, _ => by
      rw [Plan.compileAll] at h
      cases h
      simp
  | p :: rest, _, _, h, hroot => by
      rw [Plan.compileAll] at h
      obtain ⟨c, hc, h⟩ := Emit.outcome_bind_eq_ok_iff.mp h
      obtain ⟨cs, hcs, h⟩ := Emit.outcome_bind_eq_ok_iff.mp h
      cases h
      exact List.forall_mem_cons.mpr
        ⟨(Plan.fitsIn p hc).exists_expression hroot,
        Plan.exists_expression_of_compileAll rest hcs hroot⟩

end

theorem Schema.fitsIn {type : Schema} {scope : Scope} {c : Compiled}
    (h : (type.compile env scope).outcome = .ok c) : c.type.FitsIn scope := by
  obtain ⟨plan, -, h⟩ := Emit.outcome_bind_eq_ok_iff.mp h
  exact plan.fitsIn h

end Fits

theorem Emit.bind_congr_of_ok {α β : Type} {x : Emit α} {f g : α → Emit β}
    (h : ∀ a, x.outcome = .ok a → f a = g a) : x >>= f = x >>= g := by
  cases hx : x.outcome with
  | error fault => rw [bind_of_error hx, bind_of_error hx]
  | ok a => rw [bind_of_ok hx, bind_of_ok hx, h a hx]

section Inside

variable (env : Environment) (inside : Compiled → Compiled)

mutual

/-- Compiles a plan and does something more with every compiled type that is put
into another one. The body of a template is not put into a type, since a
declaration of it is unwrapped. -/
def Plan.compileInside (scope : Scope) : Plan → Emit Compiled
  | .fixed type source docs => Plan.compile env scope (.fixed type source docs)
  | .identifier registry tags =>
      Plan.compile env scope (.identifier registry tags)
  | .translationKey => Plan.compile env scope .translationKey
  | .enum kind cases => Plan.compile env scope (.enum kind cases)
  | .reference path => Plan.compile env scope (.reference path)
  | .concrete path args => do
    let args ← compileAllInside (scope.nested none) args
    let child ← compileReference env { scope.nested none with
      args := args.map (·.expr) } path
    return {
      type := child.type
      imports := joinImports (Compiled.allImports args) child.imports
      docs := child.docs
      requests := Compiled.allRequests args }
  | .template params body =>
    match scope.isRoot, scope.name with
    | true, some name => do
      let inner := { scope with
        generics := scope.generics ++ params, args := [], keys := [] }
      return compileTemplate name params (← body.compileInside inner)
    | _, _ => .fail (.shape
        { cause := .templateInside, kind := .str "template",
          path := scope.name })
  | .list item length => do
    let item ← item.compileInside (scope.nested scope.name)
    compileList scope (inside item) length
  | .union members => do
    return compileUnion (← compileAllInside (scope.nested scope.name) members)
  | .tuple items => do
    return compileTuple (← compileAllInside (scope.nested scope.name) items)
  | .struct entries => do
    let parts ← compileEntriesInside scope entries
    composeStruct scope parts
  | .dispatcher registry index keys =>
      Plan.compile env scope (.dispatcher registry index keys)

def Plan.compileAllInside (scope : Scope) : List Plan → Emit (List Compiled)
  | [] => pure []
  | p :: rest => do
    let compiled ← p.compileInside scope
    return inside compiled :: (← compileAllInside scope rest)

def Plan.compileEntriesInside (scope : Scope) : List Entry → Emit (List Part)
  | [] => pure []
  | .pair key value optional description :: rest => do
    let value ← value.compileInside (scope.nested (scope.nameUnder key))
    let docs ← pairDocs description value.docs
    return .own key optional docs (inside value) ::
      (← compileEntriesInside scope rest)
  | .dynamic key value :: rest => do
    let (keys, keyImports) ← compileKeyInside scope key
    let value ← value.compileInside (scope.nested scope.name)
    return .mapped keys keyImports (inside value) ::
      (← compileEntriesInside scope rest)
  | .spread value :: rest => do
    let value ← value.compileInside (scope.nested scope.name)
    return .spread (inside value) :: (← compileEntriesInside scope rest)

def Plan.compileKeyInside (scope : Scope) :
    KeyPlan → Emit (TypeExpr × Option ImportPaths)
  | .fixed type sources => Plan.compileKey env scope (.fixed type sources)
  | .registry registry => Plan.compileKey env scope (.registry registry)
  | .computed plan => do
    let compiled ← plan.compileInside (scope.nested none)
    return ((inside compiled).expr, (inside compiled).imports)

end

/-- Compiles a type and does something more with every compiled type that is put
into another one. -/
def Schema.compileInside (scope : Scope) (type : Schema) : Emit Compiled := do
  let plan ← Plan.ofSchema type
  plan.compileInside env inside scope

variable {env inside}

/-- What is done leaves expressions alone, and a plan below the root compiles
to nothing else. -/
theorem Plan.bind_inside {β : Type}
    (h : ∀ c t, c.type = .expression t → inside c = c) (plan : Plan)
    (scope : Scope) (hroot : scope.isRoot = false)
    (f : Compiled → Compiled → Emit β) :
    (plan.compile env scope >>= fun c => f c (inside c)) =
      plan.compile env scope >>= fun c => f c c := by
  apply Emit.bind_congr_of_ok
  intro c hc
  obtain ⟨t, ht⟩ := (plan.fitsIn hc).exists_expression hroot
  rw [h c t ht]

mutual

theorem Plan.compileInside_eq
    (h : ∀ c t, c.type = .expression t → inside c = c) :
    ∀ (plan : Plan) (scope : Scope),
      plan.compileInside env inside scope = plan.compile env scope
  | .fixed _ _ _, _ => by rw [Plan.compileInside]
  | .identifier _ _, _ => by rw [Plan.compileInside]
  | .translationKey, _ => by rw [Plan.compileInside]
  | .enum _ _, _ => by rw [Plan.compileInside]
  | .reference _, _ => by rw [Plan.compileInside]
  | .concrete path args, scope => by
      rw [Plan.compileInside, Plan.compile,
        Plan.compileAllInside_eq h args (scope.nested none) rfl]
  | .template params body, scope => by
      have hbody := Plan.compileInside_eq h body
        { scope with
          generics := scope.generics ++ params, args := [], keys := [] }
      simp only [Plan.compileInside, hbody]
      rfl
  | .list item length, scope => by
      rw [Plan.compileInside, Plan.compile, Plan.compileInside_eq h item]
      exact item.bind_inside h (scope.nested scope.name) rfl fun _ c =>
        compileList scope c length
  | .union members, scope => by
      rw [Plan.compileInside, Plan.compile,
        Plan.compileAllInside_eq h members (scope.nested scope.name) rfl]
  | .tuple items, scope => by
      rw [Plan.compileInside, Plan.compile,
        Plan.compileAllInside_eq h items (scope.nested scope.name) rfl]
  | .struct entries, scope => by
      rw [Plan.compileInside, Plan.compile,
        Plan.compileEntriesInside_eq h entries]
  | .dispatcher _ _ _, _ => by rw [Plan.compileInside]

theorem Plan.compileAllInside_eq
    (h : ∀ c t, c.type = .expression t → inside c = c) :
    ∀ (plans : List Plan) (scope : Scope), scope.isRoot = false →
      Plan.compileAllInside env inside scope plans =
        Plan.compileAll env scope plans
  | [], _, _ => by rw [Plan.compileAllInside, Plan.compileAll]
  | p :: rest, scope, hroot => by
      rw [Plan.compileAllInside, Plan.compileAll, Plan.compileInside_eq h p,
        Plan.compileAllInside_eq h rest scope hroot]
      exact p.bind_inside h scope hroot fun _ c =>
        do return c :: (← Plan.compileAll env scope rest)

theorem Plan.compileEntriesInside_eq
    (h : ∀ c t, c.type = .expression t → inside c = c) :
    ∀ (entries : List Entry) (scope : Scope),
      Plan.compileEntriesInside env inside scope entries =
        Plan.compileEntries env scope entries
  | [], _ => by rw [Plan.compileEntriesInside, Plan.compileEntries]
  | .pair key value optional description :: rest, scope => by
      rw [Plan.compileEntriesInside, Plan.compileEntries,
        Plan.compileInside_eq h value, Plan.compileEntriesInside_eq h rest]
      -- The docs are taken from the value before anything is done with it.
      exact value.bind_inside h (scope.nested (scope.nameUnder key)) rfl
        fun c c' => do
        let docs ← pairDocs description c.docs
        return .own key optional docs c' ::
          (← Plan.compileEntries env scope rest)
  | .dynamic key value :: rest, scope => by
      rw [Plan.compileEntriesInside,
        Plan.compileEntries, Plan.compileKeyInside_eq h key,
        Plan.compileInside_eq h value, Plan.compileEntriesInside_eq h rest]
      apply Emit.bind_congr_of_ok
      rintro ⟨keys, keyImports⟩ -
      exact value.bind_inside h (scope.nested scope.name) rfl fun _ c => do
        return .mapped keys keyImports c ::
          (← Plan.compileEntries env scope rest)
  | .spread value :: rest, scope => by
      rw [Plan.compileEntriesInside, Plan.compileEntries,
        Plan.compileInside_eq h value, Plan.compileEntriesInside_eq h rest]
      exact value.bind_inside h (scope.nested scope.name) rfl fun _ c => do
        return .spread c :: (← Plan.compileEntries env scope rest)

theorem Plan.compileKeyInside_eq
    (h : ∀ c t, c.type = .expression t → inside c = c) :
    ∀ (key : KeyPlan) (scope : Scope),
      Plan.compileKeyInside env inside scope key = Plan.compileKey env scope key
  | .fixed _ _, _ => by rw [Plan.compileKeyInside]
  | .registry _, _ => by rw [Plan.compileKeyInside]
  | .computed plan, scope => by
      rw [Plan.compileKeyInside, Plan.compileKey, Plan.compileInside_eq h plan]
      exact plan.bind_inside h (scope.nested none) rfl fun _ c =>
        return (c.expr, c.imports)

end

theorem Schema.compileInside_eq
    (h : ∀ c t, c.type = .expression t → inside c = c) (type : Schema)
    (scope : Scope) :
    type.compileInside env inside scope = type.compile env scope := by
  simp only [Schema.compileInside, Schema.compile, Plan.compileInside_eq h]

end Inside

section Members

variable {env : Environment} {registry : String} {members : Table Schema}
  {d : DispatcherSymbol}

/-- The shared type parameters of a known dispatcher have no defaults. -/
theorem Environment.Precomputed.fallback_eq_none (h : env.Precomputed)
    (hbuild : DispatcherSymbol.build env registry members = .ok d) :
    ∀ p ∈ d.info.params, p.fallback = none := by
  intro p hp
  obtain ⟨members', hinfo⟩ := h _ _ (Run.symbol_of_build hbuild).1
  rw [params_head_eq hinfo p hp]

theorem DispatcherHead.Declares.defaultsLast {info : DispatcherHead}
    {m : String × Schema} {a : Alias} (h : info.Declares env m a)
    (hparams : ∀ p ∈ info.params, p.fallback = none) :
    DefaultsLast a.params := by
  cases h with
  | expression hc htype =>
      have hlast : DefaultsLast [] := List.Pairwise.nil
      simpa using hlast.append hparams
  | declaration hc htype =>
      have hlast := (Schema.fitsIn hc).defaultsLast
      rw [htype] at hlast
      exact hlast.append fun p hp => hparams p (List.mem_filter.mp hp).1

end Members

/-- Declarations stand outermost and at the root. Whatever were done with a
declaration that is put into another type, the same would come out, so there is
none. Below the root an expression comes out, and a declaration has the name in
scope and its type parameters with defaults last. So does the alias of a member
of a dispatcher, which has the type that comes out at the root, without the
declaration around it. -/
theorem declarations_only_outermost (env : Environment) :
    (∀ (type : Schema) (scope : Scope),
      (∀ inside : Compiled → Compiled,
        (∀ c t, c.type = .expression t → inside c = c) →
        type.compileInside env inside scope = type.compile env scope) ∧
      ∀ c, (type.compile env scope).outcome = .ok c →
        (scope.isRoot = false → ∃ t, c.type = .expression t) ∧
        ∀ a, c.type = .declaration a →
          scope.isRoot = true ∧ scope.name = some a.name ∧
            DefaultsLast a.params) ∧
    (env.Precomputed → ∀ registry members d,
      DispatcherSymbol.build env registry members = .ok d →
      List.Forall₂ (fun m a =>
        a.name = memberName d.info m.1 ∧ DefaultsLast a.params ∧
          ∃ c, (m.2.compile env
              { isRoot := true, name := some a.name }).outcome = .ok c ∧
            (c.type = .expression a.type ∨ ∃ b, c.type = .declaration b ∧
              b.name = a.name ∧ b.type = a.type))
        members.entries d.members) := by
  refine ⟨fun type scope =>
    ⟨fun inside h => Schema.compileInside_eq h type scope, fun c hc => ?_⟩, ?_⟩
  · have hfits := Schema.fitsIn hc
    refine ⟨hfits.exists_expression, ?_⟩
    intro a ha
    rw [ha] at hfits
    exact hfits
  · intro hpre registry members d hbuild
    apply (declares_of_build hbuild).imp
    intro m a hdeclares
    refine ⟨hdeclares.name_eq,
      hdeclares.defaultsLast (hpre.fallback_eq_none hbuild), ?_⟩
    cases hdeclares with
    | expression hc htype => exact ⟨_, hc, Or.inl htype⟩
    | declaration hc htype =>
        have hfits := Schema.fitsIn hc
        rw [htype] at hfits
        exact ⟨_, hc, Or.inr ⟨_, htype, (Option.some.inj hfits.2.1).symm, rfl⟩⟩

/-- Two templates around a struct with a struct in it that asks for a property
further out. The outer struct is declared and takes the discriminator behind the
type parameters of both templates, the inner one is not; as a member, a template
without the shared type parameter takes it in front. A rule for declarations
inside types changes nothing, but one for every type does. -/
theorem declarations_only_outermost_nested :
    let field (name : String) (type : Schema) : Field :=
      .pair (.name name) type false false .null []
    let inner : Schema := .struct [field "v" (.dispatcher (.str "minecraft:x")
      [.dynamic [.keyword (.str "parent"), .property "k"]] [])] []
    let template (child : Schema) (path : String) : Schema :=
      .template child [.str path] []
    let outer : Schema := .struct [field "f" inner] []
    let type := template (template outer "::java::a::U") "::java::a::T"
    let members : Table Schema :=
      ⟨[("a", type), ("b", template outer "::java::a::V")]⟩
    let named (c : Compiled) : Compiled := match c.type with
      | .declaration a => .ofExpr (.named a.name) c.imports
      | .expression _ => c
    let scope : Scope := { isRoot := true, name := some "A" }
    ∃ info, DispatcherHead.of "minecraft:x" members = .ok info ∧
      let env : Environment :=
        { dispatchers := Table.empty.put "minecraft:x" info }
      (∃ t, (inner.compile env {}).outcome.toOption.map (·.type) =
        some (.expression t)) ∧
      type.compileInside env named scope = type.compile env scope ∧
      (type.compileInside env (fun _ => .ofExpr .never none) scope).outcome ≠
        (type.compile env scope).outcome ∧
      (∃ a, (type.compile env scope).outcome.toOption.map (·.type) =
        some (.declaration a) ∧ a.name = "A" ∧
        a.params.map (fun p => (p.name, p.fallback.isSome)) = [("T", false),
          ("U", false), ("S", true)] ∧
        DefaultsLast a.params) ∧
      ∃ d, DispatcherSymbol.build env "minecraft:x" members = .ok d ∧
        d.members.map (fun a => a.params.map (·.name)) = [["T", "U", "S"],
          ["T", "V", "S"]] ∧
        ∀ a ∈ d.members, DefaultsLast a.params := by
  intro field inner template outer type members named scope
  obtain ⟨info, hinfo⟩ :
      ∃ info, DispatcherHead.of "minecraft:x" members = .ok info := ⟨_, rfl⟩
  refine ⟨info, hinfo, ?_⟩
  intro env
  have hpre : env.Precomputed := precomputed_empty.put hinfo
  obtain ⟨hcompile, hbuild⟩ := declarations_only_outermost env
  have hnamed : ∀ c t, c.type = .expression t → named c = c := by
    intro c t ht
    simp only [named, ht]
  cases hinfo
  obtain ⟨d, hd, hparams⟩ :
      ∃ d, DispatcherSymbol.build env "minecraft:x" members = .ok d ∧
      d.members.map (fun a => a.params.map (·.name)) = [["T", "U", "S"],
        ["T", "V", "S"]] := ⟨_, rfl, rfl⟩
  refine ⟨?_, (hcompile type scope).1 named hnamed, ?_, ?_, d, hd, hparams, ?_⟩
  · obtain ⟨t, ht⟩ := ((hcompile inner {}).2 _ rfl).1 rfl
    exact ⟨t, congrArg some ht⟩
  · intro heq
    cases heq
  · exact ⟨_, rfl, rfl, rfl, (((hcompile type scope).2 _ rfl).2 _ rfl).2.2⟩
  · intro a ha
    obtain ⟨m, -, -, hlast, -⟩ :=
      exists_mem_of_forall₂ (hbuild hpre _ _ d hd).flip ha
    exact hlast

end Typings
