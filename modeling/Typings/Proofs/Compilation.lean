import Typings.Plan.Compile
import Typings.Proofs.Outcome

/-!
What compiling a type can do, as a relation. `Compiles env scope type c` has one
rule for each kind of type, without plans and without the order of the checks;
`Schema.compile_sound` says that every successful compilation is an instance of
it. What a compilation preserves is then proved rule by rule.
-/

namespace Typings

/-- Is the member of a union, or the item of a tuple, still there in
the latest version? -/
def Schema.isLive (type : Schema) : Bool :=
  !Attribute.isGone type.attributes

/-- Is the field still there in the latest version? -/
def Field.isLive : Field → Bool
  | .pair _ _ _ deprecated _ attributes =>
    !(Attribute.isGone attributes || Attribute.isDeprecated attributes ||
      deprecated)
  | .spread _ attributes =>
      !(Attribute.isGone attributes || Attribute.isDeprecated attributes)

/-- Does the type neither hold nor name any other type? -/
def Schema.isLeaf : Schema → Bool
  | .any _ => true
  | .unchecked _ => true
  | .boolean _ => true
  | .string _ _ => true
  | .numeric _ _ _ => true
  | .array _ _ _ _ => true
  | .enum _ _ _ => true
  | .literal _ _ _ => true
  | _ => false

mutual

/-- The type compiles to `c` in the scope. -/
inductive Compiles (env : Environment) : Scope → Schema → Compiled → Prop where
  | leaf {scope : Scope} {type : Schema} {plan : Plan} {c : Compiled}
      (hleaf : type.isLeaf = true) (hplan : Plan.ofBody type = .ok plan)
      (hc : (plan.compile env scope).outcome = .ok c) :
      Compiles env scope type c
  | reference {scope : Scope} {path : Json} {attributes : List Attribute}
      {c : Compiled} (hc : compileReference env scope path = .ok c) :
      Compiles env scope (.reference path attributes) c
  | concrete {scope : Scope} {path : Json}
      {attributes attributes' : List Attribute}
      {args : List Schema} {cs : List Compiled} {c : Compiled}
      (hargs : CompilesAll env (scope.nested none) args cs)
      (hc : compileReference env { scope.nested none with
        args := cs.map (·.expr) } path = .ok c) :
      Compiles env scope
        (.concrete (.reference path attributes) args attributes')
        { type := c.type
          imports := joinImports (Compiled.allImports cs) c.imports
          docs := c.docs
          requests := Compiled.allRequests cs }
  | template {scope : Scope}
      {name : String} {child : Schema} {params : List Json}
      {paths : List String} {attributes : List Attribute} {c : Compiled}
      (hroot : scope.isRoot = true) (hname : scope.name = some name)
      (hparams : params.mapM (fun p => Fault.ofMisuse p.asText) = .ok paths)
      (hbody : Compiles env { scope with
        generics := scope.generics ++ paths, args := [], keys := [] } child c) :
      Compiles env scope (.template child params attributes)
        (compileTemplate name paths c)
  | list {scope : Scope} {item : Schema}
      {length : Option Range} {attributes : List Attribute} {inner c : Compiled}
      (hitem : Compiles env (scope.nested scope.name) item inner)
      (hc : compileList scope inner length = .ok c) :
      Compiles env scope (.list item length attributes) c
  | union {scope : Scope} {members : List Schema} {attributes : List Attribute}
      {cs : List Compiled}
      (hmembers : CompilesAll env (scope.nested scope.name)
        (members.filter (·.isLive)) cs) :
      Compiles env scope (.union members attributes) (compileUnion cs)
  | tuple {scope : Scope} {items : List Schema} {attributes : List Attribute}
      {cs : List Compiled}
      (hitems : CompilesAll env (scope.nested scope.name)
        (items.filter (·.isLive)) cs) :
      Compiles env scope (.tuple items attributes) (compileTuple cs)
  | struct {scope : Scope} {fields : List Field} {attributes : List Attribute}
      {parts : List Part} {c : Compiled}
      (hfields : CompilesFields env scope fields parts)
      (hc : composeStruct scope parts = .ok c) :
      Compiles env scope (.struct fields attributes) c
  | dispatcher {scope : Scope} {registry : Json} {indices : List Index}
      {attributes : List Attribute} {index : IndexForm} {c : Compiled}
      (hindex : IndexForm.ofIndices? indices = some index)
      (hc : (compileDispatcher env scope registry index scope.keys).outcome =
        .ok c) :
      Compiles env scope (.dispatcher registry indices attributes) c
  | indexed {scope : Scope} {registry : Json} {inner indices : List Index}
      {attributes attributes' : List Attribute} {index : IndexForm}
      {keys : List Json}
      {c : Compiled} (hindex : IndexForm.ofIndices? inner = some index)
      (hkeys : staticKeys registry indices = .ok keys)
      (hc : (compileDispatcher env scope registry index keys).outcome = .ok c) :
      Compiles env scope
        (.indexed (.dispatcher registry inner attributes) indices attributes') c

/-- The types compile one after the other. -/
inductive CompilesAll (env : Environment) :
    Scope → List Schema → List Compiled → Prop where
  | nil {scope : Scope} : CompilesAll env scope [] []
  | cons {scope : Scope} {type : Schema} {rest : List Schema} {c : Compiled}
      {cs : List Compiled} (htype : Compiles env scope type c)
      (hrest : CompilesAll env scope rest cs) :
      CompilesAll env scope (type :: rest) (c :: cs)

/-- The fields that are still there compile to the parts of a struct. -/
inductive CompilesFields (env : Environment) :
    Scope → List Field → List Part → Prop where
  | nil {scope : Scope} : CompilesFields env scope [] []
  | gone {scope : Scope} {field : Field} {rest : List Field} {parts : List Part}
      (hgone : field.isLive = false)
      (hrest : CompilesFields env scope rest parts) :
      CompilesFields env scope (field :: rest) parts
  | own {scope : Scope} {name : String}
      {type : Schema} {optional deprecated : Bool}
      {description : Json} {attributes : List Attribute} {docs : List String}
      {value : Compiled} {rest : List Field} {parts : List Part}
      (hlive : (Field.pair (.name name) type optional deprecated description
          attributes).isLive
        = true)
      (hvalue : Compiles env (scope.nested (scope.nameUnder name)) type value)
      (hdocs : pairDocs description value.docs = .ok docs)
      (hrest : CompilesFields env scope rest parts) :
      CompilesFields env scope
        (.pair (.name name) type optional deprecated description attributes ::
          rest) (.own name optional docs value :: parts)
  | mapped {scope : Scope} {key type : Schema} {optional deprecated : Bool}
      {description : Json} {attributes : List Attribute} {keys : TypeExpr}
      {keyImports : Option ImportPaths} {value : Compiled} {rest : List Field}
      {parts : List Part}
      (hlive : (Field.pair (.type key) type optional deprecated description
        attributes).isLive = true)
      (hkey : CompilesKey env scope key keys keyImports)
      (hvalue : Compiles env (scope.nested scope.name) type value)
      (hrest : CompilesFields env scope rest parts) :
      CompilesFields env scope
        (.pair (.type key) type optional deprecated description attributes ::
          rest)
        (.mapped keys keyImports value :: parts)
  | spread {scope : Scope} {type : Schema} {attributes : List Attribute}
      {value : Compiled} {rest : List Field} {parts : List Part}
      (hlive : (Field.spread type attributes).isLive = true)
      (hvalue : Compiles env (scope.nested scope.name) type value)
      (hrest : CompilesFields env scope rest parts) :
      CompilesFields env scope (.spread type attributes :: rest)
        (.spread value :: parts)

/-- The keys of a dynamic field compile to a type with its imports. -/
inductive CompilesKey (env : Environment) :
    Scope → Schema → TypeExpr → Option ImportPaths → Prop where
  | string {scope : Scope} {length : Option Range} {attributes : List Attribute}
      {plan : KeyPlan} {keys : TypeExpr} {imports : Option ImportPaths}
      (hplan : KeyPlan.ofString length attributes = .ok plan)
      (hc : (Plan.compileKey env scope plan).outcome = .ok (keys, imports)) :
      CompilesKey env scope (.string length attributes) keys imports
  | computed {scope : Scope} {type : Schema} {c : Compiled}
      (htype : Compiles env (scope.nested none) type c) :
      CompilesKey env scope type c.expr c.imports

end

theorem IndexForm.of_eq_ok_iff {registry : Json} {indices : List Index}
    {index : IndexForm} :
    IndexForm.of registry indices = .ok index ↔
      IndexForm.ofIndices? indices = some index := by
  rw [IndexForm.of]
  split <;> simp_all

theorem Plan.ofPath_eq_ok {path : Json} {plan : Plan}
    (h : Plan.ofPath path = .ok plan) :
    plan = .reference path := by
  rw [Plan.ofPath] at h
  split at h
  · cases h
  · cases h
    rfl

variable {env : Environment}

theorem compileReference_eq_ok {scope : Scope} {path : Json} {c : Compiled}
    (h : compileReference env scope path = .ok c) :
    ∃ target, env.target scope.generics path = .ok target ∧
      c = .ofExpr (.reference (lastSegment target) scope.args)
        (if scope.generics.contains target then none else some
          (.ofList [target])) := by
  obtain ⟨target, htarget, h⟩ := bind_eq_ok_iff.mp h
  exact ⟨target, liftMisuse_eq_ok_iff.mp htarget, (pure_eq_ok_iff.mp h).symm⟩

theorem Environment.dispatcher_eq_ok {registry : Json} {key : String}
    {info : DispatcherHead} (h : env.dispatcher registry = .ok (key, info)) :
    registry = .str key ∧ env.dispatchers.get? key = some info := by
  obtain ⟨key?, hkey, h⟩ := bind_eq_ok_iff.mp h
  have hkey := liftMisuse_eq_ok_iff.mp hkey
  split at h
  · cases h
  · split at h
    · rename_i hget
      cases h
      cases registry <;> cases hkey
      exact ⟨rfl, hget⟩
    · cases h

theorem compileDispatcher_eq_ok {scope : Scope} {registry : Json}
    {index : IndexForm} {keys : List Json} {c : Compiled}
    (h : (compileDispatcher env scope registry index keys).outcome = .ok c) :
    ∃ key info, env.dispatcher registry = .ok (key, info) ∧
      c = { type := .expression (info.access index scope.isRoot
              scope.args keys).1
            imports := some (.ofList [tablePath info.tableName])
            requests :=
              (info.access index scope.isRoot scope.args keys).2 } := by
  obtain ⟨⟨key, info⟩, hinfo, h⟩ := Emit.outcome_bind_eq_ok_iff.mp h
  refine ⟨key, info, hinfo, ?_⟩
  -- Whether the reference is noted or not, the rest is the same.
  dsimp only at h
  split at h
  · obtain ⟨-, -, h⟩ := Emit.outcome_bind_eq_ok_iff.mp h
    cases h
    rfl
  · cases h
    rfl

theorem mapM_requests_eq_ok {rs rs' : List Request} {fault : Request → Fault}
    (h : rs.mapM (fun r => if r.parents = 0 then Except.error (fault r)
      else .ok { r with parents := r.parents - 1 }) = .ok rs') :
    (∀ r ∈ rs, 0 < r.parents) ∧ rs' = outerRequests rs := by
  induction rs generalizing rs' with
  | nil =>
      cases h
      exact ⟨by simp, rfl⟩
  | cons r rest ih =>
      rw [List.mapM_cons, bind_eq_ok_iff] at h
      obtain ⟨r', hr, h⟩ := h
      obtain ⟨rest', hrest, h⟩ := bind_eq_ok_iff.mp h
      obtain rfl := pure_eq_ok_iff.mp h
      obtain ⟨hpositive, rfl⟩ := ih hrest
      split at hr
      · cases hr
      · rename_i hne
        cases hr
        have hr := Nat.pos_of_ne_zero hne
        refine ⟨List.forall_mem_cons.mpr ⟨hr, hpositive⟩, ?_⟩
        simp only [outerRequests, List.filterMap_cons, hr, if_true]

/-- A list passes every request of its items on, one level further out. -/
theorem compileList_eq_ok {scope : Scope} {item c : Compiled}
    {length : Option Range} (h : compileList scope item length = .ok c) :
    (∀ r ∈ item.requests, 0 < r.parents) ∧
      c.requests = outerRequests item.requests ∧
      (c.type = .expression (.reference "Array" [item.expr]) ∧
        c.imports = item.imports ∨
        ∃ range generic docs, Range.lengthArgument range "List" =
          .ok (generic, docs) ∧
          c.type = .expression (.reference "NBTList" [item.expr, generic]) ∧
          c.imports = joinImports (some (.ofList [libraryPath "NBTList"]))
            item.imports) := by
  obtain ⟨requests, hrequests, h⟩ := bind_eq_ok_iff.mp h
  obtain ⟨hpositive, rfl⟩ := mapM_requests_eq_ok hrequests
  split at h
  · cases h
    exact ⟨hpositive, rfl, Or.inl ⟨rfl, rfl⟩⟩
  · obtain ⟨⟨generic, docs⟩, hgeneric, h⟩ := bind_eq_ok_iff.mp h
    cases h
    exact ⟨hpositive, rfl,
      Or.inr ⟨_, generic, docs, liftMisuse_eq_ok_iff.mp hgeneric, rfl, rfl⟩⟩

/-- Does a struct at the root leave one of the requests of its fields open? -/
def Part.leavesOpen (parts : List Part) : Bool :=
  (Part.allRequests parts).any fun r =>
    decide (0 < r.parents) ||
      !((Part.properties parts).map (·.name)).contains r.property

theorem composeStruct_eq_ok {scope : Scope} {parts : List Part} {c : Compiled}
    (h : composeStruct scope parts = .ok c) :
    (∃ selector?,
        chooseSelector scope.isRoot ((Part.properties parts).map (·.name))
        (requestedHere (Part.allRequests parts)) = .ok selector? ∧
        c.expr = structBody parts selector?) ∧
      c.imports = Part.allImports parts ∧
      c.requests = outerRequests (Part.allRequests parts) ∧
      (c.type = .expression c.expr ∧
        (scope.isRoot && Part.leavesOpen parts) = false ∨
        ∃ name, scope.name = some name ∧
          (scope.isRoot && Part.leavesOpen parts) = true ∧
          c.type = .declaration
            { name, type := c.expr, params := [.discriminator] }) := by
  rw [composeStruct] at h
  split at h
  · cases h
  · rename_i selector? hselector
    dsimp only at h
    split at h
    · rename_i hopen
      split at h
      · cases h
      · rename_i name hname
        cases h
        exact ⟨⟨selector?, hselector, rfl⟩, rfl, rfl,
          Or.inr ⟨name, hname, hopen, rfl⟩⟩
    · rename_i hclosed
      cases h
      exact ⟨⟨selector?, hselector, rfl⟩, rfl, rfl,
        Or.inl ⟨rfl, Bool.of_not_eq_true hclosed⟩⟩

theorem Plan.compiles_concrete {scope : Scope} {path : Json}
    {args : List Schema}
    {attributes attributes' : List Attribute} {plans : List Plan} {c : Compiled}
    (hargs : ∀ {cs : List Compiled},
      (Plan.compileAll env (scope.nested none) plans).outcome = .ok cs →
        CompilesAll env (scope.nested none) args cs)
    (hc : ((Plan.concrete path plans).compile env scope).outcome = .ok c) :
    Compiles env scope
      (.concrete (.reference path attributes) args attributes') c := by
  rw [Plan.compile, Emit.outcome_bind_eq_ok_iff] at hc
  obtain ⟨cs, hcs, hc⟩ := hc
  obtain ⟨child, hchild, hc⟩ := Emit.outcome_bind_eq_ok_iff.mp hc
  cases hc
  exact .concrete (hargs hcs) hchild

theorem Plan.compiles_union {scope : Scope} {members : List Schema}
    {attributes : List Attribute} {plans : List Plan} {c : Compiled}
    (hmembers : ∀ {cs : List Compiled},
      (Plan.compileAll env (scope.nested scope.name) plans).outcome = .ok cs →
        CompilesAll env (scope.nested scope.name)
          (members.filter (·.isLive)) cs)
    (hc : ((Plan.union plans).compile env scope).outcome = .ok c) :
    Compiles env scope (.union members attributes) c := by
  rw [Plan.compile, Emit.outcome_bind_eq_ok_iff] at hc
  obtain ⟨cs, hcs, hc⟩ := hc
  cases hc
  exact .union (hmembers hcs)

/-- A key that is compiled like a type. -/
theorem Plan.compilesKey_computed {scope : Scope} {type : Schema} {plan : Plan}
    {keys : TypeExpr} {imports : Option ImportPaths}
    (htype : ∀ {c : Compiled},
      (plan.compile env (scope.nested none)).outcome = .ok c →
      Compiles env (scope.nested none) type c)
    (hc : (Plan.compileKey env scope (.computed plan)).outcome =
      .ok (keys, imports)) :
    CompilesKey env scope type keys imports := by
  rw [Plan.compileKey, Emit.outcome_bind_eq_ok_iff] at hc
  obtain ⟨c, hplan, hc⟩ := hc
  cases hc
  exact .computed (htype hplan)

mutual

theorem Plan.compiles_ofBody :
    ∀ (type : Schema) {plan : Plan} {scope : Scope} {c : Compiled},
    Plan.ofBody type = .ok plan → (plan.compile env scope).outcome = .ok c →
      Compiles env scope type c
  | .any _, _, _, _, hplan, hc => .leaf rfl hplan hc
  | .unchecked _, _, _, _, hplan, hc => .leaf rfl hplan hc
  | .boolean _, _, _, _, hplan, hc => .leaf rfl hplan hc
  | .string _ _, _, _, _, hplan, hc => .leaf rfl hplan hc
  | .numeric _ _ _, _, _, _, hplan, hc => .leaf rfl hplan hc
  | .array _ _ _ _, _, _, _, hplan, hc => .leaf rfl hplan hc
  | .enum _ _ _, _, _, _, hplan, hc => .leaf rfl hplan hc
  | .literal _ _ _, _, _, _, hplan, hc => .leaf rfl hplan hc
  | .list item length attributes, plan, scope, c, hplan, hc => by
      rw [Plan.ofBody, bind_eq_ok_iff] at hplan
      obtain ⟨-, -, hplan⟩ := hplan
      obtain ⟨itemPlan, hitem, hplan⟩ := bind_eq_ok_iff.mp hplan
      obtain rfl := pure_eq_ok_iff.mp hplan
      rw [Plan.compile, Emit.outcome_bind_eq_ok_iff] at hc
      obtain ⟨inner, hinner, hc⟩ := hc
      exact .list (Plan.compiles_ofBody item hitem hinner) hc
  | .tuple items attributes, plan, scope, c, hplan, hc => by
      rw [Plan.ofBody, bind_eq_ok_iff] at hplan
      obtain ⟨-, -, hplan⟩ := hplan
      obtain ⟨plans, hitems, hplan⟩ := bind_eq_ok_iff.mp hplan
      obtain rfl := pure_eq_ok_iff.mp hplan
      rw [Plan.compile, Emit.outcome_bind_eq_ok_iff] at hc
      obtain ⟨cs, hcs, hc⟩ := hc
      cases hc
      exact .tuple (Plan.compiles_ofLive items hitems hcs)
  | .union members attributes, plan, scope, c, hplan, hc => by
      rw [Plan.ofBody, bind_eq_ok_iff] at hplan
      obtain ⟨-, -, hplan⟩ := hplan
      obtain ⟨plans, hmembers, hplan⟩ := bind_eq_ok_iff.mp hplan
      obtain rfl := pure_eq_ok_iff.mp hplan
      exact Plan.compiles_union
        (fun hcs => Plan.compiles_ofLive members hmembers hcs) hc
  | .struct fields attributes, plan, scope, c, hplan, hc => by
      rw [Plan.ofBody, bind_eq_ok_iff] at hplan
      obtain ⟨entries, hentries, hplan⟩ := hplan
      obtain rfl := pure_eq_ok_iff.mp hplan
      rw [Plan.compile, Emit.outcome_bind_eq_ok_iff] at hc
      obtain ⟨parts, hparts, hc⟩ := hc
      exact .struct (Plan.compiles_ofFields fields hentries hparts) hc
  | .reference path attributes, plan, scope, c, hplan, hc => by
      rw [Plan.ofBody] at hplan
      obtain rfl := Plan.ofPath_eq_ok hplan
      rw [Plan.compile] at hc
      exact .reference hc
  | .concrete child args attributes', plan, scope, c, hplan, hc => by
      rw [Plan.ofBody.eq_def] at hplan
      dsimp only at hplan
      split at hplan
      · obtain ⟨-, -, hplan⟩ := bind_eq_ok_iff.mp hplan
        split at hplan
        · cases hplan
        · obtain ⟨plans, hplans, hplan⟩ := bind_eq_ok_iff.mp hplan
          obtain rfl := pure_eq_ok_iff.mp hplan
          exact Plan.compiles_concrete
            (fun hcs => Plan.compiles_ofAll args hplans hcs) hc
      · cases hplan
  | .template child params attributes, plan, scope, c, hplan, hc => by
      rw [Plan.ofBody, bind_eq_ok_iff] at hplan
      obtain ⟨-, -, hplan⟩ := hplan
      obtain ⟨body, hbody, hplan⟩ := bind_eq_ok_iff.mp hplan
      obtain ⟨paths, hpaths, hplan⟩ := bind_eq_ok_iff.mp hplan
      obtain rfl := pure_eq_ok_iff.mp hplan
      rw [Plan.compile.eq_def] at hc
      dsimp only at hc
      split at hc
      · rename_i name hroot hname
        obtain ⟨inner, hinner, hc⟩ := Emit.outcome_bind_eq_ok_iff.mp hc
        cases hc
        exact .template hroot hname hpaths
          (Plan.compiles_ofBody child hbody hinner)
      · cases hc
  | .dispatcher registry indices attributes, plan, scope, c, hplan, hc => by
      rw [Plan.ofBody, bind_eq_ok_iff] at hplan
      obtain ⟨index, hindex, hplan⟩ := hplan
      obtain rfl := pure_eq_ok_iff.mp hplan
      rw [Plan.compile] at hc
      exact .dispatcher (IndexForm.of_eq_ok_iff.mp hindex) hc
  | .indexed child indices attributes', plan, scope, c, hplan, hc => by
      rw [Plan.ofBody.eq_def] at hplan
      dsimp only at hplan
      split at hplan
      · obtain ⟨keys, hkeys, hplan⟩ := bind_eq_ok_iff.mp hplan
        obtain ⟨-, -, hplan⟩ := bind_eq_ok_iff.mp hplan
        obtain ⟨index, hindex, hplan⟩ := bind_eq_ok_iff.mp hplan
        obtain rfl := pure_eq_ok_iff.mp hplan
        rw [Plan.compile] at hc
        exact .indexed (IndexForm.of_eq_ok_iff.mp hindex) hkeys hc
      · cases hplan

theorem Plan.compiles_ofAll :
    ∀ (types : List Schema) {plans : List Plan} {scope : Scope}
    {cs : List Compiled}, Plan.ofAll types = .ok plans →
      (Plan.compileAll env scope plans).outcome = .ok cs →
      CompilesAll env scope types cs
  | [], _, _, _, hplans, hcs => by
      cases hplans
      cases hcs
      exact .nil
  | type :: rest, plans, scope, cs, hplans, hcs => by
      rw [Plan.ofAll, bind_eq_ok_iff] at hplans
      obtain ⟨-, -, hplans⟩ := hplans
      obtain ⟨plan, hplan, hplans⟩ := bind_eq_ok_iff.mp hplans
      obtain ⟨others, hothers, hplans⟩ := bind_eq_ok_iff.mp hplans
      obtain rfl := pure_eq_ok_iff.mp hplans
      rw [Plan.compileAll, Emit.outcome_bind_eq_ok_iff] at hcs
      obtain ⟨c, hc, hcs⟩ := hcs
      obtain ⟨cs', hcs', hcs⟩ := Emit.outcome_bind_eq_ok_iff.mp hcs
      cases hcs
      exact .cons (Plan.compiles_ofBody type hplan hc)
        (Plan.compiles_ofAll rest hothers hcs')

theorem Plan.compiles_ofLive :
    ∀ (types : List Schema) {plans : List Plan} {scope : Scope}
    {cs : List Compiled}, Plan.ofLive types = .ok plans →
      (Plan.compileAll env scope plans).outcome = .ok cs →
        CompilesAll env scope (types.filter (·.isLive)) cs
  | [], _, _, _, hplans, hcs => by
      cases hplans
      cases hcs
      exact .nil
  | type :: rest, plans, scope, cs, hplans, hcs => by
      rw [Plan.ofLive] at hplans
      split at hplans
      · rename_i hgone
        rw [List.filter_cons_of_neg (by simp [Schema.isLive, hgone])]
        exact Plan.compiles_ofLive rest hplans hcs
      · rename_i hlive
        obtain ⟨plan, hplan, hplans⟩ := bind_eq_ok_iff.mp hplans
        obtain ⟨others, hothers, hplans⟩ := bind_eq_ok_iff.mp hplans
        obtain rfl := pure_eq_ok_iff.mp hplans
        rw [Plan.compileAll, Emit.outcome_bind_eq_ok_iff] at hcs
        obtain ⟨c, hc, hcs⟩ := hcs
        obtain ⟨cs', hcs', hcs⟩ := Emit.outcome_bind_eq_ok_iff.mp hcs
        cases hcs
        rw [List.filter_cons_of_pos (by simpa [Schema.isLive] using hlive)]
        exact .cons (Plan.compiles_ofBody type hplan hc)
          (Plan.compiles_ofLive rest hothers hcs')

theorem Plan.compiles_ofFields :
    ∀ (fields : List Field) {entries : List Entry} {scope : Scope}
    {parts : List Part}, Plan.ofFields fields = .ok entries →
      (Plan.compileEntries env scope entries).outcome = .ok parts →
        CompilesFields env scope fields parts
  | [], _, _, _, hentries, hparts => by
      cases hentries
      cases hparts
      exact .nil
  | .spread type attributes :: rest, entries, scope, parts, hentries,
      hparts => by
      rw [Plan.ofFields, bind_eq_ok_iff] at hentries
      obtain ⟨-, -, hentries⟩ := hentries
      split at hentries
      · rename_i hgone
        exact .gone (by simp [Field.isLive, hgone])
          (Plan.compiles_ofFields rest hentries hparts)
      · rename_i hlive
        split at hentries
        · cases hentries
        · obtain ⟨-, -, hentries⟩ := bind_eq_ok_iff.mp hentries
          obtain ⟨plan, hplan, hentries⟩ := bind_eq_ok_iff.mp hentries
          obtain ⟨others, hothers, hentries⟩ := bind_eq_ok_iff.mp hentries
          obtain rfl := pure_eq_ok_iff.mp hentries
          rw [Plan.compileEntries, Emit.outcome_bind_eq_ok_iff] at hparts
          obtain ⟨value, hvalue, hparts⟩ := hparts
          obtain ⟨parts', hparts', hparts⟩ :=
            Emit.outcome_bind_eq_ok_iff.mp hparts
          cases hparts
          exact .spread (by simpa [Field.isLive] using hlive)
            (Plan.compiles_ofBody type hplan hvalue)
            (Plan.compiles_ofFields rest hothers hparts')
  | .pair (.name name) type optional deprecated description attributes :: rest,
      entries, scope, parts, hentries, hparts => by
      rw [Plan.ofFields.eq_def] at hentries
      dsimp only at hentries
      obtain ⟨-, -, hentries⟩ := bind_eq_ok_iff.mp hentries
      split at hentries
      · rename_i hgone
        exact .gone (by simp [Field.isLive, hgone])
          (Plan.compiles_ofFields rest hentries hparts)
      · rename_i hlive
        obtain ⟨-, -, hentries⟩ := bind_eq_ok_iff.mp hentries
        obtain ⟨plan, hplan, hentries⟩ := bind_eq_ok_iff.mp hentries
        obtain ⟨others, hothers, hentries⟩ := bind_eq_ok_iff.mp hentries
        obtain rfl := pure_eq_ok_iff.mp hentries
        rw [Plan.compileEntries, Emit.outcome_bind_eq_ok_iff] at hparts
        obtain ⟨value, hvalue, hparts⟩ := hparts
        obtain ⟨docs, hdocs, hparts⟩ := Emit.outcome_bind_eq_ok_iff.mp hparts
        obtain ⟨parts', hparts', hparts⟩ :=
          Emit.outcome_bind_eq_ok_iff.mp hparts
        cases hparts
        exact .own (by simpa [Field.isLive] using hlive)
          (Plan.compiles_ofBody type hplan hvalue) hdocs
          (Plan.compiles_ofFields rest hothers hparts')
  | .pair (.type key) type optional deprecated description attributes :: rest,
      entries, scope, parts, hentries, hparts => by
      rw [Plan.ofFields.eq_def] at hentries
      dsimp only at hentries
      obtain ⟨-, -, hentries⟩ := bind_eq_ok_iff.mp hentries
      split at hentries
      · rename_i hgone
        exact .gone (by simp [Field.isLive, hgone])
          (Plan.compiles_ofFields rest hentries hparts)
      · rename_i hlive
        obtain ⟨keyPlan, hkeyPlan, hentries⟩ := bind_eq_ok_iff.mp hentries
        obtain ⟨-, -, hentries⟩ := bind_eq_ok_iff.mp hentries
        obtain ⟨plan, hplan, hentries⟩ := bind_eq_ok_iff.mp hentries
        obtain ⟨others, hothers, hentries⟩ := bind_eq_ok_iff.mp hentries
        obtain rfl := pure_eq_ok_iff.mp hentries
        rw [Plan.compileEntries, Emit.outcome_bind_eq_ok_iff] at hparts
        obtain ⟨⟨keys, keyImports⟩, hkey, hparts⟩ := hparts
        obtain ⟨value, hvalue, hparts⟩ := Emit.outcome_bind_eq_ok_iff.mp hparts
        obtain ⟨parts', hparts', hparts⟩ :=
          Emit.outcome_bind_eq_ok_iff.mp hparts
        cases hparts
        exact .mapped (by simpa [Field.isLive] using hlive)
          (Plan.compiles_ofKey key hkeyPlan hkey)
          (Plan.compiles_ofBody type hplan hvalue)
          (Plan.compiles_ofFields rest hothers hparts')

theorem Plan.compiles_ofKey : ∀ (type : Schema) {plan : KeyPlan} {scope : Scope}
    {keys : TypeExpr}
    {imports : Option ImportPaths}, Plan.ofKey type = .ok plan →
      (Plan.compileKey env scope plan).outcome = .ok (keys, imports) →
        CompilesKey env scope type keys imports
  | type, plan, scope, keys, imports, hplan, hc => by
      rw [Plan.ofKey.eq_def] at hplan
      cases type with
      | string length attributes =>
          obtain ⟨-, -, hplan⟩ := bind_eq_ok_iff.mp hplan
          exact .string hplan hc
      | reference path attributes =>
          obtain ⟨-, -, hplan⟩ := bind_eq_ok_iff.mp hplan
          split at hplan
          · cases hplan
          · obtain rfl := pure_eq_ok_iff.mp hplan
            refine Plan.compilesKey_computed (fun h => ?_) hc
            rw [Plan.compile] at h
            exact .reference h
      | concrete child args attributes =>
          obtain ⟨-, -, hplan⟩ := bind_eq_ok_iff.mp hplan
          split at hplan
          · split at hplan
            · cases hplan
            · obtain ⟨-, -, hplan⟩ := bind_eq_ok_iff.mp hplan
              obtain ⟨plans, hplans, hplan⟩ := bind_eq_ok_iff.mp hplan
              obtain rfl := pure_eq_ok_iff.mp hplan
              exact Plan.compilesKey_computed
                (Plan.compiles_concrete fun hcs =>
                  Plan.compiles_ofAll args hplans hcs) hc
          · cases hplan
      | union members attributes =>
          obtain ⟨-, -, hplan⟩ := bind_eq_ok_iff.mp hplan
          obtain ⟨-, -, hplan⟩ := bind_eq_ok_iff.mp hplan
          obtain ⟨plans, hplans, hplan⟩ := bind_eq_ok_iff.mp hplan
          obtain rfl := pure_eq_ok_iff.mp hplan
          exact Plan.compilesKey_computed
            (Plan.compiles_union fun hcs =>
              Plan.compiles_ofLive members hplans hcs) hc
      | _ =>
          obtain ⟨-, -, hplan⟩ := bind_eq_ok_iff.mp hplan
          cases hplan

end

/-- Every compilation that succeeds is an instance of the rules. -/
theorem Schema.compile_sound {scope : Scope} {type : Schema} {c : Compiled}
    (h : (type.compile env scope).outcome = .ok c) :
    Compiles env scope type c := by
  rw [Schema.compile, Emit.outcome_bind_eq_ok_iff] at h
  obtain ⟨plan, hplan, hc⟩ := h
  obtain ⟨-, -, hplan⟩ := bind_eq_ok_iff.mp hplan
  exact Plan.compiles_ofBody type hplan hc

end Typings
