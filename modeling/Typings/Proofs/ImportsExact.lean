import Typings.Proofs.Root

/-!
Import lists are exact. Every name in a compiled type comes from an import, from
a type parameter in scope or from the language itself; every import is there for
one of the names; and the list has the normal form of import lists.
-/

namespace Typings

/-- The names that come from the language, and the keys of mapped types. -/
def unimported : List String :=
  ["Array", "Record", "S", "Key"]

/-- Every name in a compiled type, with those in its type parameters. -/
def Emitted.names (type : Emitted) : List String :=
  type.body.names ++ type.params.flatMap (·.names)

/-- The names in the keys of a dynamic field. -/
def Part.keyNames : Part → List String
  | .mapped keys _ _ => keys.names
  | _ => []

theorem Part.namesWith_false (p : Part) :
    p.namesWith false = p.keyNames ++ p.value.expr.names := by
  cases p <;> rfl

/-- What is known of every dispatcher was computed from its members. -/
def Environment.Precomputed (env : Environment) : Prop :=
  ∀ registry info, env.dispatchers.get? registry = some info →
    ∃ members, DispatcherHead.of registry members = .ok info

theorem precomputed_empty : Environment.Precomputed {} := by
  intro registry info h
  cases h

theorem Environment.Precomputed.put {env : Environment} (h : env.Precomputed)
    {registry : String} {members : Table Schema} {info : DispatcherHead}
    (hinfo : DispatcherHead.of registry members = .ok info) :
    Environment.Precomputed { env with
      dispatchers := env.dispatchers.put registry info } := by
  intro registry' info' hget
  rw [Table.get?_put] at hget
  split at hget
  · rename_i heq
    cases hget
    rw [beq_iff_eq.mp heq]
    exact ⟨members, hinfo⟩
  · exact h registry' info' hget

/-- The imports account for the names. -/
structure Backed (generics : List String) (imports : Option ImportPaths)
    (names : List String) :
    Prop where
  normal : ImportsNormal imports
  complete : ∀ n ∈ names, n ∉ unimported → n ∉ generics.map lastSegment →
    ∃ path ∈ importedPaths imports, lastSegment path = n
  needed : ∀ path ∈ importedPaths imports, lastSegment path ∈ names

namespace Backed

variable {generics names more : List String}
  {imports other : Option ImportPaths}

theorem nothing : Backed generics none [] where
  normal := importsNormal_none
  complete := by simp
  needed := by simp [importedPaths]

theorem ofSourced {type : TypeExpr} (h : Sourced type imports) :
    Backed generics imports type.names where
  normal := h.normal
  complete n hn _ _ := (h.names false n).mp hn
  needed path hpath := (h.names false (lastSegment path)).mpr ⟨path, hpath, rfl⟩

theorem single {path : String} :
    Backed generics (some (.ofList [path])) [lastSegment path] where
  normal := importsNormal_ofList
  complete n hn _ _ := ⟨path, ImportPaths.mem_ofList.mpr List.mem_cons_self,
    (List.mem_singleton.mp hn).symm⟩
  needed q hq := by
    rw [importedPaths, ImportPaths.mem_ofList, List.mem_singleton] at hq
    rw [hq]
    exact List.mem_cons_self

/-- Names of the language may come in, and no name may get lost. -/
theorem mono (h : Backed generics imports names) (hkept : ∀ n ∈ names, n ∈ more)
    (hnew : ∀ n ∈ more, n ∈ names ∨ n ∈ unimported) :
    Backed generics imports more where
  normal := h.normal
  complete n hn hun hgenerics := by
    rcases hnew n hn with hold | hlanguage
    · exact h.complete n hold hun hgenerics
    · exact absurd hlanguage hun
  needed path hpath := hkept _ (h.needed path hpath)

theorem append (h : Backed generics imports names) (added : List String) :
    Backed (generics ++ added) imports names where
  normal := h.normal
  complete n hn hun hgenerics := by
    refine h.complete n hn hun fun hmem => hgenerics ?_
    rw [List.map_append]
    exact List.mem_append_left _ hmem
  needed := h.needed

theorem join (h : Backed generics imports names)
    (hother : Backed generics other more) :
    Backed generics (joinImports imports other) (names ++ more) := by
  obtain ⟨hnormal, hmem⟩ := h.normal.join other
  refine ⟨hnormal, fun n hn hun hgenerics => ?_, fun path hpath => ?_⟩
  · rcases List.mem_append.mp hn with hn | hn
    · obtain ⟨path, hpath, hlast⟩ := h.complete n hn hun hgenerics
      exact ⟨path, (hmem path).mpr (Or.inl hpath), hlast⟩
    · obtain ⟨path, hpath, hlast⟩ := hother.complete n hn hun hgenerics
      exact ⟨path, (hmem path).mpr (Or.inr hpath), hlast⟩
  · rcases (hmem path).mp hpath with hpath | hpath
    · exact List.mem_append_left _ (h.needed path hpath)
    · exact List.mem_append_right _ (hother.needed path hpath)

theorem foldl_join {cs : List Compiled} (h : Backed generics imports names)
    (hcs : ∀ c ∈ cs, Backed generics c.imports c.expr.names) :
    Backed generics
      (cs.foldl (fun imports c => joinImports imports c.imports) imports)
      (names ++ cs.flatMap (·.expr.names)) := by
  induction cs generalizing imports names with
  | nil => simpa using h
  | cons c rest ih =>
      rw [List.forall_mem_cons] at hcs
      rw [List.foldl_cons, List.flatMap_cons, ← List.append_assoc]
      exact ih (h.join hcs.1) hcs.2

theorem allImports {cs : List Compiled}
    (hcs : ∀ c ∈ cs, Backed generics c.imports c.expr.names) :
    Backed generics (Compiled.allImports cs)
      (TypeExpr.namesWithAll false (cs.map (·.expr))) := by
  rw [TypeExpr.namesWithAll_eq, List.flatMap_map]
  exact nothing.foldl_join hcs

theorem foldl_joinParts {parts : List Part} (h : Backed generics imports names)
    (hparts : ∀ p ∈ parts, Backed generics p.keyImports p.keyNames ∧
      Backed generics p.value.imports p.value.expr.names) :
    Backed generics
      (parts.foldl (fun imports p =>
        joinImports (joinImports imports p.keyImports) p.value.imports) imports)
      (names ++ parts.flatMap (·.namesWith false)) := by
  induction parts generalizing imports names with
  | nil => simpa using h
  | cons p rest ih =>
      rw [List.forall_mem_cons] at hparts
      have hp := (h.join hparts.1.1).join hparts.1.2
      rw [List.append_assoc, ← Part.namesWith_false] at hp
      rw [List.foldl_cons, List.flatMap_cons, ← List.append_assoc]
      exact ih hp hparts.2

end Backed

section Steps

variable {env : Environment} {scope : Scope} {c : Compiled}

/-- The name of a type parameter needs no import, any other is
imported by its path. -/
theorem backed_target (generics : List String) (target : String) :
    Backed generics
      (if generics.contains target then none else some (.ofList [target]))
      [lastSegment target] := by
  split
  · rename_i hcontains
    refine ⟨importsNormal_none,
      fun n hn _ hgenerics => ?_, by simp [importedPaths]⟩
    rw [List.mem_singleton.mp hn] at hgenerics
    exact absurd
      (List.mem_map_of_mem (List.contains_iff_mem.mp hcontains)) hgenerics
  · exact .single

theorem backed_compileReference {path : Json} {imports : Option ImportPaths}
    (hargs : Backed scope.generics imports
      (TypeExpr.namesWithAll false scope.args))
    (h : compileReference env scope path = .ok c) :
    Backed scope.generics (joinImports imports c.imports) c.expr.names := by
  obtain ⟨target, -, rfl⟩ := compileReference_eq_ok h
  refine (hargs.join (backed_target scope.generics target)).mono
    (fun n hn => ?_) fun n hn => ?_
  · exact List.mem_cons.mpr
      ((List.mem_append.mp hn).symm.imp_left List.mem_singleton.mp)
  · exact Or.inl (List.mem_append.mpr
      ((List.mem_cons.mp hn).symm.imp_right List.mem_singleton.mpr))

theorem backed_compileList {generics : List String}
    {item : Compiled} {length : Option Range}
    (hitem : Backed generics item.imports item.expr.names)
    (h : compileList scope item length = .ok c) :
    Backed generics c.imports c.expr.names := by
  obtain ⟨-, -,
    ⟨htype, himports⟩ | ⟨range, generic, docs, hgeneric, htype, himports⟩⟩ :=
    compileList_eq_ok h
  · rw [Compiled.expr, htype, himports]
    refine hitem.mono (fun n hn => ?_) fun n hn => ?_
    · exact TypeExpr.mem_namesWith_reference.mpr
        (Or.inr ⟨_, List.mem_cons_self, hn⟩)
    · rcases TypeExpr.mem_namesWith_reference.mp hn with rfl | ⟨t, ht, hn⟩
      · exact Or.inr (by decide)
      · exact Or.inl (List.mem_singleton.mp ht ▸ hn)
  · have hlast : lastSegment (libraryPath "NBTList") = "NBTList" := by
      decide +kernel
    have hnames := Range.namesWith_boundsArgument hgeneric false
    rw [Compiled.expr, htype, himports]
    refine (Backed.single.join hitem).mono (fun n hn => ?_) fun n hn => ?_
    · rw [hlast] at hn
      simpa [Emitted.body, TypeExpr.namesWith, TypeExpr.namesWithAll,
        hnames] using hn
    · rw [hlast]
      exact Or.inl (by simpa [Emitted.body, TypeExpr.namesWith,
        TypeExpr.namesWithAll, hnames] using hn)

theorem backed_compileUnion {generics : List String} {cs : List Compiled}
    (hcs : ∀ c ∈ cs, Backed generics c.imports c.expr.names) :
    Backed generics (compileUnion cs).imports (compileUnion cs).expr.names := by
  rw [compileUnion.eq_def]
  split
  · exact .nothing
  · exact hcs _ List.mem_cons_self
  · exact .allImports hcs

/-- The table of a dispatcher is imported by its name. -/
theorem backed_compileDispatcher {generics : List String} {registry : Json}
    {index : IndexForm}
    {keys : List Json} (hpre : env.Precomputed) (hargs : scope.args = [])
    (h : (compileDispatcher env scope registry index keys).outcome = .ok c) :
    Backed generics c.imports c.expr.names := by
  obtain ⟨key, info, hkey, rfl⟩ := compileDispatcher_eq_ok h
  obtain ⟨members, hinfo⟩ := hpre key info (Environment.dispatcher_eq_ok hkey).2
  rw [hargs]
  refine Backed.single.mono (fun n hn => ?_) fun n hn => ?_
  · rw [lastSegment_tablePath hinfo, List.mem_singleton] at hn
    have hne : n ≠ "Record" := hn ▸ tableName_ne (by decide)
    exact (TypeExpr.mem_namesWith_access hne).mpr (Or.inl hn)
  · by_cases hrecord : n = "Record"
    · rw [hrecord]
      exact Or.inr (by decide)
    · rw [lastSegment_tablePath hinfo, List.mem_singleton]
      rcases (TypeExpr.mem_namesWith_access hrecord).mp hn with htable |
        ⟨rfl, -⟩ | ⟨rfl, -⟩
      · exact Or.inl htable
      · exact Or.inr (by decide)
      · exact Or.inr (by decide)

theorem backed_composeStruct {generics : List String} {parts : List Part}
    (hparts : ∀ p ∈ parts, Backed generics p.keyImports p.keyNames ∧
      Backed generics p.value.imports p.value.expr.names)
    (h : composeStruct scope parts = .ok c) :
    Backed generics c.imports c.expr.names := by
  obtain ⟨⟨selector?, -, hbody⟩, himports, -, -⟩ := composeStruct_eq_ok h
  rw [hbody, himports]
  refine (Backed.nothing.foldl_joinParts hparts).mono (fun n hn => ?_)
    fun n hn => ?_
  · exact (mem_names_structBody selector?).1 (List.mem_flatMap.mp hn)
  · rcases (mem_names_structBody selector?).2 hn with hpart | rfl | rfl
    · exact Or.inl (List.mem_flatMap.mpr hpart)
    · exact Or.inr (by decide)
    · exact Or.inr (by decide)

end Steps

section Run

variable {env : Environment}

/-- Away from the root no type parameters are added. -/
theorem Backed.inside {scope : Scope}
    {type : Schema} {c : Compiled} {generics : List String}
    (h : Backed (generics ++ type.headParams) c.imports c.expr.names)
    (htype : Compiles env scope type c) (hroot : scope.isRoot = false) :
    Backed generics c.imports c.expr.names := by
  rwa [htype.headParams_eq_nil hroot, List.append_nil] at h

mutual

theorem Compiles.backed (hpre : env.Precomputed) :
    ∀ {scope : Scope} {type : Schema} {c : Compiled},
    Compiles env scope type c → scope.args = [] →
      Backed (scope.generics ++ type.headParams) c.imports c.expr.names
  | _, _, _, .leaf hleaf hplan hc, _ =>
      .ofSourced (Compiles.isClosed_of_isLeaf hleaf hplan hc).sourced
  | scope, _, _, .reference hc, hargs => by
      obtain ⟨target, -, rfl⟩ := compileReference_eq_ok hc
      rw [hargs]
      exact (backed_target scope.generics target).append _
  | _, _, _, .concrete hmembers hc, _ => by
      have hall := Backed.allImports (CompilesAll.backed hpre hmembers rfl rfl)
      exact (backed_compileReference hall hc).append _
  | _, _, _, .template _ _ hparams hbody, _ => by
      have hinner := Compiles.backed hpre hbody rfl
      rw [List.append_assoc, ← filterMap_text?_of_mapM hparams] at hinner
      exact hinner
  | _, _, _, .list hitem hc, _ => by
      have hinner := (Compiles.backed hpre hitem rfl).inside hitem rfl
      exact (backed_compileList hinner hc).append _
  | _, _, _, .union hmembers, _ => by
      have hall := CompilesAll.backed hpre hmembers rfl rfl
      exact (backed_compileUnion hall).append _
  | _, _, _, .tuple hitems, _ => by
      have hall := CompilesAll.backed hpre hitems rfl rfl
      exact (Backed.allImports hall).append _
  | _, _, _, .struct hfields hc, _ => by
      have hparts := CompilesFields.backed hpre hfields
      exact (backed_composeStruct hparts hc).append _
  | _, _, _, .dispatcher _ hc, hargs => backed_compileDispatcher hpre hargs hc
  | _, _, _, .indexed _ _ hc, hargs => backed_compileDispatcher hpre hargs hc

theorem CompilesAll.backed (hpre : env.Precomputed) :
    ∀ {scope : Scope} {types : List Schema} {cs : List Compiled},
      CompilesAll env scope types cs → scope.isRoot = false → scope.args = [] →
        ∀ c ∈ cs, Backed scope.generics c.imports c.expr.names
  | _, _, _, .nil, _, _ => by simp
  | _, _, _, .cons htype hrest, hroot, hargs => by
      have hhead := (Compiles.backed hpre htype hargs).inside htype hroot
      exact List.forall_mem_cons.mpr ⟨hhead,
        CompilesAll.backed hpre hrest hroot hargs⟩

theorem CompilesFields.backed (hpre : env.Precomputed) :
    ∀ {scope : Scope} {fields : List Field} {parts : List Part},
      CompilesFields env scope fields parts →
        ∀ p ∈ parts, Backed scope.generics p.keyImports p.keyNames ∧
          Backed scope.generics p.value.imports p.value.expr.names
  | _, _, _, .nil => by simp
  | _, _, _, .gone _ hrest => CompilesFields.backed hpre hrest
  | _, _, _, .own _ hvalue _ hrest => by
      have hhead := (Compiles.backed hpre hvalue rfl).inside hvalue rfl
      exact List.forall_mem_cons.mpr ⟨⟨.nothing, hhead⟩,
        CompilesFields.backed hpre hrest⟩
  | _, _, _, .mapped _ hkey hvalue hrest => by
      have hhead := (Compiles.backed hpre hvalue rfl).inside hvalue rfl
      exact List.forall_mem_cons.mpr
        ⟨⟨CompilesKey.backed hpre hkey, hhead⟩,
          CompilesFields.backed hpre hrest⟩
  | _, _, _, .spread _ hvalue hrest => by
      have hhead := (Compiles.backed hpre hvalue rfl).inside hvalue rfl
      exact List.forall_mem_cons.mpr ⟨⟨.nothing, hhead⟩,
        CompilesFields.backed hpre hrest⟩

theorem CompilesKey.backed (hpre : env.Precomputed) :
    ∀ {scope : Scope} {type : Schema} {keys : TypeExpr}
      {imports : Option ImportPaths}, CompilesKey env scope type keys imports →
      Backed scope.generics imports keys.names
  | _, _, _, _, .string hplan hc =>
      .ofSourced (sourced_compileKey_ofString hplan hc)
  | _, _, _, _, .computed htype =>
      (Compiles.backed hpre htype rfl).inside htype rfl

end

end Run

/-- Import lists are exact. The type parameters that need no import are those in
scope and those of the templates at the head of the type: a template anywhere
else does not compile. -/
theorem Schema.imports_exact {env : Environment} {scope : Scope} {type : Schema}
    {c : Compiled} (hpre : env.Precomputed) (hargs : scope.args = [])
    (h : (type.compile env scope).outcome = .ok c) :
    (∀ n ∈ c.type.names, n ∉ unimported →
        n ∉ (scope.generics ++ type.headParams).map lastSegment →
          ∃ path ∈ importedPaths c.imports, lastSegment path = n) ∧
      (∀ path ∈ importedPaths c.imports, lastSegment path ∈ c.type.names) ∧
      (c.imports = none ∨ ∃ l, c.imports = some l ∧ l.ordered ≠ [] ∧
        l.ordered.Pairwise (· < ·) ∧ l.ordered.Nodup) := by
  have hrules := Schema.compile_sound h
  have hbacked := hrules.backed hpre hargs
  have hnames : c.type.names = c.expr.names := by
    have hparams : c.type.params.flatMap (·.names) = [] :=
      List.flatMap_eq_nil_iff.mpr hrules.names_params
    rw [Emitted.names, hparams, List.append_nil, Compiled.expr]
  rw [hnames]
  refine ⟨hbacked.complete, hbacked.needed, ?_⟩
  cases himports : c.imports with
  | none => exact Or.inl rfl
  | some l =>
      obtain ⟨hvalid, hne⟩ := hbacked.normal l himports
      exact Or.inr ⟨l, rfl, hne, hvalid.sorted, hvalid.nodup⟩

/-- A template over a struct with a dynamic field whose values hold, inside a
list, a type parameter and an index into a dispatcher. -/
theorem imports_exact_template :
    ∃ info, DispatcherHead.of "minecraft:thing" {} = .ok info ∧
    Environment.Precomputed
      { dispatchers := Table.empty.put "minecraft:thing" info } ∧
    ∃ c,
      (Schema.compile { dispatchers := Table.empty.put "minecraft:thing" info }
        { isRoot := true, name := some "Thing" } (.template
          (.struct [.pair (.name "type") (.string none []) false false .null [],
              .pair (.type (.reference (.str "::java::a::Keys") []))
                (.list (.union [.reference (.str "::java::a::T") [],
                  .dispatcher (.str "minecraft:thing")
                    [.dynamic [.keyword (.str "parent"), .property "type"]] []]
                  []) none []) false false .null []] [])
          [.str "::java::a::T"] [])).outcome = .ok c ∧
      (∀ n ∈ c.type.names, n ∉ unimported →
        n ∉ ["::java::a::T"].map lastSegment →
        ∃ path ∈ importedPaths c.imports, lastSegment path = n) ∧
      (∀ path ∈ importedPaths c.imports, lastSegment path ∈ c.type.names) ∧
      (c.imports = none ∨ ∃ l, c.imports = some l ∧ l.ordered ≠ [] ∧
        l.ordered.Pairwise (· < ·) ∧ l.ordered.Nodup) := by
  obtain ⟨info, hinfo⟩ :
      ∃ info, DispatcherHead.of "minecraft:thing" {} = .ok info := ⟨_, rfl⟩
  have hpre := precomputed_empty.put hinfo
  refine ⟨info, hinfo, hpre,
    Exists.imp (fun c hc => ⟨hc, Schema.imports_exact hpre rfl hc⟩) ?_⟩
  cases hinfo
  exact ⟨_, rfl⟩

end Typings
