import Typings.Proofs.Requests

/-!
Where the discriminator is free. A struct that is a union over a property binds
it in all of its fields but that property itself, so whether a compiled type
refers to an unbound discriminator can be read off the occurrences in the type.
-/

namespace Typings

/-- Does the struct bind the discriminator at this place? -/
def Frame.binds : Frame → Bool
  | .struct _ (some name) place => place != .property name true
  | _ => false

/-- Does what the link compiles to have the name of the discriminator in it? -/
def Link.NamesDiscriminator (env : Environment) (generics : List String) :
    Link → Prop
  | .reference path =>
      ∃ target, env.target generics path = .ok target ∧ lastSegment target = "S"
  | link => link.asks?.isSome = true

namespace Occurrence

/-- Does one of the structs around the occurrence bind the discriminator? -/
def isBound (o : Occurrence) : Bool :=
  o.frames.any (·.binds)

/-- The occurrence brings in a discriminator that nothing around it binds. -/
def LeavesFree (env : Environment) (generics : List String)
    (o : Occurrence) : Prop :=
  o.link.NamesDiscriminator env generics ∧ o.isBound = false

variable {env : Environment} {generics : List String} {o : Occurrence}

theorem leavesFree_bare (link : Link) :
    LeavesFree env generics ⟨link, []⟩ ↔
      link.NamesDiscriminator env generics := by
  simp [LeavesFree, isBound]

theorem leavesFree_within {frame : Frame} :
    (o.within frame).LeavesFree env generics ↔
      o.LeavesFree env generics ∧ frame.binds = false := by
  simp [LeavesFree, isBound, within, and_assoc]

end Occurrence

/-- The discriminator is free in the expression exactly when one of the
occurrences leaves it so. -/
def FreeBy (env : Environment) (generics : List String) (os : List Occurrence)
    (type : TypeExpr) :
    Prop :=
  "S" ∈ type.freeNames ↔ ∃ o ∈ os, o.LeavesFree env generics

theorem FreeBy.iff {env : Environment} {generics : List String}
    {os : List Occurrence} {type : TypeExpr} (h : FreeBy env generics os type) :
    "S" ∈ type.freeNames ↔ ∃ o ∈ os, o.LeavesFree env generics :=
  h

section Steps

variable {env : Environment} {scope : Scope} {c : Compiled}

theorem Sourced.freeBy {type : TypeExpr}
    {imports : Option ImportPaths} {generics : List String}
    (h : Sourced type imports) : FreeBy env generics [] type := by
  have hsources : ∀ path ∈ leafSources, lastSegment path ≠ "S" := by
    decide +kernel
  constructor
  · intro hmem
    obtain ⟨path, hpath, hlast⟩ := (h.names true "S").mp hmem
    exact absurd hlast (hsources path (h.known path hpath))
  · rintro ⟨o, ho, -⟩
    cases ho

theorem discriminator_mem_compileReference {path : Json}
    (h : compileReference env scope path = .ok c) :
    "S" ∈ c.expr.freeNames ↔
      (Link.reference path).NamesDiscriminator env scope.generics ∨
        ∃ t ∈ scope.args, "S" ∈ t.freeNames := by
  obtain ⟨target, htarget, rfl⟩ := compileReference_eq_ok h
  have hlink : (Link.reference path).NamesDiscriminator env scope.generics ↔
      "S" = lastSegment target := by
    simp [Link.NamesDiscriminator, htarget, eq_comm]
  rw [hlink]
  exact TypeExpr.mem_namesWith_reference

theorem discriminator_mem_compileList {item : Compiled} {length : Option Range}
    (h : compileList scope item length = .ok c) :
    "S" ∈ c.expr.freeNames ↔ "S" ∈ item.expr.freeNames := by
  obtain ⟨-, -, ⟨htype, -⟩ | ⟨range, generic, docs, hgeneric, htype, -⟩⟩ :=
    compileList_eq_ok h
  · rw [Compiled.expr, htype]
    simp [Emitted.body, TypeExpr.mem_namesWith_reference]
  · have hnames := Range.namesWith_boundsArgument hgeneric true
    rw [Compiled.expr, htype]
    simp [Emitted.body, TypeExpr.mem_namesWith_reference, hnames]

theorem discriminator_mem_compileUnion {cs : List Compiled} :
    "S" ∈ (compileUnion cs).expr.freeNames ↔
      ∃ c ∈ cs, "S" ∈ c.expr.freeNames := by
  rw [compileUnion.eq_def]
  split
  · simp [Compiled.ofExpr, Compiled.expr, Emitted.body, TypeExpr.never,
      TypeExpr.namesWith]
  · simp
  · simp [Compiled.expr, Emitted.body, TypeExpr.namesWith,
      TypeExpr.namesWithAll_eq]

theorem discriminator_mem_compileTuple {cs : List Compiled} :
    "S" ∈ (compileTuple cs).expr.freeNames ↔
      ∃ c ∈ cs, "S" ∈ c.expr.freeNames := by
  simp [compileTuple, Compiled.expr, Emitted.body, TypeExpr.namesWith,
    TypeExpr.namesWithAll_eq]

theorem freeBy_compileDispatcher {generics : List String}
    {registry registry' : Json} {indices : List Index} {index : IndexForm}
    {keys : List Json} (hargs : scope.args = [])
    (hindex : IndexForm.ofIndices? indices = some index)
    (h : (compileDispatcher env scope registry index keys).outcome = .ok c) :
    FreeBy env generics
      (if scope.isRoot then [] else [⟨.dispatcher registry' indices, []⟩])
      c.expr := by
  obtain ⟨key, info, -, rfl⟩ := compileDispatcher_eq_ok h
  have htable : "S" ≠ info.tableName := (tableName_ne (by decide)).symm
  change "S" ∈ (info.access index scope.isRoot scope.args keys).1.freeNames ↔ _
  rw [hargs, TypeExpr.mem_namesWith_access (by decide)]
  have hlink :
      (Link.dispatcher registry' indices).NamesDiscriminator env generics ↔
      ∃ parents property, index = .dynamic parents property := by
    rw [Link.NamesDiscriminator, asks?_dispatcher hindex]
    · cases index <;> simp
    · simp
  cases scope.isRoot <;> simp [Occurrence.leavesFree_bare, hlink, htable]

theorem mem_liveNames_cons {field : Field} {rest : List Field} {name : String} :
    name ∈ Field.liveNames (field :: rest) ↔
      field.isLive = true ∧ field.fixedName? = some name ∨
        name ∈ Field.liveNames rest := by
  simp only [Field.liveNames, List.mem_filterMap, List.mem_filter,
    List.mem_cons]
  constructor
  · rintro ⟨f, ⟨rfl | hmem, hlive⟩, hname⟩
    · exact Or.inl ⟨hlive, hname⟩
    · exact Or.inr ⟨f, ⟨hmem, hlive⟩, hname⟩
  · rintro (⟨hlive, hname⟩ | ⟨f, ⟨hmem, hlive⟩, hname⟩)
    · exact ⟨field, ⟨Or.inl rfl, hlive⟩, hname⟩
    · exact ⟨f, ⟨Or.inr hmem, hlive⟩, hname⟩

theorem mem_liveNames_of_place {fields : List Field} {e : Place × Occurrence}
    (he : e ∈ Schema.fieldOccurrences fields) {name : String} {isLast : Bool}
    (hplace : e.1 = .property name isLast) : name ∈ Field.liveNames fields := by
  induction fields with
  | nil => cases he
  | cons field rest ih =>
      rw [mem_liveNames_cons]
      by_cases hlive : field.isLive = true
      · cases field with
        | pair key type optional deprecated description attributes =>
            cases key with
            | name key =>
                rw [Schema.fieldOccurrences, if_pos hlive, List.mem_append,
                  List.mem_map] at he
                rcases he with ⟨o, -, rfl⟩ | he
                · cases hplace
                  exact Or.inl ⟨hlive, rfl⟩
                · exact Or.inr (ih he)
            | type key =>
                rw [Schema.fieldOccurrences, if_pos hlive, List.mem_append,
                  List.mem_append, List.mem_map, List.mem_map] at he
                rcases he with (⟨o, -, rfl⟩ | ⟨o, -, rfl⟩) | he
                · cases hplace
                · cases hplace
                · exact Or.inr (ih he)
        | spread type attributes =>
            rw [Schema.fieldOccurrences, if_pos hlive, List.mem_append,
              List.mem_map] at he
            rcases he with ⟨o, -, rfl⟩ | he
            · cases hplace
            · exact Or.inr (ih he)
      · rw [fieldOccurrences_gone (Bool.eq_false_iff.mpr hlive)] at he
        exact Or.inr (ih he)

/-- The discriminator is free in a part of the struct, or in its selected
property, exactly when an occurrence in the fields leaves it free there. -/
structure FieldsFree (env : Environment) (generics : List String)
    (fields : List Field) (parts : List Part) : Prop where
  anywhere : (∃ p ∈ parts, "S" ∈ p.namesWith true) ↔
    ∃ e ∈ Schema.fieldOccurrences fields, e.2.LeavesFree env generics
  selected : ∀ {name : String} {values : TypeExpr} {ps : List Property},
    selectProperty name (Part.properties parts) = some (values, ps) →
      ("S" ∈ values.freeNames ↔ ∃ e ∈ Schema.fieldOccurrences fields,
        e.1 = .property name true ∧ e.2.LeavesFree env generics)

theorem exists_placed_append {place : Place} {os : List Occurrence}
    {placed : List (Place × Occurrence)} {P : Place × Occurrence → Prop} :
    (∃ e ∈ (os.map fun o => (place, o)) ++ placed, P e) ↔
      (∃ o ∈ os, P (place, o)) ∨ ∃ e ∈ placed, P e := by
  simp only [List.mem_append, or_and_right, exists_or, List.mem_map,
    exists_exists_and_eq_and]

theorem CompilesFields.selectProperty_none_iff
    {fields : List Field} {parts : List Part}
    (hfields : CompilesFields env scope fields parts) {name : String} :
    selectProperty name (Part.properties parts) = none ↔
      name ∉ Field.liveNames fields := by
  rw [← hfields.names_eq, selectProperty_eq_none_iff]
  simp

namespace FieldsFree

variable {generics : List String} {fields rest : List Field} {parts : List Part}

theorem nil : FieldsFree env generics [] [] where
  anywhere := by simp [Schema.fieldOccurrences]
  selected h := by cases h

theorem gone {field : Field} (hgone : field.isLive = false)
    (hrest : FieldsFree env generics rest parts) :
    FieldsFree env generics (field :: rest) parts where
  anywhere := by
    rw [fieldOccurrences_gone hgone]
    exact hrest.anywhere
  selected h := by
    rw [fieldOccurrences_gone hgone]
    exact hrest.selected h

/-- A fixed key holds its property unless a later field has the same name. -/
theorem own {name : String} {type : Schema}
    {optional deprecated : Bool} {description : Json}
    {attributes : List Attribute} {docs : List String} {value : Compiled}
    (hlive : (Field.pair (.name name) type optional
      deprecated description attributes).isLive = true)
    (hvalue : FreeBy env generics type.occurrences value.expr)
    (hfields : CompilesFields env scope rest parts)
    (hrest : FieldsFree env generics rest parts) :
    FieldsFree env generics
      (.pair (.name name) type optional deprecated description attributes ::
        rest) (.own name optional docs value :: parts) where
  anywhere := by
    rw [Schema.fieldOccurrences, if_pos hlive, exists_placed_append,
      List.exists_mem_cons_iff, hrest.anywhere]
    exact or_congr_left hvalue
  selected := by
    intro wanted values ps h
    rw [Schema.fieldOccurrences, if_pos hlive, exists_placed_append]
    change selectProperty wanted (.mk name value.expr optional docs ::
      Part.properties parts) = _ at h
    rw [selectProperty] at h
    split at h
    · rename_i hselect
      cases h
      have hmem : wanted ∈ Field.liveNames rest := by
        by_contra hmem
        rw [hfields.selectProperty_none_iff.mpr hmem] at hselect
        cases hselect
      rw [hrest.selected hselect, or_iff_right]
      rintro ⟨o, -, hplace, -⟩
      simp only [Place.property.injEq, Bool.not_eq_true', List.contains_eq_mem,
        decide_eq_false_iff_not] at hplace
      exact hplace.2 (hplace.1 ▸ hmem)
    · rename_i hselect
      have hmem := hfields.selectProperty_none_iff.mp hselect
      split at h
      · rename_i hname
        cases h
        have hname : name = wanted := by simpa [Property.name] using hname
        subst hname
        rw [or_iff_left]
        · simpa [FreeBy, hmem, Property.type] using hvalue
        · rintro ⟨e, he, hplace, -⟩
          exact hmem (mem_liveNames_of_place he hplace)
      · cases h

theorem mapped {key type : Schema} {optional deprecated : Bool}
    {description : Json} {attributes : List Attribute} {keys : TypeExpr}
    {keyImports : Option ImportPaths} {value : Compiled}
    (hlive : (Field.pair (.type key) type optional
      deprecated description attributes).isLive = true)
    (hkey : FreeBy env generics key.occurrences keys)
    (hvalue : FreeBy env generics type.occurrences value.expr)
    (hrest : FieldsFree env generics rest parts) :
    FieldsFree env generics
      (.pair (.type key) type optional deprecated description attributes ::
        rest) (.mapped keys keyImports value :: parts) where
  anywhere := by
    rw [Schema.fieldOccurrences, if_pos hlive, List.append_assoc,
      exists_placed_append, exists_placed_append, List.exists_mem_cons_iff,
      hrest.anywhere, ← or_assoc]
    refine or_congr_left ?_
    rw [Part.namesWith, List.mem_append, TypeExpr.mem_outsideKey, hkey.iff,
      hvalue.iff]
    simp
  selected h := by
    rw [Schema.fieldOccurrences, if_pos hlive, List.append_assoc,
      exists_placed_append, exists_placed_append, hrest.selected h]
    simp

theorem spread {type : Schema} {attributes : List Attribute} {value : Compiled}
    (hlive : (Field.spread type attributes).isLive = true)
    (hvalue : FreeBy env generics type.occurrences value.expr)
    (hrest : FieldsFree env generics rest parts) :
    FieldsFree env generics (.spread type attributes :: rest)
      (.spread value :: parts) where
  anywhere := by
    rw [Schema.fieldOccurrences, if_pos hlive, exists_placed_append,
      List.exists_mem_cons_iff, hrest.anywhere]
    exact or_congr_left hvalue
  selected h := by
    rw [Schema.fieldOccurrences, if_pos hlive, exists_placed_append,
      hrest.selected h]
    simp

end FieldsFree

theorem freeBy_composeStruct {fields : List Field} {parts : List Part}
    {generics : List String} (hfields : CompilesFields env scope fields parts)
    (hfree : FieldsFree env generics fields parts)
    (hc : composeStruct scope parts = .ok c) :
    FreeBy env generics
      (structOccurrences (Field.liveNames fields)
        (Schema.fieldOccurrences fields)) c.expr := by
  have hframes :
    ∀ {selector?}, (∃ o ∈ (Schema.fieldOccurrences fields).map fun e =>
      e.2.within (.struct (Field.liveNames fields) selector? e.1),
        o.LeavesFree env generics) ↔
      ∃ e ∈ Schema.fieldOccurrences fields, e.2.LeavesFree env generics ∧
        (Frame.struct (Field.liveNames fields) selector? e.1).binds =
          false := by
    simp [Occurrence.leavesFree_within]
  obtain ⟨hbody, -⟩ := hfields.selector_eq hc
  rw [FreeBy, hbody, structOccurrences, hframes]
  cases hselector : selectorOf (Field.liveNames fields)
    (Schema.fieldOccurrences fields) with
  | none =>
      rw [mem_namesWith_structBody_none, hfree.anywhere]
      simp [Frame.binds]
  | some name =>
      have hmem : name ∈ (Part.properties parts).map (·.name) := by
        rw [hfields.names_eq]
        exact List.contains_iff_mem.mp (List.find?_some hselector)
      cases hselect : selectProperty name (Part.properties parts) with
      | none =>
          obtain ⟨q, hq, hname⟩ := List.mem_map.mp hmem
          exact absurd hname (selectProperty_eq_none_iff.mp hselect q hq)
      | some found =>
          rw [discriminator_mem_freeNames_structBody hselect,
            hfree.selected hselect]
          refine exists_congr fun e => and_congr_right fun _ => ?_
          rw [and_comm]
          simp [Frame.binds]

end Steps

section Run

variable {env : Environment}

/-- Away from the root, neither the occurrences nor the type
parameters differ. -/
theorem FreeBy.inside {scope : Scope} {type : Schema} {c : Compiled}
    (h : FreeBy env (scope.generics ++ type.headParams)
      (type.occurrencesAt scope.isRoot) c.expr)
    (htype : Compiles env scope type c) (hroot : scope.isRoot = false) :
    FreeBy env scope.generics type.occurrences c.expr := by
  rw [htype.headParams_eq_nil hroot, List.append_nil, hroot] at h
  exact h

/-- Where no template and no index is at the head, they do not differ at
the root either. -/
theorem FreeBy.atHead {generics : List String} {isRoot : Bool} {type : Schema}
    {t : TypeExpr} (h : FreeBy env generics type.occurrences t)
    (hhead : type.rootOccurrences = type.occurrences)
    (hparams : type.headParams = []) :
    FreeBy env (generics ++ type.headParams) (type.occurrencesAt isRoot) t := by
  rw [occurrencesAt_eq hhead, hparams, List.append_nil]
  exact h

mutual

theorem Compiles.freeBy : ∀ {scope : Scope} {type : Schema} {c : Compiled},
    Compiles env scope type c → scope.args = [] →
      FreeBy env (scope.generics ++ type.headParams)
        (type.occurrencesAt scope.isRoot) c.expr
  | _, _, _, .leaf hleaf hplan hc, _ => by
      rw [Schema.occurrencesAt, occurrences_eq_nil hleaf,
        rootOccurrences_eq_nil hleaf, ite_self]
      exact (Compiles.isClosed_of_isLeaf hleaf hplan hc).sourced.freeBy
  | _, _, _, .reference hc, hargs => by
      refine FreeBy.atHead ?_ rfl rfl
      rw [FreeBy, discriminator_mem_compileReference hc, hargs,
        Schema.occurrences]
      simp [Occurrence.leavesFree_bare]
  | _, _, _, .concrete hall hc, _ => by
      have hall := CompilesAll.freeBy hall rfl rfl
      refine FreeBy.atHead ?_ rfl rfl
      refine (discriminator_mem_compileReference hc).trans ?_
      rw [Schema.occurrences, Schema.occurrences, List.singleton_append,
        List.exists_mem_cons_iff, Occurrence.leavesFree_bare]
      refine or_congr Iff.rfl (Iff.trans ?_ hall)
      simp
  | _, _, _, .template hroot _ hparams hbody, _ => by
      have hinner := Compiles.freeBy hbody rfl
      rw [List.append_assoc, ← filterMap_text?_of_mapM hparams] at hinner
      rw [hroot] at hinner ⊢
      exact hinner
  | _, _, _, .list hitem hc, _ => by
      have hinner := (Compiles.freeBy hitem rfl).inside hitem rfl
      refine FreeBy.atHead ?_ rfl rfl
      rw [FreeBy, discriminator_mem_compileList hc, hinner.iff,
        Schema.occurrences]
      simp [Occurrence.leavesFree_within, Frame.binds, Scope.nested]
  | _, _, _, .union hmembers, _ => by
      have hall := CompilesAll.freeBy hmembers rfl rfl
      rw [← occurrencesLive_eq] at hall
      refine FreeBy.atHead ?_ rfl rfl
      rw [FreeBy, discriminator_mem_compileUnion, hall, Schema.occurrences]
      rfl
  | _, _, _, .tuple hitems, _ => by
      have hall := CompilesAll.freeBy hitems rfl rfl
      rw [← occurrencesLive_eq] at hall
      refine FreeBy.atHead ?_ rfl rfl
      rw [FreeBy, discriminator_mem_compileTuple, hall, Schema.occurrences]
      rfl
  | _, _, _, .struct hfields hc, _ =>
      FreeBy.atHead (freeBy_composeStruct hfields
        (CompilesFields.freeBy hfields) hc) rfl rfl
  | _, _, _, .dispatcher hindex hc, hargs =>
      freeBy_compileDispatcher hargs hindex hc
  | _, _, _, .indexed hindex _ hc, hargs =>
      freeBy_compileDispatcher hargs hindex hc

theorem CompilesAll.freeBy :
    ∀ {scope : Scope} {types : List Schema} {cs : List Compiled},
      CompilesAll env scope types cs → scope.isRoot = false → scope.args = [] →
        ((∃ c ∈ cs, "S" ∈ c.expr.freeNames) ↔
          ∃ o ∈ Schema.occurrencesAll types, o.LeavesFree env scope.generics)
  | _, _, _, .nil, _, _ => by simp [Schema.occurrencesAll]
  | _, _, _, .cons htype hrest, hroot, hargs => by
      have hhead := (Compiles.freeBy htype hargs).inside htype hroot
      have hrest := CompilesAll.freeBy hrest hroot hargs
      rw [List.exists_mem_cons_iff, hhead.iff, hrest, Schema.occurrencesAll]
      simp only [List.mem_append, or_and_right, exists_or]

theorem CompilesFields.freeBy :
    ∀ {scope : Scope} {fields : List Field} {parts : List Part},
      CompilesFields env scope fields parts →
        FieldsFree env scope.generics fields parts
  | _, _, _, .nil => .nil
  | _, _, _, .gone hgone hrest => .gone hgone (CompilesFields.freeBy hrest)
  | _, _, _, .own hlive hvalue _ hrest =>
      .own hlive ((Compiles.freeBy hvalue rfl).inside hvalue rfl) hrest
        (CompilesFields.freeBy hrest)
  | _, _, _, .mapped hlive hkey hvalue hrest =>
      .mapped hlive (CompilesKey.freeBy hkey)
        ((Compiles.freeBy hvalue rfl).inside hvalue rfl)
        (CompilesFields.freeBy hrest)
  | _, _, _, .spread hlive hvalue hrest =>
      .spread hlive ((Compiles.freeBy hvalue rfl).inside hvalue rfl)
        (CompilesFields.freeBy hrest)

theorem CompilesKey.freeBy :
    ∀ {scope : Scope} {type : Schema} {keys : TypeExpr}
      {imports : Option ImportPaths}, CompilesKey env scope type keys imports →
      FreeBy env scope.generics type.occurrences keys
  | _, _, _, _, .string hplan hc =>
      (sourced_compileKey_ofString hplan hc).freeBy
  | _, _, _, _, .computed htype => (Compiles.freeBy htype rfl).inside htype rfl

end

end Run

end Typings
