import Typings.Proofs.Counting
import Typings.Proofs.DeclaredNames
import Typings.Proofs.Reordering

/-!
References lead somewhere. A struct that its parent declares inline is left out
of its module unless something refers to it. What is referred to is collected
from all symbols and members before any of them is compiled, and a compiled
reference ends at one of these paths, or at one that a symbol it leads to refers
to. So no reference is left without its declaration.
-/

namespace Typings

theorem exists_link_of_mem_within {os : List Occurrence} {frame : Frame}
    {o : Occurrence}
    (h : o ∈ os.map (·.within frame)) : ∃ o' ∈ os, o'.link = o.link := by
  obtain ⟨o', ho', rfl⟩ := List.mem_map.mp h
  exact ⟨o', ho', rfl⟩

theorem exists_link_of_mem_struct {names : List String}
    {placed : List (Place × Occurrence)} {o : Occurrence}
    (h : o ∈ structOccurrences names placed) :
    ∃ e ∈ placed, e.2.link = o.link := by
  obtain ⟨e, he, rfl⟩ := List.mem_map.mp h
  exact ⟨e, he, rfl⟩

namespace Schema

variable {path : String}

mutual

/-- Whatever is referred to in a type is among its references,
wherever it stands. -/
theorem mem_references :
    ∀ (type : Schema) {o : Occurrence}, o ∈ type.occurrences →
    o.link = .reference (.str path) → .str path ∈ type.references
  | .list item length attributes, o, ho, hlink => by
      obtain ⟨o', ho', heq⟩ := exists_link_of_mem_within ho
      exact mem_references item ho' (heq.trans hlink)
  | .tuple items attributes, o, ho, hlink =>
      mem_allReferences_live items ho hlink
  | .union members attributes, o, ho, hlink =>
      mem_allReferences_live members ho hlink
  | .struct fields attributes, o, ho, hlink => by
      obtain ⟨e, he, heq⟩ := exists_link_of_mem_struct ho
      exact mem_fieldReferences fields he (heq.trans hlink)
  | .reference target attributes, o, ho, hlink => by
      obtain rfl := List.mem_singleton.mp ho
      cases hlink
      exact List.mem_cons_self
  | .concrete child args attributes, o, ho, hlink => by
      rw [references, List.mem_append]
      rcases List.mem_append.mp ho with ho | ho
      · exact Or.inl (mem_references child ho hlink)
      · exact Or.inr (mem_allReferences args ho hlink)
  | .template child params attributes, o, ho, hlink =>
      mem_references child ho hlink
  | .dispatcher registry indices attributes, o, ho, hlink => by
      obtain rfl := List.mem_singleton.mp ho
      cases hlink
  | .indexed child indices attributes, o, ho, hlink =>
      mem_references child ho hlink

theorem mem_allReferences :
    ∀ (types : List Schema) {o : Occurrence}, o ∈ occurrencesAll types →
    o.link = .reference (.str path) → .str path ∈ allReferences types
  | type :: rest, o, ho, hlink => by
      rw [allReferences, List.mem_append]
      rcases List.mem_append.mp ho with ho | ho
      · exact Or.inl (mem_references type ho hlink)
      · exact Or.inr (mem_allReferences rest ho hlink)

theorem mem_allReferences_live :
    ∀ (types : List Schema) {o : Occurrence}, o ∈ occurrencesLive types →
    o.link = .reference (.str path) → .str path ∈ allReferences types
  | type :: rest, o, ho, hlink => by
      rw [allReferences, List.mem_append]
      rw [occurrencesLive] at ho
      split at ho
      · rcases List.mem_append.mp ho with ho | ho
        · exact Or.inl (mem_references type ho hlink)
        · exact Or.inr (mem_allReferences_live rest ho hlink)
      · exact Or.inr (mem_allReferences_live rest ho hlink)

theorem mem_fieldReferences : ∀ (fields : List Field) {e : Place × Occurrence},
    e ∈ fieldOccurrences fields → e.2.link = .reference (.str path) →
      .str path ∈ fieldReferences fields
  | .pair (.name name) type optional deprecated description attributes :: rest,
      e, he, hlink => by
      rw [fieldReferences, List.mem_append]
      rw [fieldOccurrences] at he
      split at he
      · rcases List.mem_append.mp he with he | he
        · obtain ⟨o, ho, rfl⟩ := List.mem_map.mp he
          exact Or.inl (mem_references type ho hlink)
        · exact Or.inr (mem_fieldReferences rest he hlink)
      · exact Or.inr (mem_fieldReferences rest he hlink)
  | .pair (.type key) type optional deprecated description attributes :: rest,
      e, he, hlink => by
      rw [fieldReferences, List.mem_append, List.mem_append]
      rw [fieldOccurrences] at he
      split at he
      · rw [List.mem_append, List.mem_append, List.mem_map, List.mem_map] at he
        rcases he with (⟨o, ho, rfl⟩ | ⟨o, ho, rfl⟩) | he
        · exact Or.inl (Or.inl (mem_references key ho hlink))
        · exact Or.inl (Or.inr (mem_references type ho hlink))
        · exact Or.inr (mem_fieldReferences rest he hlink)
      · exact Or.inr (mem_fieldReferences rest he hlink)
  | .spread type attributes :: rest, e, he, hlink => by
      rw [fieldReferences, List.mem_append]
      rw [fieldOccurrences] at he
      split at he
      · rcases List.mem_append.mp he with he | he
        · obtain ⟨o, ho, rfl⟩ := List.mem_map.mp he
          exact Or.inl (mem_references type ho hlink)
        · exact Or.inr (mem_fieldReferences rest he hlink)
      · exact Or.inr (mem_fieldReferences rest he hlink)

end

/-- The references of every type are collected. -/
theorem any_isText_of_targets {types : List Schema} {paths : List Json}
    (h : targets types = .ok paths) {type : Schema} (htype : type ∈ types)
    (hpath : .str path ∈ type.references) :
    paths.any (·.isText path) = true := by
  rw [targets_eq] at h
  obtain ⟨⟨⟩, -, h⟩ := bind_eq_ok_iff.mp h
  obtain rfl := pure_eq_ok_iff.mp h
  rw [Json.any_isText_distinct, allReferences_eq, List.any_eq_true]
  exact ⟨.str path,
    List.mem_flatMap.mpr ⟨type, htype, hpath⟩, by simp [Json.isText]⟩

end Schema

theorem pathText_eq_ok {value : Json} {path : String}
    (h : pathText value = .ok path) : value = .str path := by
  cases value <;> cases h
  rfl

/-- A reference ends where it points, or one hop further, where the
symbol there points. -/
theorem Environment.target_eq_ok {env : Environment}
    {generics : List String} {value : Json} {target : String}
    (h : env.target generics value = .ok target) :
    value = .str target ∨ ∃ path symbol, env.symbols.get? path = some symbol ∧
      .str target ∈ symbol.type.references := by
  obtain ⟨path, hpath, hend⟩ := bind_eq_ok_iff.mp h
  obtain rfl := pathText_eq_ok hpath
  split at hend
  · exact Or.inl (by rw [pure_eq_ok_iff.mp hend])
  · have hfollow := pathText_eq_ok hend
    rw [Environment.follow] at hfollow
    split at hfollow
    · rename_i next since hsymbol
      split at hfollow
      · exact Or.inl hfollow
      · refine Or.inr ⟨path, _, hsymbol, ?_⟩
        rw [hfollow]
        exact List.mem_cons_self
    · exact Or.inl hfollow

theorem ImportsNormal.foldl_join {lists : List (Option ImportPaths)}
    {imports : Option ImportPaths} (h : ImportsNormal imports) {path : String}
    (hpath : path ∈ importedPaths imports ∨ ∃ l ∈ lists,
      path ∈ importedPaths l) :
    path ∈ importedPaths (lists.foldl joinImports imports) := by
  induction lists generalizing imports with
  | nil => simpa using hpath
  | cons l rest ih =>
      obtain ⟨hnormal, hmem⟩ := h.join l
      refine ih hnormal ?_
      rw [List.exists_mem_cons_iff] at hpath
      rw [hmem, or_assoc]
      exact hpath

/-- Whatever is referred to has an end, and that is imported unless it is
a type parameter. -/
def Provides (env : Environment) (generics : List String)
    (imports : Option ImportPaths) (link : Link) : Prop :=
  ∀ path, link = .reference path →
    ∃ target, env.target generics path = .ok target ∧
    (target ∉ generics → target ∈ importedPaths imports)

theorem Provides.mono {env : Environment}
    {generics : List String} {imports imports' : Option ImportPaths}
    {link : Link} (h : Provides env generics imports link)
    (himports : ∀ path ∈ importedPaths imports, path ∈ importedPaths imports') :
    Provides env generics imports' link := by
  intro path hlink
  obtain ⟨target, htarget, himported⟩ := h path hlink
  exact ⟨target, htarget, fun hout => himports target (himported hout)⟩

section Steps

variable {env : Environment} {scope : Scope} {c : Compiled}
  {generics : List String} {link : Link}

theorem provides_compileReference {path : Json}
    (h : compileReference env scope path = .ok c) :
    Provides env scope.generics c.imports (.reference path) := by
  obtain ⟨target, htarget, rfl⟩ := compileReference_eq_ok h
  rintro _ ⟨⟩
  refine ⟨target, htarget, fun hout => ?_⟩
  have hcontains : ¬ scope.generics.contains target = true :=
    fun h => hout (List.contains_iff_mem.mp h)
  rw [Compiled.ofExpr, if_neg hcontains]
  exact ImportPaths.mem_ofList.mpr List.mem_cons_self

theorem Provides.compileList {item : Compiled} {length : Option Range}
    (h : compileList scope item length = .ok c)
    (hitem : Provides env generics item.imports link) :
    Provides env generics c.imports link := by
  obtain ⟨-, -, ⟨-, himports⟩ | ⟨-, -, -, -, -, himports⟩⟩ :=
    compileList_eq_ok h
  · rwa [himports]
  · rw [himports]
    exact hitem.mono fun path hpath =>
      ((importsNormal_ofList.join item.imports).2 path).mpr (Or.inr hpath)

theorem Provides.allImports {cs : List Compiled}
    (h : ∃ c ∈ cs, Provides env generics c.imports link) :
    Provides env generics (Compiled.allImports cs) link := by
  obtain ⟨c, hc, h⟩ := h
  refine h.mono fun path hpath => ?_
  rw [Compiled.allImports, ← List.foldl_map]
  exact importsNormal_none.foldl_join
    (Or.inr ⟨c.imports, List.mem_map_of_mem hc, hpath⟩)

theorem Provides.compileUnion {cs : List Compiled}
    (h : ∃ c ∈ cs, Provides env generics c.imports link) :
    Provides env generics (compileUnion cs).imports link := by
  rw [compileUnion.eq_def]
  split
  · obtain ⟨c, hc, -⟩ := h
    cases hc
  · obtain ⟨c, hc, h⟩ := h
    rwa [List.mem_singleton.mp hc] at h
  · exact .allImports h

theorem Provides.composeStruct {parts : List Part}
    (hc : composeStruct scope parts = .ok c)
    (h : ∃ p ∈ parts, Provides env generics p.keyImports link ∨
      Provides env generics p.value.imports link) :
    Provides env generics c.imports link := by
  obtain ⟨-, himports, -, -⟩ := composeStruct_eq_ok hc
  obtain ⟨p, hp, h⟩ := h
  have hlists : Part.allImports parts =
      (parts.flatMap fun p => [p.keyImports, p.value.imports]).foldl joinImports
        none := by
    rw [List.foldl_flatMap]
    rfl
  have hkept : ∀ imports ∈ [p.keyImports, p.value.imports],
      ∀ path ∈ importedPaths imports,
      path ∈ importedPaths (Part.allImports parts) := by
    intro imports himports path hpath
    rw [hlists]
    exact importsNormal_none.foldl_join
      (Or.inr ⟨imports, List.mem_flatMap.mpr ⟨p, hp, himports⟩, hpath⟩)
  rw [himports]
  rcases h with h | h
  · exact h.mono (hkept _ List.mem_cons_self)
  · exact h.mono (hkept _ (List.mem_cons_of_mem _ List.mem_cons_self))

end Steps

section Every

variable {env : Environment}

/-- Away from the root no type parameters are added. -/
theorem Provides.inside {scope : Scope}
    {type : Schema} {c : Compiled} {generics : List String}
    (h : ∀ o ∈ type.occurrences,
      Provides env (generics ++ type.headParams) c.imports o.link)
    (htype : Compiles env scope type c) (hroot : scope.isRoot = false) :
    ∀ o ∈ type.occurrences, Provides env generics c.imports o.link := by
  rwa [htype.headParams_eq_nil hroot, List.append_nil] at h

theorem Provides.headless {type : Schema}
    {imports : Option ImportPaths} {generics : List String}
    (h : ∀ o ∈ type.occurrences, Provides env generics imports o.link)
    (hparams : type.headParams = []) :
    ∀ o ∈ type.occurrences,
      Provides env (generics ++ type.headParams) imports o.link := by
  rwa [hparams, List.append_nil]

mutual

/-- A compiled type provides for the references in it, and those are the
references compiled. -/
theorem Compiles.provides (hpre : env.Precomputed) :
    ∀ {scope : Scope} {type : Schema} {c : Compiled},
    Compiles env scope type c → scope.args = [] →
      ∀ o ∈ type.occurrences,
        Provides env (scope.generics ++ type.headParams) c.imports o.link
  | _, _, _, .leaf hleaf _ _, _ => by
      rw [occurrences_eq_nil hleaf]
      simp
  | _, _, _, .reference hc, _ =>
      Provides.headless
        (List.forall_mem_singleton.mpr (provides_compileReference hc)) rfl
  | _, _, _, .concrete hargs hc, _ => by
      have hall := CompilesAll.backed hpre hargs rfl rfl
      have hjoin := (Backed.allImports hall).normal.join
      refine Provides.headless
        (List.forall_mem_cons.mpr ⟨?_, fun o ho => ?_⟩) rfl
      · exact (provides_compileReference hc).mono fun path hpath =>
          ((hjoin _).2 path).mpr (Or.inr hpath)
      · have hargument :=
          Provides.allImports (CompilesAll.provides hpre hargs rfl rfl o ho)
        exact hargument.mono fun path hpath =>
          ((hjoin _).2 path).mpr (Or.inl hpath)
  | _, _, _, .template _ _ hparams hbody, _ => by
      have hinner := Compiles.provides hpre hbody rfl
      rw [List.append_assoc, ← filterMap_text?_of_mapM hparams] at hinner
      exact hinner
  | _, _, _, .list hitem hc, _ => by
      have hinner :=
        Provides.inside (Compiles.provides hpre hitem rfl) hitem rfl
      refine Provides.headless (List.forall_mem_map.mpr fun o ho => ?_) rfl
      exact (hinner o ho).compileList hc
  | _, _, _, .union hmembers, _ => by
      refine Provides.headless (fun o ho => ?_) rfl
      rw [Schema.occurrences, occurrencesLive_eq] at ho
      exact .compileUnion (CompilesAll.provides hpre hmembers rfl rfl o ho)
  | _, _, _, .tuple hitems, _ => by
      refine Provides.headless (fun o ho => ?_) rfl
      rw [Schema.occurrences, occurrencesLive_eq] at ho
      exact .allImports (CompilesAll.provides hpre hitems rfl rfl o ho)
  | _, _, _, .struct hfields hc, _ => by
      refine Provides.headless (List.forall_mem_map.mpr fun e he => ?_) rfl
      exact .composeStruct hc (CompilesFields.provides hpre hfields e he)
  | _, _, _, .dispatcher _ _, _ =>
      List.forall_mem_singleton.mpr fun path hlink => nomatch hlink
  | _, _, _, .indexed _ _ _, _ =>
      List.forall_mem_singleton.mpr fun path hlink => nomatch hlink

theorem CompilesAll.provides (hpre : env.Precomputed) :
    ∀ {scope : Scope} {types : List Schema} {cs : List Compiled},
      CompilesAll env scope types cs →
      scope.isRoot = false → scope.args = [] →
        ∀ o ∈ Schema.occurrencesAll types, ∃ c ∈ cs,
          Provides env scope.generics c.imports o.link
  | _, _, _, .nil, _, _ => by simp [Schema.occurrencesAll]
  | _, _, _, .cons htype hrest, hroot, hargs => by
      have hhead :=
        Provides.inside (Compiles.provides hpre htype hargs) htype hroot
      have htail := CompilesAll.provides hpre hrest hroot hargs
      rw [Schema.occurrencesAll, List.forall_mem_append]
      refine ⟨fun o ho => ⟨_, List.mem_cons_self, hhead o ho⟩, fun o ho => ?_⟩
      obtain ⟨c, hc, h⟩ := htail o ho
      exact ⟨c, List.mem_cons_of_mem _ hc, h⟩

theorem CompilesFields.provides (hpre : env.Precomputed) :
    ∀ {scope : Scope} {fields : List Field} {parts : List Part},
      CompilesFields env scope fields parts →
      ∀ e ∈ Schema.fieldOccurrences fields, ∃ p ∈ parts,
        Provides env scope.generics p.keyImports e.2.link ∨
          Provides env scope.generics p.value.imports e.2.link
  | _, _, _, .nil => by simp [Schema.fieldOccurrences]
  | _, _, _, .gone hgone hrest => by
      rw [fieldOccurrences_gone hgone]
      exact CompilesFields.provides hpre hrest
  | _, _, _, .own hlive hvalue _ hrest => by
      have hhead :=
        Provides.inside (Compiles.provides hpre hvalue rfl) hvalue rfl
      rw [Schema.fieldOccurrences, if_pos hlive, List.forall_mem_append,
        List.forall_mem_map]
      refine ⟨fun o ho => ⟨_, List.mem_cons_self, Or.inr (hhead o ho)⟩,
        fun e he => ?_⟩
      obtain ⟨p, hp, h⟩ := CompilesFields.provides hpre hrest e he
      exact ⟨p, List.mem_cons_of_mem _ hp, h⟩
  | _, _, _, .mapped hlive hkey hvalue hrest => by
      have hhead :=
        Provides.inside (Compiles.provides hpre hvalue rfl) hvalue rfl
      rw [Schema.fieldOccurrences, if_pos hlive, List.forall_mem_append,
        List.forall_mem_append, List.forall_mem_map, List.forall_mem_map]
      refine ⟨⟨fun o ho => ⟨_, List.mem_cons_self,
          Or.inl (CompilesKey.provides hpre hkey o ho)⟩,
        fun o ho => ⟨_, List.mem_cons_self, Or.inr (hhead o ho)⟩⟩,
        fun e he => ?_⟩
      obtain ⟨p, hp, h⟩ := CompilesFields.provides hpre hrest e he
      exact ⟨p, List.mem_cons_of_mem _ hp, h⟩
  | _, _, _, .spread hlive hvalue hrest => by
      have hhead :=
        Provides.inside (Compiles.provides hpre hvalue rfl) hvalue rfl
      rw [Schema.fieldOccurrences, if_pos hlive, List.forall_mem_append,
        List.forall_mem_map]
      refine ⟨fun o ho => ⟨_, List.mem_cons_self, Or.inr (hhead o ho)⟩,
        fun e he => ?_⟩
      obtain ⟨p, hp, h⟩ := CompilesFields.provides hpre hrest e he
      exact ⟨p, List.mem_cons_of_mem _ hp, h⟩

theorem CompilesKey.provides (hpre : env.Precomputed) :
    ∀ {scope : Scope} {type : Schema} {keys : TypeExpr}
      {imports : Option ImportPaths}, CompilesKey env scope type keys imports →
        ∀ o ∈ type.occurrences, Provides env scope.generics imports o.link
  | _, _, _, _, .string _ _ => by simp [Schema.occurrences]
  | _, _, _, _, .computed htype => by
      have hinner := Compiles.provides hpre htype rfl
      exact Provides.inside hinner htype rfl

end

end Every

namespace Run

/-- The types that a run compiles, each with its scope: the symbols that are
declared as what they compile to, and all members of dispatchers. -/
inductive IsBody (g : Run) (referenced : List Json) :
    Scope → Schema → Prop where
  | symbol {s : String × Symbol}
      {source name : String} (hs : s ∈ g.books.env.symbols.entries)
      (hsplit : splitPath s.1 = .ok (source, name))
      (hinto : compilesInto g.books.env referenced source s = true) :
      IsBody g referenced (symbolScope source name) s.2.type
  | member {registry : String} {members : Table Schema}
      {info : DispatcherHead} {m : String × Schema}
      (hmembers : g.dispatchers.get? registry = some members)
      (hinfo : g.books.env.dispatchers.get? registry = some info)
      (hm : m ∈ members.entries) :
      IsBody g referenced
        { isRoot := true, name := some (memberName info m.1) } m.2

variable {g : Run} {r : Record} {referenced : List Json} {scope : Scope}
  {type : Schema}

theorem IsBody.args_eq_nil (h : g.IsBody referenced scope type) :
    scope.args = [] := by
  cases h <;> rfl

theorem IsBody.generics_eq_nil (h : g.IsBody referenced scope type) :
    scope.generics = [] := by
  cases h <;> rfl

theorem any_isText_of_symbol (h : g.targets = .ok referenced)
    {s : String × Symbol} (hs : s ∈ g.books.env.symbols.entries) {path : String}
    (hpath : .str path ∈ s.2.type.references) :
    referenced.any (·.isText path) = true := by
  refine Schema.any_isText_of_targets (liftMisuse_eq_ok_iff.mp h)
    (List.mem_append_left _ ?_) hpath
  exact List.mem_map_of_mem (List.mem_map_of_mem hs)

theorem any_isText_of_member (h : g.targets = .ok referenced)
    {registry : String} {members : Table Schema}
    (hmembers : g.dispatchers.get? registry = some members)
    {m : String × Schema} (hm : m ∈ members.entries)
    {path : String} (hpath : .str path ∈ m.2.references) :
    referenced.any (·.isText path) = true := by
  refine Schema.any_isText_of_targets (liftMisuse_eq_ok_iff.mp h)
    (List.mem_append_right _ ?_) hpath
  exact List.mem_flatMap.mpr ⟨members,
    List.mem_map_of_mem (Table.mem_of_get? hmembers), List.mem_map_of_mem hm⟩

section Describes

variable (hr : r.Describes g)

include hr

theorem Record.Describes.exists_result {s : String × Symbol}
    (hs : s ∈ g.books.env.symbols.entries) :
    ∃ result ∈ r.symbols,
      symbolResult (r.env g.books.env.symbols) r.referenced s.1 s.2 =
      .ok result :=
  exists_mem_of_mapM hr.symbols hs

theorem Record.Describes.exists_compiled_symbol
    {s : String × Symbol} (hs : s ∈ g.books.env.symbols.entries)
    {source name : String} (hsplit : splitPath s.1 = .ok (source, name))
    (hinto : compilesInto (r.env g.books.env.symbols) r.referenced source s =
      true) :
    ∃ c, (s.2.type.compile (r.env g.books.env.symbols)
      (symbolScope source name)).outcome = .ok c := by
  obtain ⟨result, -, hresult⟩ := hr.exists_result hs
  simp only [compilesInto, emits, Bool.and_eq_true, Bool.not_eq_true',
    Option.isNone_iff_eq_none] at hinto
  obtain ⟨⟨⟨hlive, -⟩, hkept⟩, hwritten⟩ := hinto
  rcases symbolResult_eq_ok hresult with ⟨hgone, -⟩ |
    ⟨-, source', name', hsplit', h⟩
  · rw [hlive] at hgone
    cases hgone
  · cases hsplit'.symm.trans hsplit
    rcases h with ⟨o, docs, ho, -⟩ | ⟨-, hcopy, -⟩ |
      ⟨-, -, c, declared, hc, -, -⟩
    · rw [hwritten] at ho
      cases ho
    · simp [hwritten, hcopy] at hkept
    · exact ⟨c, hc⟩

theorem Record.Describes.exists_compiled_member {registry : String}
    {members : Table Schema} {info : DispatcherHead} {m : String × Schema}
    (hmembers : g.dispatchers.get? registry = some members)
    (hinfo : (r.env g.books.env.symbols).dispatchers.get? registry = some info)
    (hm : m ∈ members.entries) :
    ∃ c, (m.2.compile (r.env g.books.env.symbols)
      { isRoot := true, name := some (memberName info m.1) }).outcome =
      .ok c := by
  obtain ⟨p, hp, rfl⟩ : ∃ p ∈ r.placements, p.registry = registry := by
    have hkey : registry ∈ g.dispatchers.keys :=
      List.mem_map_of_mem (Table.mem_of_get? hmembers)
    rw [← Table.mem_sortedKeys, ← (placeTables_eq_ok hr.placements).1] at hkey
    exact List.mem_map.mp hkey
  obtain ⟨earlier, later, hsplit⟩ := List.append_of_mem hp
  obtain ⟨-, hbuild, -⟩ := placeTable_eq_ok
    ((placeTables_eq_ok hr.placements).2 earlier p later hsplit)
  rw [hmembers, DispatcherSymbol.build, hinfo] at hbuild
  obtain ⟨compiled, hcompiled, -⟩ := bind_eq_ok_iff.mp hbuild
  obtain ⟨result, -, hresult⟩ := exists_mem_of_mapM hcompiled hm
  obtain ⟨c, hc, -⟩ := bind_eq_ok_iff.mp hresult
  exact ⟨c, hc⟩

/-- A run that ends well has compiled all of its types. -/
theorem Record.Describes.exists_compiled
    (h : (r.halfway g).IsBody r.referenced scope type) :
    ∃ c, (type.compile (r.halfway g).books.env scope).outcome = .ok c := by
  rw [Survey.env_halfway]
  cases h with
  | symbol hs hsplit hinto =>
      rw [Survey.env_halfway] at hs hinto
      exact hr.exists_compiled_symbol hs hsplit hinto
  | member hmembers hinfo hm =>
      rw [Survey.env_halfway] at hinfo
      exact hr.exists_compiled_member hmembers hinfo hm

/-- What is referred to in a type that a run compiles is collected, and so is
what that leads to. -/
theorem Record.Describes.any_isText_of_target
    (h : (r.halfway g).IsBody r.referenced scope type) {o : Occurrence}
    (ho : o ∈ type.occurrences) {path : Json} (hlink : o.link = .reference path)
    {generics : List String} {target : String}
    (htarget : (r.env g.books.env.symbols).target generics path = .ok target) :
    r.referenced.any (·.isText target) = true := by
  rcases Environment.target_eq_ok htarget with rfl |
    ⟨between, symbol, hsymbol, hnext⟩
  · have hmem := Schema.mem_references type ho hlink
    cases h with
    | symbol hs =>
        rw [Survey.env_halfway] at hs
        exact any_isText_of_symbol hr.referenced hs hmem
    | member hmembers _ hm =>
        exact any_isText_of_member hr.referenced hmembers hm hmem
  · exact any_isText_of_symbol hr.referenced (Table.mem_of_get? hsymbol) hnext

/-- A symbol that is referred to is declared, unless it has been removed. -/
theorem Record.Describes.exists_alias {modules : List OutputModule}
    (hmodules : r.modules = .ok modules) {path : String} {symbol : Symbol}
    (hsymbol : g.books.env.symbols.get? path = some symbol)
    (hlive : Attribute.isGone symbol.attributes = false)
    (hreferenced : r.referenced.any (·.isText path) = true) :
    ∃ m ∈ modules, moduleOf? path = some m.path ∧
      ∃ a ∈ m.aliases, a.name = lastSegment path := by
  obtain ⟨result, hresult, hcase⟩ :=
    hr.exists_result (Table.mem_of_get? hsymbol)
  rcases symbolResult_cases hcase with ⟨-, hout⟩ | ⟨c, hc, hmodule, -, halias⟩
  · -- Only a removed symbol and a copy that nothing refers to are left out.
    rcases symbolResult_eq_ok hcase with ⟨hgone, -⟩ |
      ⟨-, source, name, hsplit, -⟩
    · rw [hlive] at hgone
      cases hgone
    · have hcopy : isNestedCopy (r.env g.books.env.symbols) r.referenced source
          path symbol = false := by
        rw [isNestedCopy.eq_def]
        split
        · rw [hreferenced, Bool.not_true, Bool.and_false]
        · rfl
      have hemits := hout source
      simp [emits, hlive, moduleOf?_of_splitPath hsplit, hcopy] at hemits
  · have hmem : c ∈ r.history :=
      List.mem_append_left _
        (List.mem_append_right _ (List.mem_filterMap.mpr ⟨result, hresult, hc⟩))
    obtain ⟨m, hm, hpath⟩ := Record.exists_module hmodules hmem
    obtain ⟨a, hdeclared, hname⟩ := halias.declared
    refine ⟨m, hm, hpath ▸ hmodule, a, ?_, hname⟩
    refine List.mem_filterMap.mpr ⟨.typeAlias a, ?_, rfl⟩
    rw [(Record.finishes hmodules hm).declarations, ← hdeclared]
    exact List.mem_map_of_mem (List.mem_filter.mpr ⟨hmem, by simp [hpath]⟩)

end Describes

/-- References lead somewhere. A run that ends well has compiled every type in
it, and each reference there ends at a path that the compiled type imports,
unless it is a type parameter. If that is the path of a symbol, the module of
the symbol declares its name, unless the symbol has been removed. -/
theorem references_resolve {symbols : Symbols} {dispatchers : Dispatchers}
    {registries translationKeys blockProperties : Json} {g' : Run}
    {modules : List OutputModule}
    (hstart : start symbols dispatchers registries translationKeys
      blockProperties = .ok g)
    (hrun : runAll g = (.ok modules, g'))
    (hdispatchers : dispatchers.keys.Nodup) :
    ∃ (before after : Run) (referenced : List Json),
      (do declareRegistries; noteDispatchers : Step Unit) g = (.ok ⟨⟩, before) ∧
      compileSymbols before = (.ok ⟨⟩, after) ∧
      g.targets = .ok referenced ∧
      ∀ scope type, after.IsBody referenced scope type →
        ∃ c, (type.compile after.books.env scope).outcome = .ok c ∧
          ∀ o ∈ type.occurrences, ∀ path, o.link = .reference path →
            ∃ target, after.books.env.target type.headParams path = .ok target ∧
              (target ∉ type.headParams → target ∈ importedPaths c.imports ∧
                ∀ symbol, symbols.get? target = some symbol →
                  Attribute.isGone symbol.attributes = false →
                  ∃ m ∈ modules, moduleOf? target = some m.path ∧
                    ∃ a ∈ m.aliases, a.name = lastSegment target) := by
  obtain ⟨hfresh, rfl, rfl⟩ := isFresh_start hstart
  obtain ⟨r, hr, hmodules, -⟩ := (runAll_eq_ok_iff hfresh).mp hrun
  obtain ⟨hearly, hcompile⟩ := hr.toDescribes.phases hfresh
  refine ⟨r.surveyed g, r.halfway g, r.referenced, hearly, hcompile,
    hr.referenced, fun scope type hbody => ?_⟩
  obtain ⟨c, hc⟩ := hr.exists_compiled hbody
  refine ⟨c, hc, fun o ho path hlink => ?_⟩
  rw [Survey.env_halfway] at hc ⊢
  have hprovides := (Schema.compile_sound hc).provides
    (hr.toDescribes.precomputed hdispatchers _) hbody.args_eq_nil o ho
  rw [hbody.generics_eq_nil, List.nil_append] at hprovides
  obtain ⟨target, htarget, himported⟩ := hprovides path hlink
  refine ⟨target, htarget,
    fun hout => ⟨himported hout, fun symbol hsymbol hlive => ?_⟩⟩
  exact hr.exists_alias hmodules hsymbol hlive
    (hr.any_isText_of_target hbody ho hlink htarget)

/-- A struct, the copy of a struct inside it, and an alias in another module
that stands for the copy. -/
def hopSymbols : Symbols :=
  let struct : Schema :=
    .struct [.pair (.name "k") (.string none []) false false .null []] []
  ⟨[("::java::a::Thing", { type := struct }),
    ("::java::a::Thing::Inner", { type := struct }),
    ("::java::b::Alias",
      { type := .reference (.str "::java::a::Thing::Inner") [] })]⟩

/-- A list of what the alias stands for is a member of a dispatcher. -/
def hopDispatchers : Dispatchers :=
  ⟨[("minecraft:x",
    ⟨[("k", .list (.reference (.str "::java::b::Alias") []) none [])]⟩)]⟩

theorem describes_hopRun :
    (plainRecord hopSymbols hopDispatchers ["minecraft:x"]).Describes
    (plainRun hopSymbols hopDispatchers) := by
  have hkeys : hopDispatchers.sortedKeys = ["minecraft:x"] := by
    simp [hopDispatchers, Table.sortedKeys, Table.keys]
  exact describes_plainRun rfl hkeys (by decide +kernel) (by decide +kernel)
    (by decide +kernel) (by decide +kernel)

/-- The member imports the copy, which no more than the alias refers to, and the
copy is declared. -/
theorem references_resolve_hopRun :
    start hopSymbols hopDispatchers .null .null .null =
      .ok (plainRun hopSymbols hopDispatchers) ∧
      hopDispatchers.keys.Nodup ∧
      ∃ modules g',
        runAll (plainRun hopSymbols hopDispatchers) = (.ok modules, g') ∧
        ∃ m ∈ modules, m.path = "::java::a::Thing" ∧
        ∃ a ∈ m.aliases, a.name = "Inner" := by
  have hstart : start hopSymbols hopDispatchers .null .null .null =
      .ok (plainRun hopSymbols hopDispatchers) := rfl
  have hnodup : hopDispatchers.keys.Nodup := by decide
  have hcatalogue := describes_hopRun.dispatcherCatalogue_eq hnodup
  obtain ⟨modules, -, hrun⟩ :=
    describes_hopRun.exists_modules ⟨rfl, rfl, rfl, rfl, rfl⟩ (by
    rw [Record.history, Record.tablePart, catalogueOf, hcatalogue]
    decide +kernel)
  obtain ⟨hearly, hcompile⟩ :=
    describes_hopRun.toDescribes.phases ⟨rfl, rfl, rfl, rfl, rfl⟩
  obtain ⟨before, after, referenced, hearly', hcompile', -, hall⟩ :=
    references_resolve hstart hrun hnodup
  obtain rfl := (Prod.mk.inj (hearly.symm.trans hearly')).2
  obtain rfl := (Prod.mk.inj (hcompile.symm.trans hcompile')).2
  have hget : hopDispatchers.get? "minecraft:x" = some _ := rfl
  obtain ⟨c, hc, hreferences⟩ := hall _ _ (.member hget rfl List.mem_cons_self)
  obtain ⟨target, htarget, hresolves⟩ := hreferences _ List.mem_cons_self _ rfl
  obtain rfl : "::java::a::Thing::Inner" = target := Except.ok.inj htarget
  obtain ⟨-, hdeclared⟩ := hresolves (by decide)
  obtain ⟨m, hm, hmodule, a, ha, hname⟩ := hdeclared _ rfl rfl
  refine ⟨hstart, hnodup, modules, _, hrun, m, hm, ?_, a, ha, ?_⟩
  · exact Option.some.inj (hmodule.symm.trans (by decide +kernel))
  · rw [hname]
    decide +kernel

end Run

end Typings
