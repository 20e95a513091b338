import Typings.Proofs.Finished
import Typings.Proofs.Record
import Typings.Proofs.Root
import Mathlib.Data.List.Induction

/-!
What the finished modules hold. Every symbol that is kept and every dispatcher
is declared once, in its own module, and the shared module says where the
dispatchers are.
-/

namespace Typings

theorem lastSegment_of_splitPath {path source name : String}
    (h : splitPath path = .ok (source, name)) :
    lastSegment path = name := by
  rw [splitPath] at h
  rw [lastSegment]
  split at h
  · rename_i front c rest hcut
    rw [hcut]
    cases h
    rfl
  · cases h

/-- A declaration bears the name that it is compiled under. -/
theorem Compiles.name_eq {env : Environment} {scope : Scope} {type : Schema}
    {c : Compiled} (h : Compiles env scope type c) {declared : Alias}
    (hc : c.type = .declaration declared) :
    scope.name = some declared.name := by
  have hother (hkind : type.isDeclarable = false) :
      scope.name = some declared.name := by
    rw [h.isExpr (by rw [hkind, Bool.and_false])] at hc
    cases hc
  cases h with
  | template _ hname =>
      cases hc
      exact hname
  | struct _ hstruct =>
      obtain ⟨-, -, -, ⟨htype, -⟩ | ⟨name, hname, -, htype⟩⟩ :=
        composeStruct_eq_ok hstruct
      · rw [htype] at hc
        cases hc
      · rw [htype] at hc
        cases hc
        exact hname
  | leaf hleaf => exact hother (Schema.isDeclarable_of_isLeaf hleaf)
  | _ => exact hother rfl

/-- The module part of a path that has one. -/
def moduleOf? (path : String) : Option String :=
  match splitPath path with
  | .ok (source, _) => some source
  | .error _ => none

theorem moduleOf?_of_splitPath {path source name : String}
    (h : splitPath path = .ok (source, name)) :
    moduleOf? path = some source := by
  rw [moduleOf?, h]

namespace Run

theorem name_symbolAlias {env : Environment} {scope : Scope} {type : Schema}
    {c : Compiled} (h : Compiles env scope type c) {name : String}
    (hname : scope.name = some name) {doc : Json}
    {a : Alias} (ha : symbolAlias name doc c = .ok a) : a.name = name := by
  obtain ⟨own, -, ha⟩ := bind_eq_ok_iff.mp ha
  split at ha
  · rename_i declared hdeclared
    cases ha
    exact Option.some.inj ((h.name_eq hdeclared).symm.trans hname)
  · cases ha
    rfl

/-- Is the symbol declared in the module? It is if it lies there, has not
been removed, and is written by hand or no copy of a struct that its
parent declares. -/
def emits (env : Environment) (referenced : List Json) (path : String)
    (s : String × Symbol) : Bool :=
  !Attribute.isGone s.2.attributes && moduleOf? s.1 == some path &&
    ((Override.find? s.1).isSome || !isNestedCopy env referenced path s.1 s.2)

structure IsAliasOf (s : String × Symbol) (c : Contribution) : Prop where
  source : c.source = some s.1
  declared : ∃ a : Alias, c.declaration = .typeAlias a ∧
    a.name = lastSegment s.1

variable {env : Environment} {referenced : List Json} {s : String × Symbol}

theorem emits_eq_false {path source : String}
    (hmodule : moduleOf? s.1 = some source) (hne : source ≠ path) :
    emits env referenced path s = false := by
  simp [emits, hmodule, hne]

/-- A symbol adds its alias to its module, or nothing at all. -/
theorem symbolResult_cases {r : SymbolResult}
    (h : symbolResult env referenced s.1 s.2 = .ok r) :
    (r.contribution? = none ∧ ∀ path, emits env referenced path s = false) ∨
      ∃ c, r.contribution? = some c ∧ moduleOf? s.1 = some c.path ∧
        emits env referenced c.path s = true ∧ IsAliasOf s c := by
  rcases symbolResult_eq_ok h with ⟨hgone, rfl⟩ |
    ⟨hgone, source, name, hsplit, h⟩
  · exact Or.inl ⟨rfl, fun path => by simp [emits, hgone]⟩
  · have hmodule := moduleOf?_of_splitPath hsplit
    have hname := lastSegment_of_splitPath hsplit
    rcases h with ⟨o, docs, ho, rfl⟩ | ⟨ho, hcopy, rfl⟩ |
      ⟨ho, hcopy, compiled, declared, hcompiled, hdeclared, rfl⟩
    · refine Or.inr ⟨overrideContribution source name s.1 o docs, rfl, hmodule,
        ?_, rfl, _, rfl, hname.symm⟩
      simp [emits, overrideContribution, hgone, hmodule, ho]
    · refine Or.inl ⟨rfl, fun path => ?_⟩
      by_cases hpath : source = path
      · subst hpath
        simp [emits, hcopy, ho]
      · exact emits_eq_false hmodule hpath
    · refine Or.inr ⟨symbolContribution source s.1 declared compiled.imports,
        rfl, hmodule, ?_, rfl, declared, rfl, ?_⟩
      · simp [emits, symbolContribution, hgone, hmodule, hcopy]
      · rw [hname]
        exact name_symbolAlias (Schema.compile_sound hcompiled) rfl hdeclared

/-- What the symbols add to a module: an alias for each symbol that is declared
there, in order. -/
theorem forall₂_isAliasOf {entries : List (String × Symbol)}
    {rs : List SymbolResult}
    (h : entries.mapM (fun s => symbolResult env referenced s.1 s.2) = .ok rs)
    (path : String) :
    List.Forall₂ IsAliasOf (entries.filter (emits env referenced path))
      ((rs.filterMap (·.contribution?)).filter (·.path == path)) := by
  have hall := mapM_eq_ok_iff.mp h
  clear h
  induction hall with
  | nil => exact .nil
  | cons hhead _ ih =>
      rcases symbolResult_cases hhead with ⟨hnone, hemits⟩ | ⟨c, hsome, hmodule,
        hemits, halias⟩
      · rw [List.filter_cons_of_neg (by simp [hemits path]),
          List.filterMap_cons_none hnone]
        exact ih
      · rw [List.filterMap_cons_some hsome]
        by_cases hpath : c.path = path
        · rw [List.filter_cons_of_pos (hpath ▸ hemits),
            List.filter_cons_of_pos (by simpa using hpath)]
          exact .cons halias ih
        · rw [List.filter_cons_of_neg (by simp [emits_eq_false hmodule hpath]),
            List.filter_cons_of_neg (by simpa using hpath)]
          exact ih

theorem exists_symbol_of_mem {entries : List (String × Symbol)}
    {rs : List SymbolResult}
    (h : entries.mapM (fun s => symbolResult env referenced s.1 s.2) = .ok rs)
    {c : Contribution}
    (hc : c ∈ rs.filterMap (·.contribution?)) : ∃ s ∈ entries,
      moduleOf? s.1 = some c.path := by
  obtain ⟨r, hr, hsome⟩ := List.mem_filterMap.mp hc
  obtain ⟨s, hs, hresult⟩ := exists_of_mem_mapM h hr
  rcases symbolResult_cases hresult with ⟨hnone, -⟩ | ⟨c', hsome', hmodule, -⟩
  · rw [hnone] at hsome
    cases hsome
  · rw [hsome'] at hsome
    cases hsome
    exact ⟨s, hs, hmodule⟩

theorem filterMap_source_of_forall₂ {entries : List (String × Symbol)}
    {cs : List Contribution} (h : List.Forall₂ IsAliasOf entries cs) :
    cs.filterMap (·.source) = entries.map (·.1) := by
  induction h with
  | nil => rfl
  | cons hhead _ ih =>
      rw [List.filterMap_cons_some hhead.source, ih, List.map_cons]

theorem exists_aliases_of_forall₂ {entries : List (String × Symbol)}
    {cs : List Contribution}
    (h : List.Forall₂ IsAliasOf entries cs) : ∃ aliases : List Alias,
      List.Forall₂ (fun s (a : Alias) => a.name = lastSegment s.1)
        entries aliases ∧
        cs.map (·.declaration) = aliases.map .typeAlias := by
  induction h with
  | nil => exact ⟨[], .nil, rfl⟩
  | cons hhead _ ih =>
      obtain ⟨a, hdeclaration, hname⟩ := hhead.declared
      obtain ⟨aliases, hnames, hdeclarations⟩ := ih
      exact ⟨a :: aliases, .cons hname hnames, by rw [List.map_cons,
        hdeclaration, hdeclarations, List.map_cons]⟩

namespace Placement

variable (p : Placement)

/-- The module that holds the declarations of the dispatcher. -/
def module : String :=
  match p.home with
  | some (owner, _) => owner
  | none => tablesModule

/-- The re-export that stands in the shared module for a
dispatcher that has moved. -/
def reExport? : Option ReExport :=
  p.home.map fun home => { names := [p.symbol.info.tableName], file := home.2 }

/-- What the dispatcher declares in a module: where it has moved from, and where
it is, all its declarations in one block. -/
def declarationsIn (path : String) : List Declaration :=
  (if path = tablesModule then p.reExport?.toList.map .reExport else []) ++
    if path = p.module then
      (p.symbol.members ++ [p.symbol.map, p.symbol.keys, p.symbol.fallback,
        p.symbol.symbol]).map .typeAlias
    else []

/-- A dispatcher goes to its owner, if it has one and no name clashes there with
what the module holds by then, and to the shared module if not. -/
structure IsChosen (g : Run) (earlier : List Placement) : Prop where
  symbol : DispatcherSymbol.build g.books.env p.registry
    ((g.dispatchers.get? p.registry).getD {}) =
    .ok p.symbol
  owner : ∀ owner, p.home.map (·.1) = some owner ↔
    (g.books.home p.registry).1 = some owner ∧
    clashes ((g.drafts.extend (earlier.flatMap (·.contributions))).draft owner)
      p.symbol = .ok false
  moved : ∀ owner file, p.home = some (owner, file) →
    importFile owner = .ok file ∧ owner ≠ tablesModule

end Placement

/-- A dispatcher has only one place to go to. -/
theorem Placement.IsChosen.unique {p p' : Placement} {g : Run}
    {earlier : List Placement} (h : p.IsChosen g earlier)
    (h' : p'.IsChosen g earlier) (hregistry : p.registry = p'.registry) :
    p = p' := by
  obtain ⟨registry, d, home⟩ := p
  obtain ⟨registry', d', home'⟩ := p'
  obtain rfl : registry = registry' := hregistry
  obtain rfl : d = d' := Except.ok.inj (h.symbol.symm.trans h'.symbol)
  have howners : home.map (·.1) = home'.map (·.1) :=
    Option.ext fun owner => (h.owner owner).trans (h'.owner owner).symm
  cases home with
  | none =>
      cases home' with
      | none => rfl
      | some _ => cases howners
  | some place =>
      cases home' with
      | none => cases howners
      | some place' =>
          obtain ⟨owner, file⟩ := place
          obtain ⟨owner', file'⟩ := place'
          obtain rfl : owner = owner' := Option.some.inj howners
          obtain rfl : file = file' := Except.ok.inj
            ((h.moved owner file rfl).1.symm.trans (h'.moved owner file' rfl).1)
          rfl

/-- Each dispatcher in turn has one place only, so all have. -/
theorem placements_unique {g : Run} {ps ps' : List Placement}
    (hregistries : ps.map (·.registry) = ps'.map (·.registry))
    (h : ∀ earlier p later, ps = earlier ++ p :: later → p.IsChosen g earlier)
    (h' : ∀ earlier p later, ps' = earlier ++ p :: later →
      p.IsChosen g earlier) : ps = ps' := by
  induction ps using List.reverseRecOn generalizing ps' with
  | nil => exact (List.map_eq_nil_iff.mp hregistries.symm).symm
  | append_singleton front p ih =>
      rw [List.map_append] at hregistries
      obtain ⟨front', last, rfl, hfront, hlast⟩ :=
        List.map_eq_append_iff.mp hregistries.symm
      obtain ⟨p', rfl, hp⟩ := List.map_eq_singleton_iff.mp hlast
      have hinit : front = front' := by
        refine ih hfront.symm (fun earlier q later hsplit => ?_)
          fun earlier q later hsplit => ?_
        · exact h earlier q (later ++ [p]) (by rw [hsplit]; simp)
        · exact h' earlier q (later ++ [p']) (by rw [hsplit]; simp)
      subst hinit
      rw [(h front p [] rfl).unique (h' front p' [] rfl) hp.symm]

/-- The object of all dispatchers, with one property for each. -/
def dispatcherAlias (ps : List Placement) : Alias :=
  { name := "Dispatcher"
    type := .object (ps.map fun p => .plain p.registry
      (.reference p.symbol.info.tableName
        (.replicate p.symbol.info.params.length .unknown))) }

/-- What the dispatchers declare in a module. -/
def tableDeclarations (ps : List Placement) (path : String) :
    List Declaration :=
  ps.flatMap (·.declarationsIn path) ++
    if path = tablesModule then [.typeAlias (dispatcherAlias ps)] else []

theorem path_of_mem_block {path : String} {d : DispatcherSymbol} :
    ∀ c ∈ block path d, c.path = path := by
  rw [block]
  cases d.declarations with
  | nil => simp
  | cons first rest => simp [aliasTo]

theorem filter_block (path path' : String) (d : DispatcherSymbol) :
    (block path' d).filter (·.path == path) =
      if path = path' then block path' d else [] := by
  split
  · rename_i heq
    exact List.filter_eq_self.mpr fun c hc => by
      simp [path_of_mem_block c hc, heq]
  · rename_i hne
    exact List.filter_eq_nil_iff.mpr fun c hc => by
      simpa [path_of_mem_block c hc] using Ne.symm hne

theorem declarations_block (path : String) (d : DispatcherSymbol) :
    (block path d).map (·.declaration) =
      (d.members ++ [d.map, d.keys, d.fallback, d.symbol]).map .typeAlias := by
  rw [← DispatcherSymbol.declarations, block]
  cases d.declarations with
  | nil => rfl
  | cons first rest => simp [aliasTo]

theorem declarationsIn_eq (p : Placement) (path : String) :
    (p.contributions.filter (·.path == path)).map (·.declaration) =
      p.declarationsIn path := by
  have hblock : ∀ path',
    ((block path' p.symbol).filter (·.path == path)).map (·.declaration) =
      if path = path' then
        (p.symbol.members ++ [p.symbol.map, p.symbol.keys, p.symbol.fallback,
          p.symbol.symbol]).map .typeAlias
      else [] := by
    intro path'
    rw [filter_block]
    split
    · exact declarations_block path' p.symbol
    · rfl
  rw [Placement.contributions, Placement.declarationsIn, Placement.module,
    Placement.reExport?]
  cases p.home with
  | none => simp [hblock]
  | some home =>
      obtain ⟨owner, file⟩ := home
      dsimp only
      rw [List.filter_cons]
      by_cases hpath : path = tablesModule
      · simp [hpath ▸ hblock owner, hpath, reExportOf]
      · simp [hblock owner, hpath, reExportOf, Ne.symm hpath]

theorem declarations_flatMap (ps : List Placement) (path : String) :
    ((ps.flatMap (·.contributions)).filter (·.path == path)).map
      (·.declaration) =
      ps.flatMap (·.declarationsIn path) := by
  rw [List.filter_flatMap, List.map_flatMap]
  exact List.flatMap_congr fun p _ => declarationsIn_eq p path

theorem exists_contribution_to_module (p : Placement) :
    ∃ c ∈ p.contributions, c.path = p.module := by
  rw [Placement.contributions, Placement.module]
  cases p.home with
  | none =>
      obtain ⟨c, hhead, hpath⟩ := head?_block tablesModule p.symbol
      exact ⟨c, List.mem_of_mem_head? hhead, hpath⟩
  | some home =>
      obtain ⟨c, hhead, hpath⟩ := head?_block home.1 p.symbol
      exact ⟨c, List.mem_cons_of_mem _ (List.mem_of_mem_head? hhead), hpath⟩

/-- Registries that are sorted already stand in the same order in the object of
all dispatchers. -/
theorem dispatcherCatalogue_eq {ps : List Placement}
    (hsorted : (ps.map (·.registry)).Pairwise (· ≤ ·))
    (hnodup : (ps.map (·.registry)).Nodup) :
    dispatcherCatalogue (exportedSymbols ps) =
      (dispatcherAlias ps,
        .ofList (ps.map fun p => tablePath p.symbol.info.tableName)) := by
  have hkeys : (exportedSymbols ps).keys = ps.map (·.registry) := by
    simp [exportedSymbols, Table.keys]
  have hsortedKeys :
      (exportedSymbols ps).sortedKeys = (exportedSymbols ps).keys :=
    Table.sortedKeys_eq_keys (hkeys ▸ hsorted)
  rw [dispatcherCatalogue, hsortedKeys,
    Table.filterMap_get?_keys (hkeys ▸ hnodup), dispatcherAlias]
  simp [exportedSymbols, Placement.exported, Function.comp_def]

theorem filterMap_source_eq_nil {cs : List Contribution}
    (h : ∀ c ∈ cs, c.source = none) (path : String) :
    (cs.filter (·.path == path)).filterMap (·.source) = [] :=
  List.filterMap_eq_nil_iff.mpr fun c hc => h c (List.mem_of_mem_filter hc)

theorem mem_registryPart {r : Survey} {c : Contribution}
    (hc : c ∈ r.registryPart) :
    c.source = none ∧ c.path ≠ tablesModule := by
  rw [Survey.registryPart, registryContributions, List.mem_append, List.mem_map,
    List.mem_singleton] at hc
  have hregistries : registriesModule ≠ tablesModule := by decide
  have hclasses : classesModule ≠ tablesModule := by decide
  rcases hc with ⟨a, -, rfl⟩ | rfl
  · exact ⟨rfl, hregistries⟩
  · exact ⟨rfl, hclasses⟩

theorem source_of_mem_block {path : String} {d : DispatcherSymbol} :
    ∀ c ∈ block path d, c.source = none := by
  rw [block]
  cases d.declarations with
  | nil => simp
  | cons first rest => simp [aliasTo]

theorem source_of_mem_tablePart {r : Record} :
    ∀ c ∈ r.tablePart, c.source = none := by
  intro c hc
  rcases List.mem_append.mp hc with hc | hc
  · obtain ⟨p, -, hc⟩ := List.mem_flatMap.mp hc
    rw [Placement.contributions] at hc
    split at hc
    · exact source_of_mem_block c hc
    · rcases List.mem_cons.mp hc with rfl | hc
      · rfl
      · exact source_of_mem_block c hc
  · rw [List.mem_singleton.mp hc]
    rfl

theorem reExports_eq (ps : List Placement) {m : OutputModule} {a : Alias}
    (h : m.declarations = ps.flatMap (·.declarationsIn tablesModule) ++
      [.typeAlias a]) :
    m.reExports = ps.filterMap (·.reExport?) := by
  rw [OutputModule.reExports, h]
  clear h
  induction ps with
  | nil => rfl
  | cons p rest ih =>
      rw [List.flatMap_cons, List.append_assoc, List.filterMap_append, ih,
        Placement.declarationsIn, if_pos rfl, List.filterMap_append]
      cases hre : p.reExport? with
      | none =>
          rw [List.filterMap_cons_none hre]
          split
          · simp
          · rfl
      | some r =>
          rw [List.filterMap_cons_some hre]
          split
          · simp
          · rfl

variable {g g' : Run} {r : Record}

theorem Record.Describes.filterMap_source_history (hr : r.Describes g)
    (path : String) :
    (r.history.filter (·.path == path)).filterMap (·.source) =
      (g.books.env.symbols.entries.filter
        (emits g.books.env r.referenced path)).map (·.1) := by
  rw [Record.history, List.filter_append,
    List.filter_append, List.filterMap_append, List.filterMap_append,
    filterMap_source_eq_nil (fun c hc => (mem_registryPart hc).1),
    filterMap_source_eq_nil source_of_mem_tablePart, List.nil_append,
    List.append_nil]
  exact filterMap_source_of_forall₂ (forall₂_isAliasOf hr.symbols path)

/-- The sources of a finished module are the paths of the symbols that
are declared in it. -/
theorem Record.Describes.sources_draft (hr : r.Describes g)
    (hnodup : g.books.env.symbols.keys.Nodup)
    (path : String) : (History.draft r.history path).sources =
      (r.history.filter (·.path == path)).filterMap (·.source) := by
  apply History.sources_draft
  rw [hr.filterMap_source_history]
  exact (List.filter_sublist.map _).nodup hnodup

section Modules

variable {modules : List OutputModule} (hmodules : r.modules = .ok modules)

include hmodules

theorem Record.finishes {m : OutputModule} (hm : m ∈ modules) :
    History.Finishes r.history r.redirects m :=
  (History.close_eq_ok_iff.mp hmodules).2 m hm

theorem Record.exists_module {c : Contribution} (hc : c ∈ r.history) :
    ∃ m ∈ modules, m.path = c.path := by
  have hmem := History.mem_paths.mpr ⟨c, hc, rfl⟩
  rw [← (History.close_eq_ok_iff.mp hmodules).1] at hmem
  exact List.mem_map.mp hmem

theorem Record.exists_home {p : Placement} (hp : p ∈ r.placements) :
    ∃ m ∈ modules, m.path = p.module := by
  obtain ⟨c, hc, hpath⟩ := exists_contribution_to_module p
  rw [← hpath]
  apply Record.exists_module hmodules
  exact List.mem_append_right _
    (List.mem_append_left _ (List.mem_flatMap.mpr ⟨p, hp, hc⟩))

theorem Record.exists_shared : ∃ m ∈ modules, m.path = tablesModule := by
  apply Record.exists_module hmodules (c := catalogueOf r.placements)
  exact List.mem_append_right _
    (List.mem_append_right _ (List.mem_singleton_self _))

end Modules

theorem Record.Describes.dispatcherCatalogue_eq (hr : r.Describes g)
    (hnodup : g.dispatchers.keys.Nodup) :
    dispatcherCatalogue (exportedSymbols r.placements) =
      (dispatcherAlias r.placements, .ofList
        (r.placements.map fun p => tablePath p.symbol.info.tableName)) := by
  have hregistries := (placeTables_eq_ok hr.placements).1
  apply Run.dispatcherCatalogue_eq
  · rw [hregistries]
    exact Table.sortedKeys_pairwise _
  · rw [hregistries]
    exact Table.nodup_sortedKeys hnodup

/-- What a finished module declares: what it held before the dispatchers were
placed, then the part of each of them. -/
theorem Record.Describes.declarations_history
    (hr : r.Describes g) (hnodup : g.dispatchers.keys.Nodup)
    (path : String) : (r.history.filter (·.path == path)).map (·.declaration) =
      (History.draft (r.registryPart ++ r.symbolPart) path).declarations ++
        tableDeclarations r.placements path := by
  simp only [History.declarations_draft,
    Record.history, Record.tablePart, List.filter_append,
    List.map_append, declarations_flatMap, tableDeclarations]
  congr 2
  by_cases hpath : path = tablesModule
  · simp [hpath, catalogueOf, hr.dispatcherCatalogue_eq hnodup]
  · simp [hpath, catalogueOf, Ne.symm hpath]

/-- A module that owns a dispatcher is the module of some symbol. -/
theorem Record.Describes.exists_symbol_of_owner
    (hr : r.Describes g) {registry owner : String}
    (howner : Bookkeeping.ownerBy r.references registry = some owner) :
    ∃ path ∈ g.books.env.symbols.keys, moduleOf? path = some owner := by
  obtain ⟨ref, href, hsource⟩ := Bookkeeping.exists_reference_of_ownerBy howner
  obtain ⟨c, hc, hpath⟩ := exists_symbolPart_of_reference hr.symbols href
  obtain ⟨s, hs, hmodule⟩ := exists_symbol_of_mem hr.symbols hc
  rw [hpath, hsource] at hmodule
  exact ⟨s.1, List.mem_map_of_mem hs, hmodule⟩

theorem Record.Describes.isChosen (hr : r.Describes g)
    (hfree : ∀ path ∈ g.books.env.symbols.keys,
      moduleOf? path ≠ some tablesModule)
    {earlier later : List Placement} {p : Placement}
    (hsplit : r.placements = earlier ++ p :: later) :
    p.IsChosen (r.halfway g) earlier := by
  have hplaced := (placeTables_eq_ok hr.placements).2 earlier p later hsplit
  obtain ⟨-, hbuild, howner, hfile⟩ := placeTable_eq_ok hplaced
  have hdraft : ∀ owner, ((r.halfway g).drafts.extend
        (earlier.flatMap (·.contributions))).draft owner =
      History.draft (r.registryPart ++ r.symbolPart ++
        earlier.flatMap (·.contributions)) owner := by
    intro owner
    rw [Survey.halfway, History.drafts, ← Drafts.extend_append]
    exact History.draft_drafts
  refine ⟨?_, fun owner => ?_,
    fun owner file hmoved => ⟨hfile owner file hmoved, ?_⟩⟩
  · rw [Survey.env_halfway]
    exact hbuild
  · rw [hr.toDescribes.tracks_halfway.home_eq, hdraft]
    exact howner owner
  · rintro rfl
    have howned :=
      ((howner tablesModule).mp (by rw [hmoved, Option.map_some])).1
    obtain ⟨path, hpath, hmodule⟩ := hr.exists_symbol_of_owner howned
    exact hfree path hpath hmodule

/-- What the third phase adds to a module. -/
theorem Record.Describes.exists_aliases (hr : r.Describes g)
    (hfresh : g.IsFresh) (path : String) :
    ∃ aliases : List Alias,
      List.Forall₂ (fun s (a : Alias) => a.name = lastSegment s.1)
        (g.books.env.symbols.entries.filter
          (emits g.books.env r.referenced path)) aliases ∧
      ((r.halfway g).drafts.draft path).declarations =
        ((r.surveyed g).drafts.draft path).declarations ++
          aliases.map .typeAlias := by
  obtain ⟨aliases, hnames, haliases⟩ :=
    exists_aliases_of_forall₂ (forall₂_isAliasOf hr.symbols path)
  refine ⟨aliases, hnames, ?_⟩
  rw [hfresh.drafts_surveyed, Survey.draft_halfway,
    History.draft_drafts, History.declarations_draft,
    History.declarations_draft, List.filter_append, List.map_append, ← haliases]
  rfl

/-- A symbol that is kept has a module. -/
theorem Record.Describes.exists_module_of_emits (hr : r.Describes g)
    {modules : List OutputModule} (hmodules : r.modules = .ok modules)
    {s : String × Symbol} (hs : s ∈ g.books.env.symbols.entries)
    {path : String} (hemits : emits g.books.env r.referenced path s = true) :
    ∃ m ∈ modules, m.path = path := by
  have hall := forall₂_isAliasOf hr.symbols path
  have hsome : (r.symbolPart.filter (·.path == path)) ≠ [] := by
    intro hnil
    rw [Survey.symbolPart] at hnil
    rw [hnil, List.forall₂_nil_right_iff] at hall
    exact List.ne_nil_of_mem (List.mem_filter.mpr ⟨hs, hemits⟩) hall
  obtain ⟨c, hc⟩ := List.exists_mem_of_ne_nil _ hsome
  obtain ⟨hc, hpath⟩ := List.mem_filter.mp hc
  rw [← eq_of_beq hpath]
  exact Record.exists_module hmodules
    (List.mem_append_left _ (List.mem_append_right _ hc))

/-- The shared module is empty until the dispatchers are placed, if no
symbol lies there. -/
theorem Record.Describes.declarations_tablesModule (hr : r.Describes g)
    (hfree : ∀ path ∈ g.books.env.symbols.keys,
      moduleOf? path ≠ some tablesModule) :
    ((r.halfway g).drafts.draft tablesModule).declarations = [] := by
  rw [Survey.draft_halfway, History.declarations_draft, List.map_eq_nil_iff,
    List.filter_eq_nil_iff]
  intro c hc htables
  rcases List.mem_append.mp hc with hc | hc
  · exact (mem_registryPart hc).2 (eq_of_beq htables)
  · obtain ⟨s, hs, hmodule⟩ := exists_symbol_of_mem hr.symbols hc
    rw [eq_of_beq htables] at hmodule
    exact hfree s.1 (List.mem_map_of_mem hs) hmodule

/-- Every symbol that is kept and every dispatcher is declared once and in
the right module. -/
theorem emitted_once {symbols : Symbols} {dispatchers : Dispatchers}
    {registries translationKeys blockProperties : Json}
    {modules : List OutputModule}
    (hstart : start symbols dispatchers registries translationKeys
      blockProperties = .ok g)
    (hrun : runAll g = (.ok modules, g')) (hsymbols : symbols.keys.Nodup)
    (hdispatchers : dispatchers.keys.Nodup)
    (hfree : ∀ path ∈ symbols.keys, moduleOf? path ≠ some tablesModule) :
    ∃ (before after : Run) (referenced : List Json)
      (placements : List Placement),
      (do declareRegistries; noteDispatchers : Step Unit) g = (.ok ⟨⟩, before) ∧
      compileSymbols before = (.ok ⟨⟩, after) ∧
      g.targets = .ok referenced ∧
      placements.map (·.registry) = dispatchers.sortedKeys ∧
      (modules.map (·.path)).Nodup ∧
      (∀ m ∈ modules, (∃ aliases : List Alias,
          List.Forall₂ (fun s (a : Alias) => a.name = lastSegment s.1)
            (symbols.entries.filter (emits g.books.env referenced m.path))
              aliases ∧
          (after.drafts.draft m.path).declarations =
            (before.drafts.draft m.path).declarations ++
              aliases.map .typeAlias) ∧
        m.sources = (symbols.entries.filter
          (emits g.books.env referenced m.path)).map (·.1) ∧
        m.declarations =
          (after.drafts.draft m.path).declarations ++
            tableDeclarations placements m.path) ∧
      (∀ s ∈ symbols.entries, ∀ path,
        emits g.books.env referenced path s = true →
        ∃ m ∈ modules, m.path = path) ∧
      (∀ earlier p later, placements = earlier ++ p :: later →
        p.IsChosen after earlier ∧ ∃ m ∈ modules, m.path = p.module) ∧
      ∃ shared ∈ modules, shared.path = tablesModule ∧
        shared.declarations =
          placements.flatMap (·.declarationsIn tablesModule) ++
          [.typeAlias (dispatcherAlias placements)] ∧
        shared.reExports = placements.filterMap (·.reExport?) := by
  obtain ⟨hfresh, rfl, rfl⟩ := isFresh_start hstart
  obtain ⟨r, hr, hmodules, -⟩ := (runAll_eq_ok_iff hfresh).mp hrun
  obtain ⟨hearly, hcompile⟩ := hr.toDescribes.phases hfresh
  have hregistries := (placeTables_eq_ok hr.placements).1
  have hdeclarations : ∀ m ∈ modules, m.declarations =
      ((r.halfway g).drafts.draft m.path).declarations ++
        tableDeclarations r.placements m.path := by
    intro m hm
    rw [(Record.finishes hmodules hm).declarations,
      hr.declarations_history hdispatchers, Survey.draft_halfway]
  refine ⟨r.surveyed g, r.halfway g, r.referenced,
    r.placements, hearly, hcompile, hr.referenced,
    hregistries, (History.close_eq_ok_iff.mp hmodules).1 ▸ History.nodup_paths,
    fun m hm => ⟨?_, ?_, hdeclarations m hm⟩, ?_, ?_, ?_⟩
  · exact hr.exists_aliases hfresh m.path
  · rw [(Record.finishes hmodules hm).sources, hr.sources_draft hsymbols,
      hr.filterMap_source_history]
  · intro s hs path hemits
    exact hr.exists_module_of_emits hmodules hs hemits
  · intro earlier p later hsplit
    exact ⟨hr.isChosen hfree hsplit,
      Record.exists_home hmodules (by simp [hsplit])⟩
  · obtain ⟨shared, hshared, hpath⟩ := Record.exists_shared hmodules
    have hall : shared.declarations =
        r.placements.flatMap (·.declarationsIn tablesModule) ++
        [.typeAlias (dispatcherAlias r.placements)] := by
      rw [hdeclarations shared hshared, hpath,
        hr.declarations_tablesModule hfree, List.nil_append,
        tableDeclarations, if_pos rfl]
    exact ⟨shared, hshared, hpath, hall, reExports_eq r.placements hall⟩

/-- A run ends with its modules if the paths that each has collected
are well-formed. -/
theorem Record.Describes.exists_modules {g : Run} {r : Record}
    (hr : r.Describes g) (hfresh : g.IsFresh)
    (h : ∀ c ∈ r.history,
      ((History.draft r.history c.path).toModule r.redirects).isOk = true) :
    ∃ modules, r.modules = .ok modules ∧
      runAll g = (.ok modules, r.final g modules) := by
  obtain ⟨modules, hmodules⟩ :=
    History.exists_close_eq_ok fun c hc => exists_eq_ok_of_isOk (h c hc)
  exact ⟨modules, hmodules,
    (runAll_eq_ok_iff hfresh).mpr ⟨r, hr, hmodules, rfl⟩⟩

/-- A struct that refers to a dispatcher, the copy of a struct inside it, a
plain type beside it, and a symbol that has been removed. -/
def sampleSymbols : Symbols :=
  let field (name : String) (type : Schema) : Field :=
    .pair (.name name) type false false .null []
  ⟨[("::java::a::Thing",
      { type := .struct
          [field "k" (.string none []),
            field "x"
              (.dispatcher (.str "minecraft:x") [.dynamic [.property "k"]] [])]
          [] }),
    ("::java::a::Thing::Inner",
      { type := .struct [field "k" (.string none [])] [] }),
    ("::java::a::Flag", { type := .boolean [] }),
    ("::java::b::Gone",
      { type := .boolean []
        attributes := [.mk (.str "until")
          (.type (.literal (.str "string") (.str "1.20") []))] })]⟩

/-- A dispatcher without an owner and the one that is referred to. -/
def sampleDispatchers : Dispatchers :=
  ⟨[("mod:y", ⟨[("k", .boolean [])]⟩),
    ("minecraft:x", ⟨[("k", .string none [])]⟩)]⟩

def sampleRun : Run :=
  { books := { env := { symbols := sampleSymbols } }
    dispatchers := sampleDispatchers
    registries := .obj [] }

def sampleSurvey : Survey :=
  let s : Survey :=
    { registries := {}
      translationKey? := none
      blockStateKey? := none
      heads := [("mod:y", { name := "ModY" }), ("minecraft:x", { name := "X" })]
      referenced := []
      symbols := [] }
  let results := sampleSymbols.entries.mapM fun e =>
    symbolResult (s.env sampleSymbols) [] e.1 e.2
  { s with symbols := results.toOption.getD [] }

def sampleRecord : Record :=
  { sampleSurvey with
    placements := (placeTables (sampleSurvey.env sampleSymbols)
      sampleDispatchers sampleSurvey.references
      (sampleSurvey.registryPart ++ sampleSurvey.symbolPart) ["minecraft:x",
        "mod:y"]).toOption.getD [] }

theorem literalAlias?_nil (name : String) :
    literalAlias? name [] = .ok none := by
  simp [literalAlias?, Json.orderedSet, Json.ordered, Json.distinct,
    Json.areAlike, bind, Except.bind, pure, Except.pure]

theorem sortedKeys_sampleDispatchers :
    sampleDispatchers.sortedKeys = ["minecraft:x", "mod:y"] := by
  simp [sampleDispatchers, Table.sortedKeys, Table.keys, List.mergeSort]

theorem describes_sampleRun : sampleRecord.Describes sampleRun where
  registries := rfl
  translationKey := literalAlias?_nil _
  blockStateKey := literalAlias?_nil _
  heads := rfl
  referenced := rfl
  symbols := rfl
  placements := by
    rw [show sampleRun.dispatchers.sortedKeys =
      _ from sortedKeys_sampleDispatchers]
    apply eq_ok_getD_of_isOk
    decide +kernel

theorem exists_modules_sampleRun :
    ∃ modules, sampleRecord.modules = .ok modules ∧
    runAll sampleRun = (.ok modules, sampleRecord.final sampleRun modules) := by
  have hcatalogue := describes_sampleRun.dispatcherCatalogue_eq (by decide)
  refine describes_sampleRun.exists_modules ⟨rfl, rfl, rfl, rfl, rfl⟩ ?_
  rw [Record.history, Record.tablePart, catalogueOf, hcatalogue]
  decide +kernel

/-- Two of the four symbols are declared. The dispatcher that one of them refers
to is declared behind them, the other one in the shared module, which ends with
the object of the dispatchers. -/
theorem emitted_once_sampleRun :
    start sampleSymbols sampleDispatchers .null .null .null = .ok sampleRun ∧
      ∃ modules g', runAll sampleRun = (.ok modules, g') ∧
        (∃ m ∈ modules, m.path = "::java::a" ∧
          m.sources = ["::java::a::Thing", "::java::a::Flag"] ∧
          m.aliases.map (·.name) =
            ["Thing", "Flag", "XK", "XMap", "XKeys", "XFallback", "SymbolX"]) ∧
        ∃ shared ∈ modules, ∃ placements : List Placement,
          shared.path = tablesModule ∧
          placements.map (·.registry) = ["minecraft:x", "mod:y"] ∧
          shared.reExports.map (fun r => (r.names, r.file)) =
            [(["SymbolX"], "sandstone/generated/a")] ∧
          shared.aliases.map (·.name) = ["ModYK", "ModYMap", "ModYKeys",
            "ModYFallback", "SymbolModY", "Dispatcher"] ∧
          shared.declarations.getLast? =
            some (.typeAlias (dispatcherAlias placements)) := by
  have hstart : start sampleSymbols sampleDispatchers .null .null .null =
      .ok sampleRun := rfl
  have hfree :
      ∀ path ∈ sampleSymbols.keys, moduleOf? path ≠ some tablesModule := by
    decide +kernel
  obtain ⟨modules, -, hrun⟩ := exists_modules_sampleRun
  obtain ⟨before, after, referenced, placements, hearly, hcompile, hreferenced,
    hregistries, -, hmodules, hkept, hplaced, shared, hshared, hpath,
    hdeclarations, hreExports⟩ :=
      emitted_once hstart hrun (by decide) (by decide) hfree
  obtain ⟨hearly', hcompile'⟩ := describes_sampleRun.toDescribes.phases
    ⟨rfl, rfl, rfl, rfl, rfl⟩
  cases hearly.symm.trans hearly'
  cases hcompile.symm.trans hcompile'
  cases hreferenced.symm.trans (rfl : sampleRun.targets = .ok [])
  have hplacements : placements = sampleRecord.placements := by
    refine placements_unique (hregistries.trans ?_)
      (fun earlier p later hsplit => (hplaced earlier p later hsplit).1)
      fun earlier p later hsplit => describes_sampleRun.isChosen hfree hsplit
    rw [sortedKeys_sampleDispatchers]
    decide +kernel
  refine ⟨hstart, modules, _, hrun, ?_, shared, hshared, placements, hpath, ?_,
    ?_, ?_, ?_⟩
  · obtain ⟨m, hm, hmodule⟩ :=
      hkept _ List.mem_cons_self "::java::a" (by decide +kernel)
    obtain ⟨-, hsources, hall⟩ := hmodules m hm
    rw [hmodule] at hsources hall
    refine ⟨m, hm, hmodule, ?_, ?_⟩
    · rw [hsources]
      decide +kernel
    · rw [OutputModule.aliases, hall, hplacements]
      decide +kernel
  · rw [hregistries, sortedKeys_sampleDispatchers]
  · rw [hreExports, hplacements]
    decide +kernel
  · rw [OutputModule.aliases, hdeclarations, hplacements]
    decide +kernel
  · rw [hdeclarations, List.getLast?_concat]

end Run

end Typings
