import Typings.Proofs.Emission
import Typings.Proofs.ImportsExact

/-!
Imports of dispatchers. A path to the symbol of a dispatcher, in the shared
module, leads to the module that the dispatcher has been placed in, and that
module exports the symbol.
-/

namespace Typings

/-- The name of the symbol of a dispatcher. -/
def tableNameOf (registry : String) : String :=
  "Symbol" ++ baseName registry

theorem colon_not_mem_tableNameOf (registry : String) :
    ':' ∉ (tableNameOf registry).toList := by
  rw [tableNameOf, String.toList_append, List.mem_append, not_or]
  exact ⟨by decide, colon_not_mem_baseName registry⟩

theorem splitPath_append {front name : String} (hcolon : ':' ∉ name.toList)
    (hne : name ≠ "") :
    splitPath (front ++ "::" ++ name) = .ok (front, name) := by
  have hlist : (front ++ "::" ++ name).toList =
      front.toList ++ ':' :: ':' :: name.toList := by
    simp [String.toList_append]
  rw [splitPath, hlist, cutAtLast?_append hcolon]
  cases hname : name.toList with
  | nil => exact absurd (String.toList_eq_nil_iff.mp hname) hne
  | cons c rest =>
      dsimp only
      rw [← hname, String.ofList_toList, String.ofList_toList]

theorem splitPath_tableNameOf (front registry : String) :
    splitPath (front ++ "::" ++ tableNameOf registry) =
      .ok (front, tableNameOf registry) := by
  apply splitPath_append (colon_not_mem_tableNameOf registry)
  intro h
  have hlength := congrArg (fun s => s.toList.length) h
  simp [tableNameOf, String.toList_append] at hlength

theorem tablePath_inj {name name' : String}
    (h : tablePath name = tablePath name') : name = name' := by
  have hlist := congrArg String.toList h
  simp only [tablePath, String.toList_append,
    List.append_cancel_left_eq] at hlist
  exact String.toList_inj.mp hlist

/-- Does the module declare and export the name? -/
def OutputModule.Exports (m : OutputModule) (name : String) : Prop :=
  ∃ a ∈ m.aliases, a.name = name ∧ a.exported = true

namespace Run

theorem symbol_of_build {env : Environment}
    {registry : String} {members : Table Schema} {d : DispatcherSymbol}
    (h : DispatcherSymbol.build env registry members = .ok d) :
    env.dispatchers.get? registry = some d.info ∧
      d.symbol.name = d.info.tableName ∧
      d.symbol.exported = true := by
  rw [DispatcherSymbol.build] at h
  split at h
  · cases h
  · rename_i info hinfo
    obtain ⟨compiled, -, h⟩ := bind_eq_ok_iff.mp h
    cases pure_eq_ok_iff.mp h
    exact ⟨hinfo, rfl, rfl⟩

variable {g g' : Run} {r : Record}

theorem Survey.Describes.precomputed {r : Survey}
    (hr : r.Describes g) (hnodup : g.dispatchers.keys.Nodup)
    (symbols : Symbols) : (r.env symbols).Precomputed := by
  intro registry info h
  rw [hr.dispatchers_env hnodup, Table.get?_eq_some_iff
    (by rw [Table.keys, hr.keys_heads]; exact hnodup)] at h
  obtain ⟨d, -, hd⟩ := exists_of_mem_mapM hr.heads h
  obtain ⟨head, hhead, hd⟩ := bind_eq_ok_iff.mp hd
  cases pure_eq_ok_iff.mp hd
  exact ⟨d.2, hhead⟩

theorem tableName_of {registry : String}
    {members : Table Schema} {info : DispatcherHead}
    (h : DispatcherHead.of registry members = .ok info) :
    info.tableName = tableNameOf registry := by
  obtain ⟨params, -, h⟩ := bind_eq_ok_iff.mp h
  cases pure_eq_ok_iff.mp h
  rfl

theorem Record.Describes.placed (hr : r.Describes g)
    (hnodup : g.dispatchers.keys.Nodup) {p : Placement}
    (hp : p ∈ r.placements) :
    p.symbol.info.tableName = tableNameOf p.registry ∧
      p.symbol.symbol.name = tableNameOf p.registry ∧
      p.symbol.symbol.exported = true ∧
      ∀ owner file, p.home = some (owner, file) → importFile owner = .ok file ∧
        ∃ path ∈ g.books.env.symbols.keys, moduleOf? path = some owner := by
  obtain ⟨earlier, later, hsplit⟩ := List.append_of_mem hp
  obtain ⟨-, hbuild, howner, hfile⟩ :=
    placeTable_eq_ok
      ((placeTables_eq_ok hr.placements).2 earlier p later hsplit)
  obtain ⟨hinfo, hname, hexported⟩ := symbol_of_build hbuild
  obtain ⟨members, hmembers⟩ := hr.toDescribes.precomputed hnodup _ _ _ hinfo
  have htable := tableName_of hmembers
  refine ⟨htable, hname.trans htable, hexported, fun owner file hmoved => ?_⟩
  have howned := ((howner owner).mp (by rw [hmoved, Option.map_some])).1
  exact ⟨hfile owner file hmoved, hr.exists_symbol_of_owner howned⟩

theorem get?_redirect (redirects : Table String) (p : Placement)
    (path : String) :
    (p.redirect redirects).get? path =
      if path = tablePath p.symbol.info.tableName then
        (p.home.map fun home => home.1 ++ "::" ++ p.symbol.info.tableName).or
          (redirects.get? path)
      else redirects.get? path := by
  rw [Placement.redirect]
  cases p.home with
  | none => simp
  | some home =>
      dsimp only
      rw [Table.get?_put]
      by_cases hpath : path = tablePath p.symbol.info.tableName
      · simp [hpath]
      · simp [hpath]

theorem get?_foldl_redirect_of_ne {ps : List Placement}
    {redirects : Table String} {path : String}
    (h : ∀ p ∈ ps, path ≠ tablePath p.symbol.info.tableName) :
    (ps.foldl Placement.redirect redirects).get? path =
      redirects.get? path := by
  induction ps generalizing redirects with
  | nil => rfl
  | cons p rest ih =>
      obtain ⟨hp, hrest⟩ := List.forall_mem_cons.mp h
      rw [List.foldl_cons, ih hrest, get?_redirect, if_neg hp]

/-- The symbol of a dispatcher is redirected to where the dispatcher has
moved, if it has. -/
theorem get?_foldl_redirect {ps : List Placement} {p : Placement} (hp : p ∈ ps)
    (hnames : (ps.map fun q => q.symbol.info.tableName).Nodup) :
    (ps.foldl Placement.redirect {}).get? (tablePath p.symbol.info.tableName) =
      p.home.map fun home => home.1 ++ "::" ++ p.symbol.info.tableName := by
  obtain ⟨earlier, later, rfl⟩ := List.append_of_mem hp
  rw [List.map_append, List.map_cons, List.nodup_append,
    List.nodup_cons] at hnames
  obtain ⟨-, ⟨hlater, -⟩, hearlier⟩ := hnames
  have hne : ∀ q ∈ earlier, tablePath p.symbol.info.tableName ≠
      tablePath q.symbol.info.tableName := by
    intro q hq heq
    exact hearlier _ (List.mem_map_of_mem hq) _ List.mem_cons_self
      (tablePath_inj heq).symm
  have hne' : ∀ q ∈ later, tablePath p.symbol.info.tableName ≠
      tablePath q.symbol.info.tableName := by
    intro q hq heq
    apply hlater
    rw [tablePath_inj heq]
    exact List.mem_map_of_mem hq
  rw [List.foldl_append, List.foldl_cons, get?_foldl_redirect_of_ne hne',
    get?_redirect, if_pos rfl, get?_foldl_redirect_of_ne hne]
  simp [Table.get?]

theorem redirected_tablePath {p : Placement} (hp : p ∈ r.placements)
    (hnames : (r.placements.map fun q => q.symbol.info.tableName).Nodup) :
    redirected r.redirects (tablePath p.symbol.info.tableName) =
      p.module ++ "::" ++ p.symbol.info.tableName := by
  rw [redirected, Record.redirects, get?_foldl_redirect hp hnames,
    Placement.module]
  cases p.home with
  | none => rfl
  | some home => rfl

/-- A path to the symbol of a dispatcher is imported from the module
of the dispatcher. -/
theorem importOf?_tablePath {p : Placement} (hp : p ∈ r.placements)
    (hr : r.Describes g) (hnodup : g.dispatchers.keys.Nodup)
    (hnames : (r.placements.map fun q => q.symbol.info.tableName).Nodup)
    {path : String} {found : Option (String × String)} :
    importOf? r.redirects path (tablePath p.symbol.info.tableName) = .ok found ↔
      p.module = path ∧ found = none ∨ p.module ≠ path ∧
        ∃ file, importFile p.module = .ok file ∧
        found = some (file, p.symbol.info.tableName) := by
  rw [importOf?_eq_ok_iff, redirected_tablePath hp hnames,
    (hr.placed hnodup hp).1, splitPath_tableNameOf]
  simp

theorem importPaths_final {modules : List OutputModule} (path : String) :
    ((r.final g modules).drafts.draft path).importPaths =
      History.collected r.history path := by
  rw [Draft.importPaths_eq, History.collected, ← History.draft_drafts]
  rfl

theorem exports_module {m : OutputModule} {p : Placement} (hr : r.Describes g)
    (hnodup : g.dispatchers.keys.Nodup) (hp : p ∈ r.placements)
    (hfinishes : History.Finishes r.history r.redirects m)
    (hmodule : m.path = p.module) :
    m.Exports p.symbol.info.tableName := by
  obtain ⟨htable, hname, hexported, -⟩ := hr.placed hnodup hp
  refine ⟨p.symbol.symbol, ?_, hname.trans htable.symm, hexported⟩
  have hin : .typeAlias p.symbol.symbol ∈ p.declarationsIn m.path := by
    rw [Placement.declarationsIn, if_pos hmodule]
    simp
  have hdeclared : .typeAlias p.symbol.symbol ∈ m.declarations := by
    rw [hfinishes.declarations, hr.declarations_history hnodup]
    exact List.mem_append_right _
      (List.mem_append_left _ (List.mem_flatMap.mpr ⟨p, hp, hin⟩))
  exact List.mem_filterMap.mpr ⟨_, hdeclared, rfl⟩

theorem mem_reExports {m : OutputModule} {p : Placement} (hr : r.Describes g)
    (hnodup : g.dispatchers.keys.Nodup) (hp : p ∈ r.placements)
    (hfinishes : History.Finishes r.history r.redirects m)
    (hmodule : m.path = tablesModule)
    {re : ReExport} (hre : p.reExport? = some re) : re ∈ m.reExports := by
  have hin : .reExport re ∈ p.declarationsIn m.path := by
    rw [Placement.declarationsIn, if_pos hmodule, hre]
    simp
  have hdeclared : .reExport re ∈ m.declarations := by
    rw [hfinishes.declarations, hr.declarations_history hnodup]
    exact List.mem_append_right _
      (List.mem_append_left _ (List.mem_flatMap.mpr ⟨p, hp, hin⟩))
  exact List.mem_filterMap.mpr ⟨_, hdeclared, rfl⟩

/-- The symbols of dispatchers have different names, if those of their
registries have. -/
theorem Record.Describes.nodup_tableNames (hr : r.Describes g)
    (hdispatchers : g.dispatchers.keys.Nodup)
    (hnames : ∀ a ∈ g.dispatchers.keys, ∀ b ∈ g.dispatchers.keys,
      tableNameOf a = tableNameOf b → a = b) :
    (r.placements.map fun p => p.symbol.info.tableName).Nodup := by
  have hregistries := (placeTables_eq_ok hr.placements).1
  have hmap : (r.placements.map fun p => p.symbol.info.tableName) =
      g.dispatchers.sortedKeys.map tableNameOf := by
    rw [← hregistries, List.map_map]
    exact List.map_congr_left fun p hp => (hr.placed hdispatchers hp).1
  rw [hmap]
  apply List.Nodup.map_on _ (Table.nodup_sortedKeys hdispatchers)
  intro a ha b hb
  exact hnames a (Table.mem_sortedKeys.mp ha) b (Table.mem_sortedKeys.mp hb)

section Modules

variable {modules : List OutputModule} (hmodules : r.modules = .ok modules)
  (hr : r.Describes g)
  (hnodup : g.dispatchers.keys.Nodup) {p : Placement} (hp : p ∈ r.placements)

include hmodules

theorem Record.mem_pairs_iff {m : OutputModule} (hm : m ∈ modules) :
    (Import.pairs m.imports).Nodup ∧ ∀ pair, pair ∈ Import.pairs m.imports ↔
      ∃ q ∈ ((r.final g modules).drafts.draft m.path).importPaths,
        importOf? r.redirects m.path q = .ok (some pair) := by
  obtain ⟨hsorted, -, hmem⟩ :=
    finishedImports_eq_ok (Record.finishes hmodules hm).imports
  rw [importPaths_final]
  exact ⟨hsorted.nodup_pairs, hmem⟩

include hr hnodup hp

/-- The module of a dispatcher exports its symbol. -/
theorem exists_home_exports : ∃ home ∈ modules, home.path = p.module ∧
    importFile p.module = .ok home.file ∧
    home.Exports p.symbol.info.tableName := by
  obtain ⟨home, hhome, hpath⟩ := Record.exists_home hmodules hp
  have hfinishes := Record.finishes hmodules hhome
  exact ⟨home, hhome, hpath, hpath ▸ hfinishes.file,
    exports_module hr hnodup hp hfinishes hpath⟩

/-- A module that needs the symbol of a dispatcher has it or imports it
from where it is. -/
theorem import_resolves
    (hnames : (r.placements.map fun q => q.symbol.info.tableName).Nodup)
    {m : OutputModule} (hm : m ∈ modules)
    (hcollected : tablePath p.symbol.info.tableName ∈
      ((r.final g modules).drafts.draft m.path).importPaths) :
    m.Exports p.symbol.info.tableName ∧
        importOf? r.redirects m.path (tablePath p.symbol.info.tableName) =
          .ok none ∨
      ∃ file, importOf? r.redirects m.path (tablePath p.symbol.info.tableName) =
          .ok (some (file, p.symbol.info.tableName)) ∧
        (Import.pairs m.imports).count (file, p.symbol.info.tableName) = 1 ∧
        ∃ source ∈ modules, source.file = file ∧
        source.Exports p.symbol.info.tableName := by
  by_cases hown : p.module = m.path
  · exact Or.inl
      ⟨exports_module hr hnodup hp (Record.finishes hmodules hm) hown.symm,
      (importOf?_tablePath hp hr hnodup hnames).mpr (Or.inl ⟨hown, rfl⟩)⟩
  · obtain ⟨home, hhome, -, hfile, hexports⟩ :=
      exists_home_exports hmodules hr hnodup hp
    have himport := (importOf?_tablePath hp hr hnodup hnames).mpr
      (Or.inr ⟨hown, home.file, hfile, rfl⟩)
    obtain ⟨hpairs, hmem⟩ := Record.mem_pairs_iff (g := g) hmodules hm
    exact Or.inr ⟨home.file, himport,
      List.count_eq_one_of_mem hpairs ((hmem _).mpr ⟨_, hcollected, himport⟩),
      home, hhome, rfl, hexports⟩

/-- The shared module has the symbol of a dispatcher or passes it on
from another file. -/
theorem shared_resolves (hfree : ∀ path ∈ g.books.env.symbols.keys, ∀ source,
      moduleOf? path = some source →
        importFile source ≠ importFile tablesModule) :
    ∃ shared ∈ modules, shared.path = tablesModule ∧
      (shared.Exports p.symbol.info.tableName ∨
        ∃ owner ∈ modules, owner.file ≠ shared.file ∧
          owner.Exports p.symbol.info.tableName ∧
          { names := [p.symbol.info.tableName], file := owner.file } ∈
            shared.reExports) := by
  obtain ⟨shared, hshared, hpath⟩ := Record.exists_shared hmodules
  have hfinishes := Record.finishes hmodules hshared
  refine ⟨shared, hshared, hpath, ?_⟩
  cases hplaced : p.home with
  | none =>
      refine Or.inl (exports_module hr hnodup hp hfinishes (hpath.trans ?_))
      rw [Placement.module, hplaced]
  | some moved =>
      obtain ⟨owner, file⟩ := moved
      obtain ⟨-, -, -, hmoved⟩ := hr.placed hnodup hp
      obtain ⟨hfile, path, hsymbol, hsource⟩ := hmoved owner file hplaced
      obtain ⟨home, hhome, -, hhomeFile, hexports⟩ :=
        exists_home_exports hmodules hr hnodup hp
      have howner : p.module = owner := by rw [Placement.module, hplaced]
      obtain rfl : home.file = file := by
        rw [howner, hfile] at hhomeFile
        exact (Except.ok.inj hhomeFile).symm
      refine Or.inr ⟨home, hhome, ?_, hexports, ?_⟩
      · intro heq
        apply hfree path hsymbol owner hsource
        rw [hfile, heq, ← hfinishes.file, hpath]
      · apply mem_reExports hr hnodup hp hfinishes hpath
        rw [Placement.reExport?, hplaced]
        rfl

end Modules

/-- Wherever the symbol of a dispatcher is imported, the import leads to a
module that exports it. -/
theorem dispatcher_imports_resolve
    {symbols : Symbols} {dispatchers : Dispatchers}
    {registries translationKeys blockProperties : Json}
    {modules : List OutputModule}
    (hstart : start symbols dispatchers registries translationKeys
      blockProperties = .ok g) (hrun : runAll g = (.ok modules, g'))
    (hdispatchers : dispatchers.keys.Nodup)
    (hfree : ∀ path ∈ symbols.keys, ∀ source, moduleOf? path = some source →
      importFile source ≠ importFile tablesModule)
    (hnames : ∀ a ∈ dispatchers.keys, ∀ b ∈ dispatchers.keys,
      tableNameOf a = tableNameOf b → a = b) :
    (∀ m ∈ modules, (Import.pairs m.imports).Nodup ∧ ∀ pair,
      pair ∈ Import.pairs m.imports ↔
      ∃ q ∈ (g'.drafts.draft m.path).importPaths,
        importOf? g'.redirects m.path q = .ok (some pair)) ∧
    ∀ registry ∈ dispatchers.keys, (∀ m ∈ modules,
      tablePath (tableNameOf registry) ∈ (g'.drafts.draft m.path).importPaths →
        m.Exports (tableNameOf registry) ∧
            importOf? g'.redirects m.path (tablePath (tableNameOf registry)) =
              .ok none ∨
          ∃ file,
            importOf? g'.redirects m.path (tablePath (tableNameOf registry)) =
              .ok (some (file, tableNameOf registry)) ∧
            (Import.pairs m.imports).count (file, tableNameOf registry) = 1 ∧
            ∃ source ∈ modules, source.file = file ∧
            source.Exports (tableNameOf registry)) ∧
      ∃ shared ∈ modules, shared.path = tablesModule ∧
        (shared.Exports (tableNameOf registry) ∨
          ∃ owner ∈ modules, owner.file ≠ shared.file ∧
            owner.Exports (tableNameOf registry) ∧
            { names := [tableNameOf registry], file := owner.file } ∈
              shared.reExports) := by
  obtain ⟨hfresh, rfl, rfl⟩ := isFresh_start hstart
  obtain ⟨r, hr, hmodules, rfl⟩ := (runAll_eq_ok_iff hfresh).mp hrun
  refine ⟨fun m hm => Record.mem_pairs_iff hmodules hm,
    fun registry hregistry => ?_⟩
  obtain ⟨p, hp, rfl⟩ : ∃ p ∈ r.placements, p.registry = registry := by
    have hmem := Table.mem_sortedKeys.mpr hregistry
    rw [← (placeTables_eq_ok hr.placements).1] at hmem
    exact List.mem_map.mp hmem
  rw [← (hr.placed hdispatchers hp).1]
  constructor
  · intro m hm hcollected
    exact import_resolves hmodules hr hdispatchers hp
      (hr.nodup_tableNames hdispatchers hnames) hm hcollected
  · exact shared_resolves hmodules hr hdispatchers hp hfree

/-- The struct of the small run needs the symbol of the dispatcher that has
moved into its module. -/
theorem dispatcher_imports_resolve_sampleRun :
    start sampleSymbols sampleDispatchers .null .null .null = .ok sampleRun ∧
      ∃ modules g', runAll sampleRun = (.ok modules, g') ∧
        (∃ m ∈ modules, m.path = "::java::a" ∧
          tablePath "SymbolX" ∈ (g'.drafts.draft m.path).importPaths ∧
          m.Exports "SymbolX") ∧
        ∃ shared ∈ modules, shared.path = tablesModule ∧
        (shared.Exports "SymbolX" ∨
          ∃ owner ∈ modules, owner.file ≠ shared.file ∧
            owner.Exports "SymbolX" ∧
            { names := ["SymbolX"], file := owner.file } ∈
              shared.reExports) := by
  have hstart : start sampleSymbols sampleDispatchers .null .null .null =
      .ok sampleRun := rfl
  have hname : tableNameOf "minecraft:x" = "SymbolX" := by decide +kernel
  obtain ⟨modules, hmodules, hrun⟩ := exists_modules_sampleRun
  have hfree :
      ∀ path ∈ sampleSymbols.keys, ∀ source, moduleOf? path = some source →
      importFile source ≠ importFile tablesModule := by
    have hall : ∀ path ∈ sampleSymbols.keys, (moduleOf? path).all fun source =>
        (importFile source).toOption != (importFile tablesModule).toOption := by
          decide +kernel
    intro path hpath source hsource heq
    simpa [hsource, heq] using hall path hpath
  obtain ⟨-, hall⟩ :=
    dispatcher_imports_resolve hstart hrun (by decide) hfree (by decide +kernel)
  obtain ⟨himports, hshared⟩ := hall "minecraft:x" (by decide)
  rw [hname] at himports hshared
  obtain ⟨c, hc, hpath⟩ : ∃ c ∈ sampleRecord.history, c.path = "::java::a" := by
    decide +kernel
  obtain ⟨m, hm, hmodule⟩ := Record.exists_module hmodules hc
  rw [hpath] at hmodule
  have hcollected : tablePath "SymbolX" ∈
      ((sampleRecord.final sampleRun modules).drafts.draft
        m.path).importPaths := by
    rw [importPaths_final, hmodule]
    decide +kernel
  have hown :
      (importOf? sampleRecord.redirects m.path (tablePath "SymbolX")).toOption =
        some none := by
    rw [hmodule]
    decide +kernel
  refine ⟨hstart, modules, _, hrun, ⟨m, hm, hmodule, hcollected, ?_⟩, hshared⟩
  rcases himports m hm hcollected with ⟨hexports, -⟩ | ⟨file, himport, -⟩
  · exact hexports
  · cases hown.symm.trans (congrArg Except.toOption himport)

end Run

end Typings
