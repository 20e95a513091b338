import Typings.Proofs.DeclaredNames
import Typings.Proofs.TableOrder

/-!
Dispatchers that move into a module. The check before a move ignores one
path, that of the symbol of the dispatcher itself, so by the end a module
can declare a name and collect a path to it from elsewhere. Such a path
leads to a dispatcher that has moved into the module, and it is gone once
the paths are redirected.
-/

namespace Typings

/-- No name is declared in the module and brought in from another one. -/
def Draft.IsClear (d : Draft) : Prop :=
  ∀ path ∈ d.importPaths, d.owns path = .ok false →
    lastSegment path ∉ d.aliasNames

/-- The names of a dispatcher are distinct, and it brings in none of them
but its own symbol. -/
structure DispatcherSymbol.IsClear (d : DispatcherSymbol) : Prop where
  distinct : d.names.Nodup
  brought : ∀ path ∈ importedPaths d.imports,
    path ≠ tablePath d.info.tableName → lastSegment path ∉ d.names

instance (d : DispatcherSymbol) : Decidable d.IsClear :=
  decidable_of_iff (d.names.Nodup ∧ ∀ path ∈ importedPaths d.imports,
    path ≠ tablePath d.info.tableName →
    lastSegment path ∉ d.names) ⟨fun h => ⟨h.1, h.2⟩,
    fun h => ⟨h.distinct, h.brought⟩⟩

/-- Whether the dispatchers are clear can be evaluated. -/
theorem forall_isClear {env : Environment} {dispatchers : Dispatchers}
    (h : ∀ registry ∈ dispatchers.keys,
      ∀ d ∈ (DispatcherSymbol.build env registry
      ((dispatchers.get? registry).getD {})).toOption, d.IsClear) :
    ∀ registry ∈ dispatchers.keys, ∀ d, DispatcherSymbol.build env registry
      ((dispatchers.get? registry).getD {}) = .ok d → d.IsClear :=
  fun registry hregistry d hd =>
    h registry hregistry d (toOption_eq_some_iff.mpr hd)

instance (d : Draft) : Decidable d.IsClear :=
  decidable_of_iff (∀ path ∈ d.importPaths,
      (d.owns path).toOption = some false → lastSegment path ∉ d.aliasNames)
    (by simp only [toOption_eq_some_iff]; rfl)

theorem Draft.owns_eq_ok_false_iff {d : Draft} {path : String} :
    d.owns path = .ok false ↔
      ∃ source name, splitPath path = .ok (source, name) ∧ source ≠ d.path := by
  rw [owns, bind_eq_ok_iff, Prod.exists]
  simp [pure_eq_ok_iff]

namespace Run

theorem mem_importedPaths_block {path : String} {d : DispatcherSymbol}
    {q : String} :
    (∃ c ∈ block path d, q ∈ importedPaths c.imports) ↔
      q ∈ importedPaths d.imports := by
  have hsome : d.declarations ≠ [] := by simp [DispatcherSymbol.declarations]
  obtain ⟨first, rest, hd⟩ := List.exists_cons_of_ne_nil hsome
  rw [block, hd]
  simp [aliasTo, importedPaths]

/-- A dispatcher takes its imports to the module that it goes to. -/
theorem mem_importedPaths_contributions {p : Placement} {path q : String} :
    (∃ c ∈ p.contributions, c.path = path ∧ q ∈ importedPaths c.imports) ↔
      p.module = path ∧ q ∈ importedPaths p.symbol.imports := by
  have hblock : ∀ home,
      (∃ c ∈ block home p.symbol, c.path = path ∧ q ∈ importedPaths c.imports) ↔
      home = path ∧ q ∈ importedPaths p.symbol.imports := by
    intro home
    rw [← @mem_importedPaths_block home]
    constructor
    · rintro ⟨c, hc, hpath, hq⟩
      exact ⟨(path_of_mem_block c hc).symm.trans hpath, c, hc, hq⟩
    · rintro ⟨hpath, c, hc, hq⟩
      exact ⟨c, hc, (path_of_mem_block c hc).trans hpath, hq⟩
  rw [Placement.contributions, Placement.module]
  cases p.home with
  | none => exact hblock tablesModule
  | some home =>
      rw [← hblock home.1]
      simp [reExportOf, importedPaths]

section Placed

variable {history : List Contribution} {path : String}

theorem mem_importPaths_place {p : Placement} {q : String} :
    q ∈ (History.draft (history ++ p.contributions) path).importPaths ↔
      q ∈ (History.draft history path).importPaths ∨
        p.module = path ∧ q ∈ importedPaths p.symbol.imports := by
  rw [Draft.importPaths_eq, Draft.importPaths_eq, History.imports_draft.2,
    History.imports_draft.2, ← mem_importedPaths_contributions]
  simp only [List.mem_append, or_and_right, exists_or]

theorem aliasNames_draft_place (p : Placement) :
    (History.draft (history ++ p.contributions) path).aliasNames =
      (History.draft history path).aliasNames ++
        if p.module = path then p.symbol.names else [] := by
  have hone := aliasNames_draft_placed history [p] path
  rw [List.flatMap_singleton] at hone
  rw [hone]
  by_cases hmodule : p.module = path
  · simp [hmodule]
  · simp [hmodule]

theorem owns_draft {history' : List Contribution} (q : String) :
    (History.draft history path).owns q =
      (History.draft history' path).owns q := by
  rw [Draft.owns, Draft.owns, History.path_draft, History.path_draft]

/-- What is declared in the module and brought in from another one is the symbol
of a dispatcher that has moved into the module. -/
def OnlyMoved (history : List Contribution) (path : String)
    (ps : List Placement) : Prop :=
  ∀ q ∈ (History.draft history path).importPaths,
    (History.draft history path).owns q = .ok false →
    lastSegment q ∈ (History.draft history path).aliasNames →
      ∃ p ∈ ps, p.module = path ∧ q = tablePath p.symbol.info.tableName

/-- One more dispatcher that fits keeps the module clear but
for its own symbol. -/
theorem OnlyMoved.place {ps : List Placement}
    (h : OnlyMoved history path ps) {p : Placement}
    (hfits : p.module = path → p.symbol.Fits (History.draft history path))
    (hclear : p.symbol.IsClear) :
    OnlyMoved (history ++ p.contributions) path (ps ++ [p]) := by
  intro q hq howns hname
  rw [owns_draft] at howns
  rw [aliasNames_draft_place, List.mem_append] at hname
  have hearlier : q ∈ (History.draft history path).importPaths →
      lastSegment q ∈ (History.draft history path).aliasNames →
        ∃ p' ∈ ps ++ [p], p'.module = path ∧
          q = tablePath p'.symbol.info.tableName := by
    intro hq hname
    obtain ⟨p', hp', hmoved⟩ := h q hq howns hname
    exact ⟨p', List.mem_append_left _ hp', hmoved⟩
  by_cases hmodule : p.module = path
  · rw [if_pos hmodule] at hname
    by_cases hown : q = tablePath p.symbol.info.tableName
    · exact ⟨p, List.mem_append_right _ (List.mem_singleton_self p),
        hmodule, hown⟩
    · -- The path or the name was there before, or both come with the
      -- dispatcher.
      have hfits := hfits hmodule
      rcases mem_importPaths_place.mp hq with hq | ⟨-, hq⟩
      · rcases hname with hname | hname
        · exact hearlier hq hname
        · exact absurd hname (hfits.imported q hq hown howns)
      · rcases hname with hname | hname
        · exact absurd hname (hfits.brought q hq hown howns)
        · exact absurd hname (hclear.brought q hq hown)
  · rw [if_neg hmodule] at hname
    have hq :=
      (mem_importPaths_place.mp hq).resolve_right fun hnew => hmodule hnew.1
    exact hearlier hq (hname.resolve_right List.not_mem_nil)

theorem onlyMoved_placed {ps : List Placement}
    (h : (History.draft history path).IsClear)
    (hfits : ∀ front p back, ps = front ++ p :: back → p.module = path →
      p.symbol.Fits
        (History.draft (history ++ front.flatMap (·.contributions)) path))
    (hclear : ∀ p ∈ ps, p.symbol.IsClear) :
    OnlyMoved (history ++ ps.flatMap (·.contributions)) path ps := by
  induction ps using List.reverseRecOn with
  | nil =>
      rw [List.flatMap_nil, List.append_nil]
      exact fun q hq howns hname => absurd hname (h q hq howns)
  | append_singleton front p ih =>
      rw [List.flatMap_append, List.flatMap_singleton, ← List.append_assoc]
      refine OnlyMoved.place ?_ (hfits front p [] rfl) (hclear p (by simp))
      refine ih (fun before q after hsplit => ?_)
        (fun q hq => hclear q (List.mem_append_left _ hq))
      exact hfits before q (after ++ [p]) (by rw [hsplit]; simp)

end Placed

section Modules

variable {g : Run} {r : Record} {path : String}

/-- Only the object of all dispatchers comes after them, and it is not
for this module. -/
theorem draft_history (hne : path ≠ tablesModule) :
    History.draft r.history path =
    History.draft (r.registryPart ++ r.symbolPart ++
      r.placements.flatMap (·.contributions)) path := by
  have hcatalogue :
      [catalogueOf r.placements].filter (·.path == path) = [] := by
    simp [catalogueOf, Ne.symm hne]
  simp only [History.draft, Record.history, Record.tablePart,
    List.filter_append, hcatalogue, List.append_nil]

theorem Record.Describes.onlyMoved (hr : r.Describes g)
    (hclear : ∀ p ∈ r.placements, p.symbol.IsClear) (hne : path ≠ tablesModule)
    (hdraft : (History.draft (r.registryPart ++ r.symbolPart) path).IsClear) :
    OnlyMoved r.history path r.placements := by
  rw [OnlyMoved, draft_history hne]
  exact onlyMoved_placed hdraft
    (fun front p back hsplit hmodule =>
      fits_of_placeTables hr.placements hne hsplit hmodule) hclear

/-- What is imported comes from a path to another module with the same name. -/
theorem Record.Describes.foreign_of_importOf? (hr : r.Describes g)
    (hdispatchers : g.dispatchers.keys.Nodup)
    (hnames : (r.placements.map fun p => p.symbol.info.tableName).Nodup)
    (hne : path ≠ tablesModule) {q file name : String}
    (h : importOf? r.redirects path q = .ok (some (file, name))) :
    ∃ source, splitPath q = .ok (source, name) ∧ source ≠ path := by
  by_cases htable : ∃ p ∈ r.placements, q = tablePath p.symbol.info.tableName
  · obtain ⟨p, hp, rfl⟩ := htable
    have htableName := (hr.placed hdispatchers hp).1
    rcases (importOf?_tablePath hp hr hdispatchers hnames).mp h with ⟨-,
      hnone⟩ | ⟨-, file', -, hsome⟩
    · cases hnone
    · cases hsome
      refine ⟨tablesModule, ?_, hne.symm⟩
      rw [htableName]
      exact splitPath_tableNameOf tablesModule p.registry
  · have hstays : redirected r.redirects q = q := by
      rw [redirected, Record.redirects,
        get?_foldl_redirect_of_ne fun p hp heq => htable ⟨p, hp, heq⟩]
      rfl
    obtain ⟨source, name', hsplit, ⟨-, hnone⟩ | ⟨hforeign, file', -, hsome⟩⟩ :=
      importOf?_eq_ok_iff.mp h
    · cases hnone
    · cases hsome
      rw [hstays] at hsplit
      exact ⟨source, hsplit, hforeign⟩

/-- A module that was clear before the dispatchers were placed imports nothing
that it declares. -/
theorem Record.Describes.not_declared_of_imported (hr : r.Describes g)
    (hdispatchers : g.dispatchers.keys.Nodup)
    (hnames : (r.placements.map fun p => p.symbol.info.tableName).Nodup)
    (hclear : ∀ p ∈ r.placements, p.symbol.IsClear)
    {modules : List OutputModule} (hmodules : r.modules = .ok modules)
    {m : OutputModule} (hm : m ∈ modules) (hne : m.path ≠ tablesModule)
    (hdraft : (History.draft (r.registryPart ++ r.symbolPart) m.path).IsClear)
    {file name : String} (himported : (file, name) ∈ Import.pairs m.imports) :
    name ∉ m.aliases.map (·.name) := by
  have hfinishes := Record.finishes hmodules hm
  obtain ⟨-, -, hpairs⟩ := finishedImports_eq_ok hfinishes.imports
  obtain ⟨q, hq, hfound⟩ := (hpairs (file, name)).mp himported
  obtain ⟨source, hsplit, hforeign⟩ :=
    hr.foreign_of_importOf? hdispatchers hnames hne hfound
  rw [OutputModule.names_aliases, hfinishes.declarations,
    ← History.declarations_draft]
  intro hname
  rw [← lastSegment_of_splitPath hsplit] at hname
  have howns : (History.draft r.history m.path).owns q = .ok false :=
    Draft.owns_eq_ok_false_iff.mpr ⟨source, name,
      hsplit, by rw [History.path_draft]; exact hforeign⟩
  rw [History.collected, ← Draft.importPaths_eq] at hq
  obtain ⟨p, hp, hmodule, rfl⟩ :=
    hr.onlyMoved hclear hne hdraft q hq howns hname
  -- The dispatcher has moved here, so the path leads to the module itself.
  rcases (importOf?_tablePath hp hr hdispatchers hnames).mp hfound with ⟨-,
    hnone⟩ | ⟨haway, -⟩
  · cases hnone
  · exact haway hmodule

end Modules

/-- Moving dispatchers into modules lets no two names meet. A module that is
clear before they are placed declares no name that it imports once it is
finished, and its names are distinct exactly if they were. -/
theorem inlining_keeps_clear {symbols : Symbols} {dispatchers : Dispatchers}
    {registries translationKeys blockProperties : Json}
    {g before after g' : Run} {modules : List OutputModule}
    (hstart : start symbols dispatchers registries translationKeys
      blockProperties = .ok g)
    (hearly : (do declareRegistries; noteDispatchers : Step Unit) g =
      (.ok ⟨⟩, before))
    (hcompile : compileSymbols before = (.ok ⟨⟩, after))
    (hrun : runAll g = (.ok modules, g'))
    (hdispatchers : dispatchers.keys.Nodup)
    (hnames : ∀ a ∈ dispatchers.keys, ∀ b ∈ dispatchers.keys,
      tableNameOf a = tableNameOf b → a = b)
    (hclear : ∀ registry ∈ dispatchers.keys, ∀ d,
      DispatcherSymbol.build after.books.env registry
      ((dispatchers.get? registry).getD {}) = .ok d → d.IsClear)
    {m : OutputModule} (hm : m ∈ modules) (hne : m.path ≠ tablesModule)
    (hafter : (after.drafts.draft m.path).IsClear) :
    (∀ i ∈ m.imports, ∀ name ∈ i.names, name ∉ m.aliases.map (·.name)) ∧
      ((m.aliases.map (·.name)).Nodup ↔
        (after.drafts.draft m.path).aliasNames.Nodup) := by
  obtain ⟨hfresh, rfl, rfl⟩ := isFresh_start hstart
  obtain ⟨r, hr, hmodules, -⟩ := (runAll_eq_ok_iff hfresh).mp hrun
  obtain ⟨hearly', hcompile'⟩ := hr.toDescribes.phases hfresh
  obtain ⟨-, rfl⟩ := Prod.mk.inj (hearly'.symm.trans hearly)
  obtain ⟨-, rfl⟩ := Prod.mk.inj (hcompile'.symm.trans hcompile)
  rw [Survey.draft_halfway] at hafter ⊢
  rw [Survey.env_halfway] at hclear
  have hplaced : ∀ p ∈ r.placements, p.symbol.IsClear := by
    intro p hp
    obtain ⟨hregistries, hall⟩ := placeTables_eq_ok hr.placements
    obtain ⟨front, back, hsplit⟩ := List.append_of_mem hp
    have hregistry : p.registry ∈ g.dispatchers.sortedKeys :=
      hregistries ▸ List.mem_map_of_mem hp
    exact hclear p.registry (Table.mem_sortedKeys.mp hregistry) _
      (placeTable_eq_ok (hall front p back hsplit)).2.1
  constructor
  · intro i hi name hname
    have hpair : (i.file, name) ∈ Import.pairs m.imports :=
      Import.mem_pairs.mpr ⟨i, hi, rfl, hname⟩
    exact hr.not_declared_of_imported hdispatchers
      (hr.nodup_tableNames hdispatchers hnames) hplaced hmodules hm
      hne hafter hpair
  · rw [hr.nodup_module_iff hdispatchers hmodules hm hne]
    exact and_iff_left fun p hp _ => (hplaced p hp).distinct

/-- The dispatcher of the small run moves into the module that refers to it. -/
theorem inlining_keeps_clear_sampleRun :
    start sampleSymbols sampleDispatchers .null .null .null = .ok sampleRun ∧
      ∃ modules g', runAll sampleRun = (.ok modules, g') ∧
      ∃ m ∈ modules, m.path = "::java::a" ∧
        "SymbolX" ∈ m.aliases.map (·.name) ∧ (m.aliases.map (·.name)).Nodup ∧
        ∀ i ∈ m.imports, ∀ name ∈ i.names, name ∉ m.aliases.map (·.name) := by
  have hstart : start sampleSymbols sampleDispatchers .null .null .null =
      .ok sampleRun := rfl
  obtain ⟨modules, hmodules, hrun⟩ := exists_modules_sampleRun
  obtain ⟨hearly, hcompile⟩ :=
    describes_sampleRun.toDescribes.phases ⟨rfl, rfl, rfl, rfl, rfl⟩
  obtain ⟨c, hc, hpath⟩ : ∃ c ∈ sampleRecord.history, c.path = "::java::a" := by
    decide +kernel
  obtain ⟨m, hm, hmodule⟩ := Record.exists_module hmodules hc
  rw [hpath] at hmodule
  have hafter :
      ((sampleRecord.halfway sampleRun).drafts.draft "::java::a").IsClear := by
    decide +kernel
  obtain ⟨himports, hdistinct⟩ := inlining_keeps_clear hstart hearly hcompile
    hrun (by decide) (by decide +kernel) (forall_isClear (by decide +kernel)) hm
    (by rw [hmodule]; decide) (hmodule ▸ hafter)
  rw [hmodule] at hdistinct
  refine ⟨hstart, modules, _, hrun, m, hm, hmodule, ?_,
    hdistinct.mpr (by decide +kernel), himports⟩
  rw [OutputModule.names_aliases,
    (Record.finishes hmodules hm).declarations, hmodule]
  decide +kernel

/-- A symbol with the name of the object that its module begins with. It refers
to a dispatcher, which moves in. -/
def echoSymbols : Symbols :=
  ⟨[("::java::registry::Registry",
    { type := .dispatcher (.str "minecraft:x") [.static (.str "k")] [] })]⟩

def echoDispatchers : Dispatchers :=
  ⟨[("minecraft:x", ⟨[("k", .string none [])]⟩)]⟩

theorem describes_echoRun :
    (plainRecord echoSymbols echoDispatchers ["minecraft:x"]).Describes
    (plainRun echoSymbols echoDispatchers) := by
  have hkeys : echoDispatchers.sortedKeys = ["minecraft:x"] := by
    simp [echoDispatchers, Table.sortedKeys, Table.keys]
  exact describes_plainRun rfl hkeys (by decide +kernel) (by decide +kernel)
    (by decide +kernel) (by decide +kernel)

/-- That a module is clear before the dispatchers are placed does not keep
its names apart. -/
theorem clear_module_repeats_name : ∃ g before after modules g',
    start echoSymbols echoDispatchers .null .null .null = .ok g ∧
      (do declareRegistries; noteDispatchers : Step Unit) g = (.ok ⟨⟩, before) ∧
      compileSymbols before = (.ok ⟨⟩, after) ∧ runAll g = (.ok modules, g') ∧
      (∀ a ∈ echoDispatchers.keys, ∀ b ∈ echoDispatchers.keys,
        tableNameOf a = tableNameOf b → a = b) ∧
      (∀ registry ∈ echoDispatchers.keys, ∀ d,
        DispatcherSymbol.build after.books.env registry
        ((echoDispatchers.get? registry).getD {}) = .ok d → d.IsClear) ∧
      ∃ m ∈ modules, m.path ≠ tablesModule ∧
      (after.drafts.draft m.path).IsClear ∧
        ¬ (m.aliases.map (·.name)).Nodup := by
  obtain ⟨hearly, hcompile⟩ :=
    describes_echoRun.toDescribes.phases ⟨rfl, rfl, rfl, rfl, rfl⟩
  have hcatalogue := describes_echoRun.dispatcherCatalogue_eq (by decide)
  obtain ⟨modules, hmodules, hrun⟩ :=
    describes_echoRun.exists_modules ⟨rfl, rfl, rfl, rfl, rfl⟩ (by
    rw [Record.history, Record.tablePart, catalogueOf, hcatalogue]
    decide +kernel)
  obtain ⟨c, hc, hpath⟩ :
      ∃ c ∈ (plainRecord echoSymbols echoDispatchers ["minecraft:x"]).history,
      c.path = registriesModule := by decide +kernel
  obtain ⟨m, hm, hmodule⟩ := Record.exists_module hmodules hc
  rw [hpath] at hmodule
  have hne : m.path ≠ tablesModule := by
    rw [hmodule]
    decide
  refine ⟨_, _, _, modules, _, rfl, hearly, hcompile, hrun, by decide +kernel,
    forall_isClear (by decide +kernel), m, hm, hne, ?_, fun hnodup => ?_⟩
  · rw [hmodule]
    decide +kernel
  have hbefore := ((describes_echoRun.nodup_module_iff (by decide) hmodules hm
    hne).mp hnodup).1
  rw [hmodule] at hbefore
  exact absurd hbefore (by decide +kernel)

end Run

end Typings
