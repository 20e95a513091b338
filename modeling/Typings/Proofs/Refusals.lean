import Typings.Proofs.Closing
import Typings.Proofs.Inlining

/-!
Dispatchers that are kept out of the module that they belong to. The check
before a move reads the paths as they were collected, and a path to a dispatcher
that has moved into the module still looks like one to another module. Such a
path is the one reason to refuse a dispatcher whose names would meet no others.
-/

namespace Typings

/-- A name is declared twice, or both declared and imported. -/
def OutputModule.Conflicts (m : OutputModule) : Prop :=
  ¬ (m.aliases.map (·.name)).Nodup ∨ ∃ i ∈ m.imports, ∃ name ∈ i.names,
    name ∈ m.aliases.map (·.name)

instance (m : OutputModule) : Decidable m.Conflicts :=
  inferInstanceAs (Decidable (_ ∨ _))

/-- The path leads out of the module, and into it once it is redirected. -/
def TurnsLocal (redirects : Table String) (owner path : String) : Prop :=
  moduleOf? path ≠ some owner ∧
    moduleOf? (redirected redirects path) = some owner

instance (redirects : Table String) (owner path : String) :
    Decidable (TurnsLocal redirects owner path) :=
  inferInstanceAs (Decidable (_ ∧ _))

/-- A clash is between a name of the dispatcher and one of the module. -/
theorem Run.not_fits_of_clashes {draft : Draft} {d : DispatcherSymbol}
    (h : clashes draft d = .ok true) :
    ¬ d.Fits draft := by
  obtain ⟨imported, himported, h⟩ := bind_eq_ok_iff.mp h
  obtain ⟨brought, hbrought, h⟩ := bind_eq_ok_iff.mp h
  have hpaths : draft.foreignNames [tablePath d.info.tableName]
      (importedPaths d.imports) = .ok brought := by
    rw [← hbrought]
    cases d.imports <;> rfl
  have hclash := pure_eq_ok_iff.mp h
  rw [Bool.or_eq_true, List.any_eq_true, List.any_eq_true] at hclash
  intro hfits
  rcases hclash with ⟨a, ha, htwice⟩ | ⟨name, hname, hdeclared⟩
  · have hname : a.name ∈ d.names := List.mem_map_of_mem ha
    rw [Bool.or_eq_true, List.contains_iff_mem, List.contains_iff_mem] at htwice
    rcases htwice with hdeclared | hforeign
    · exact hfits.declared a.name hname hdeclared
    · obtain ⟨path, hpath, hne, howns, hlast⟩ :=
        (Draft.mem_foreignNames himported).mp hforeign
      exact hfits.imported path hpath (by simpa using hne) howns (hlast ▸ hname)
  · obtain ⟨path, hpath, hne, howns, rfl⟩ :=
      (Draft.mem_foreignNames hpaths).mp hname
    exact hfits.brought path hpath (by simpa using hne) howns
      (List.contains_iff_mem.mp hdeclared)

namespace Run

/-- Runs up to the point where the given dispatchers have been placed. -/
def placeFirst (registries : List String) : Step Unit := do
  declareRegistries
  noteDispatchers
  compileSymbols
  tell (.resolving .tables)
  let _ ← openDraft tablesModule
  let _ ← registries.mapM fun registry =>
    do return (registry, ← compileTable registry)

/-- The module as it would be finished if the dispatcher moved into it now. -/
def moduleWith (owner : String) (d : DispatcherSymbol) : Step OutputModule := do
  let symbol := d.info.tableName
  modify fun g => { g with
    redirects := g.redirects.put (tablePath symbol) (owner ++ "::" ++ symbol) }
  declareAll owner d
  compute (((← get).drafts.draft owner).toModule (← get).redirects)

section Middle

variable {env : Environment} {dispatchers : Dispatchers} {refs : List Reference}
  {history : List Contribution}

/-- Dispatchers are placed after those before them. -/
theorem placeTables_append {front back : List String} {ps : List Placement}
    (h : placeTables env dispatchers refs history (front ++ back) = .ok ps) :
    ∃ qs rs, ps = qs ++ rs ∧
      placeTables env dispatchers refs history front = .ok qs ∧
      placeTables env dispatchers refs (history ++ qs.flatMap (·.contributions))
        back = .ok rs := by
  induction front generalizing history ps with
  | nil => exact ⟨[], ps, rfl, rfl, by simpa using h⟩
  | cons registry rest ih =>
      obtain ⟨p, hp, h⟩ := bind_eq_ok_iff.mp h
      obtain ⟨more, hmore, h⟩ := bind_eq_ok_iff.mp h
      obtain rfl := pure_eq_ok_iff.mp h
      obtain ⟨qs, rs, rfl, hqs, hrs⟩ := ih hmore
      refine ⟨p :: qs, rs, rfl,
        bind_eq_ok_iff.mpr ⟨p, hp, bind_eq_ok_iff.mpr ⟨qs, hqs, rfl⟩⟩, ?_⟩
      rw [List.flatMap_cons, ← List.append_assoc]
      exact hrs

/-- A dispatcher with an owner is kept out exactly if it does not fit there. -/
theorem home_eq_none_iff {registry owner : String} {p : Placement}
    (h : placeTable env dispatchers refs history registry = .ok p)
    (howner : Bookkeeping.ownerBy refs registry = some owner) :
    p.home = none ↔ ¬ p.symbol.Fits (History.draft history owner) := by
  obtain ⟨d, -, h⟩ := bind_eq_ok_iff.mp h
  obtain ⟨home?, hhome, h⟩ := bind_eq_ok_iff.mp h
  rw [chooseHome, howner] at hhome
  obtain ⟨clash, hclash, hhome⟩ := bind_eq_ok_iff.mp hhome
  cases clash with
  | true =>
      cases hhome
      cases h
      exact iff_of_true rfl (not_fits_of_clashes hclash)
  | false =>
      cases hhome
      obtain ⟨file, -, h⟩ := bind_eq_ok_iff.mp h
      cases h
      exact iff_of_false (Option.some_ne_none _)
        (not_not.mpr (fits_of_clashes hclash))

theorem env_foldl_place {g : Run} (ps : List Placement) :
    (ps.foldl place g).books.env = g.books.env := by
  induction ps generalizing g with
  | nil => rfl
  | cons p rest ih =>
      rw [List.foldl_cons, ih]
      exact env_place p

variable {g : Run} {r : Survey}

/-- The run with the shared module open for dispatchers. -/
def Survey.opened (r : Survey) (g : Run) : Run :=
  { (r.halfway g).begun .tables with
    drafts := (r.halfway g).drafts.ensure tablesModule }

theorem Survey.Describes.tracks_opened (hr : r.Describes g) :
    Tracks r.references (r.registryPart ++ r.symbolPart) (r.opened g) := by
  have hbegun : Tracks r.references (r.registryPart ++ r.symbolPart)
      ((r.halfway g).begun .tables) :=
    { hr.tracks_halfway with }
  exact hbegun.ensure tablesModule

theorem Survey.Describes.placeFirst_eq (hr : r.Describes g) (hfresh : g.IsFresh)
    {front : List String} {ps : List Placement}
    (hps : placeTables (r.env g.books.env.symbols) g.dispatchers r.references
      (r.registryPart ++ r.symbolPart) front = .ok ps) :
    placeFirst front g = (.ok ⟨⟩, ps.foldl place (r.opened g)) := by
  obtain ⟨hearly, hsymbols⟩ := hr.phases hfresh
  obtain ⟨⟨⟩, g₁, h₁, h₂⟩ := Step.bind_eq_ok_iff.mp hearly
  have hopen : ((r.halfway g).begun .tables).drafts.IsOpen :=
    hr.tracks_halfway.isOpen
  have hplaced := (mapM_compileTable_eq_ok_iff hr.tracks_opened).mpr
    ⟨ps, by rw [← Survey.env_halfway] at hps; exact hps, rfl, rfl⟩
  rw [placeFirst, Step.bind_of_ok h₁, Step.bind_of_ok h₂,
    Step.bind_of_ok hsymbols, tell, Step.modify_bind]
  exact (Step.bind_of_ok (openDraft_eq hopen tablesModule)).trans
    (Step.bind_of_ok hplaced)

end Middle

section Trial

variable {history : List Contribution} {owner : String} {d : DispatcherSymbol}

theorem Tracks.moduleWith_eq {refs : List Reference} {g : Run}
    (h : Tracks refs history g) (owner : String) (d : DispatcherSymbol) :
    (moduleWith owner d g).1 =
      (History.draft (history ++ block owner d) owner).toModule
      (g.redirects.put (tablePath d.info.tableName)
        (owner ++ "::" ++ d.info.tableName)) := by
  have htracks := h.redirect (g.redirects.put (tablePath d.info.tableName)
    (owner ++ "::" ++ d.info.tableName))
  have hdraft := (htracks.extend (block owner d)).draft owner
  rw [moduleWith, Step.modify_bind,
    Step.bind_of_ok (declareAll_eq htracks.isOpen owner d), ← hdraft]
  rfl

theorem aliasNames_draft_block :
    (History.draft (history ++ block owner d) owner).aliasNames =
    (History.draft history owner).aliasNames ++ d.names := by
  change aliasNames _ = aliasNames _ ++ _
  rw [History.declarations_draft, History.declarations_draft,
    List.filter_append, List.map_append, aliasNames_append, filter_block,
    if_pos rfl, declarations_block, aliasNames_map_typeAlias]
  rfl

theorem mem_importPaths_draft_block {q : String} :
    q ∈ (History.draft (history ++ block owner d) owner).importPaths ↔
      q ∈ (History.draft history owner).importPaths ∨
        q ∈ importedPaths d.imports := by
  rw [Draft.importPaths_eq, Draft.importPaths_eq, History.imports_draft.2,
    History.imports_draft.2, ← @mem_importedPaths_block owner]
  simp only [List.mem_append, or_and_right, exists_or]
  refine or_congr_right (exists_congr fun c => and_congr_right fun hc => ?_)
  rw [and_iff_right (path_of_mem_block c hc)]

/-- What the module has collected with the dispatcher, and which
of it conflicts. -/
theorem conflicts_iff {redirects : Table String} {m : OutputModule}
    (hm : (History.draft (history ++ block owner d) owner).toModule redirects =
      .ok m) :
    (∀ q, q ∈ (History.draft history owner).importPaths ∨
      q ∈ importedPaths d.imports →
      ∃ found, importOf? redirects owner q = .ok found) ∧
    (m.Conflicts ↔
      ¬ ((History.draft history owner).aliasNames ++ d.names).Nodup ∨
      ∃ q, (q ∈ (History.draft history owner).importPaths ∨
          q ∈ importedPaths d.imports) ∧ ∃ file name,
        importOf? redirects owner q = .ok (some (file, name)) ∧
          name ∈ (History.draft history owner).aliasNames ++ d.names) := by
  obtain ⟨rfl, hfinishes⟩ := History.toModule_eq_ok_iff.mp hm
  obtain ⟨-, hok, hpairs⟩ := finishedImports_eq_ok hfinishes.imports
  have hnames : m.aliases.map (·.name) =
      (History.draft history m.path).aliasNames ++ d.names := by
    rw [OutputModule.names_aliases, hfinishes.declarations,
      ← History.declarations_draft]
    exact aliasNames_draft_block
  simp only [History.collected, ← Draft.importPaths_eq,
    mem_importPaths_draft_block] at hok hpairs
  refine ⟨hok, ?_⟩
  rw [OutputModule.Conflicts, hnames]
  refine or_congr_right ?_
  constructor
  · rintro ⟨i, hi, name, hname, hdeclared⟩
    obtain ⟨q, hq, hfound⟩ :=
      (hpairs (i.file, name)).mp (Import.mem_pairs.mpr ⟨i, hi, rfl, hname⟩)
    exact ⟨q, hq, i.file, name, hfound, hdeclared⟩
  · rintro ⟨q, hq, file, name, hfound, hdeclared⟩
    obtain ⟨i, hi, -, hname⟩ :=
      Import.mem_pairs.mp ((hpairs (file, name)).mpr ⟨q, hq, hfound⟩)
    exact ⟨i, hi, name, hname, hdeclared⟩

end Trial

section Redirects

/-- Every dispatcher is named after its registry, and no two
have the same name. -/
structure NamedApart (ps : List Placement) : Prop where
  distinct : (ps.map fun p => p.symbol.info.tableName).Nodup
  tableName : ∀ p ∈ ps, p.symbol.info.tableName = tableNameOf p.registry
  symbol : ∀ p ∈ ps, p.symbol.symbol.name = p.symbol.info.tableName

theorem NamedApart.front {front back : List Placement}
    (h : NamedApart (front ++ back)) : NamedApart front where
  distinct := by
    have hdistinct := h.distinct
    rw [List.map_append] at hdistinct
    exact (List.nodup_append.mp hdistinct).1
  tableName p hp := h.tableName p (List.mem_append_left _ hp)
  symbol p hp := h.symbol p (List.mem_append_left _ hp)

/-- Where the last of the dispatchers has gone does not matter. -/
theorem NamedApart.rehome {front : List Placement} {p : Placement}
    (h : NamedApart (front ++ [p])) (home : Option (String × String)) :
    NamedApart (front ++ [{ p with home }]) where
  distinct := by
    have hdistinct := h.distinct
    rw [List.map_append] at hdistinct ⊢
    exact hdistinct
  tableName := List.forall_mem_append.mpr
    ⟨h.front.tableName, List.forall_mem_singleton.mpr (h.tableName p (by simp))⟩
  symbol := List.forall_mem_append.mpr ⟨h.front.symbol,
    List.forall_mem_singleton.mpr (h.symbol p (by simp))⟩

theorem NamedApart.ne_last {front : List Placement} {p p' : Placement}
    (h : NamedApart (front ++ [p])) (hp' : p' ∈ front) :
    p'.symbol.info.tableName ≠ p.symbol.info.tableName := by
  have hdistinct := h.distinct
  rw [List.map_append] at hdistinct
  exact (List.nodup_append.mp hdistinct).2.2 _ (List.mem_map_of_mem hp') _
    (List.mem_singleton_self _)

variable {ps : List Placement}

theorem redirected_foldl_of_ne {q : String}
    (h : ∀ p ∈ ps, q ≠ tablePath p.symbol.info.tableName) :
    redirected (ps.foldl Placement.redirect {}) q = q := by
  rw [redirected, get?_foldl_redirect_of_ne h]
  rfl

variable (hps : NamedApart ps)

include hps

theorem redirected_foldl_tablePath {p : Placement} (hp : p ∈ ps) :
    redirected (ps.foldl Placement.redirect {})
      (tablePath p.symbol.info.tableName) =
      p.module ++ "::" ++ p.symbol.info.tableName := by
  rw [redirected, get?_foldl_redirect hp hps.distinct, Placement.module]
  cases p.home with
  | none => rfl
  | some home => rfl

theorem splitPath_redirected {p : Placement} (hp : p ∈ ps) :
    splitPath (redirected (ps.foldl Placement.redirect {})
        (tablePath p.symbol.info.tableName)) =
      .ok (p.module, p.symbol.info.tableName) := by
  rw [redirected_foldl_tablePath hps hp, hps.tableName p hp]
  exact splitPath_tableNameOf p.module p.registry

theorem splitPath_tablePath {p : Placement} (hp : p ∈ ps) :
    splitPath (tablePath p.symbol.info.tableName) =
      .ok (tablesModule, p.symbol.info.tableName) := by
  rw [hps.tableName p hp]
  exact splitPath_tableNameOf tablesModule p.registry

/-- The paths that turn local are those to dispatchers that have moved
into the module. -/
theorem turnsLocal_iff {owner q : String} :
    TurnsLocal (ps.foldl Placement.redirect {}) owner q ↔
    owner ≠ tablesModule ∧ ∃ p ∈ ps, p.module = owner ∧
      q = tablePath p.symbol.info.tableName := by
  constructor
  · rintro ⟨houtside, hinside⟩
    by_cases htable : ∃ p ∈ ps, q = tablePath p.symbol.info.tableName
    · obtain ⟨p, hp, rfl⟩ := htable
      rw [moduleOf?_of_splitPath (splitPath_redirected hps hp)] at hinside
      rw [moduleOf?_of_splitPath (splitPath_tablePath hps hp)] at houtside
      exact ⟨fun heq => houtside (heq ▸ rfl), p, hp,
        Option.some.inj hinside, rfl⟩
    · rw [redirected_foldl_of_ne fun p hp heq => htable ⟨p, hp, heq⟩] at hinside
      exact absurd hinside houtside
  · rintro ⟨hne, p, hp, rfl, rfl⟩
    refine ⟨?_, moduleOf?_of_splitPath (splitPath_redirected hps hp)⟩
    rw [moduleOf?_of_splitPath (splitPath_tablePath hps hp)]
    exact fun heq => hne (Option.some.inj heq).symm

/-- A path with a module is imported, wherever its symbol has moved. -/
theorem exists_importOf?_redirected {owner q : String}
    (hrooted : ∀ p ∈ ps, p.module ≠ owner → IsRooted p.module)
    (hsource : ∃ source name, splitPath q = .ok (source, name) ∧
      IsRooted source) :
    ∃ found, importOf? (ps.foldl Placement.redirect {}) owner q =
      .ok found := by
  have hmoved :
      ∃ source name, splitPath (redirected (ps.foldl Placement.redirect {}) q) =
        .ok (source, name) ∧
      (source ≠ owner → IsRooted source) := by
    by_cases htable : ∃ p ∈ ps, q = tablePath p.symbol.info.tableName
    · obtain ⟨p, hp, rfl⟩ := htable
      exact ⟨p.module, _, splitPath_redirected hps hp, hrooted p hp⟩
    · obtain ⟨source, name, hsplit, hsource⟩ := hsource
      rw [redirected_foldl_of_ne fun p hp heq => htable ⟨p, hp, heq⟩]
      exact ⟨source, name, hsplit, fun _ => hsource⟩
  obtain ⟨source, name, hsplit, hsource⟩ := hmoved
  rw [exists_importOf?_iff]
  refine ⟨exists_splitPath_iff.mp ⟨source, name, hsplit⟩,
    fun source' name' hsplit' => ?_⟩
  cases hsplit.symm.trans hsplit'
  exact hsource

end Redirects

section Refused

variable {history : List Contribution} {front : List Placement} {p : Placement}
  {owner q : String} (hps : NamedApart (front ++ [p]))

include hps

/-- The symbol of a dispatcher that has moved into the module
is declared there. -/
theorem declared_of_turnsLocal
    (h : TurnsLocal (front.foldl Placement.redirect {}) owner q) :
    lastSegment q ∈ (History.draft (history ++ front.flatMap (·.contributions))
      owner).aliasNames := by
  obtain ⟨-, p', hp', hmodule, rfl⟩ := (turnsLocal_iff hps.front).mp h
  rw [lastSegment_of_splitPath (splitPath_tablePath hps.front hp'),
    aliasNames_draft_placed, ← hps.front.symbol p' hp']
  apply List.mem_append_right
  refine List.mem_flatMap.mpr ⟨p',
    List.mem_filter.mpr ⟨hp', decide_eq_true hmodule⟩, ?_⟩
  exact List.mem_map_of_mem (by simp [DispatcherSymbol.declarations])

/-- A path to another module turns local or is imported under its name. -/
theorem turnsLocal_or_imported {d : Draft} (hpath : d.path = owner)
    (hne : q ≠ tablePath p.symbol.info.tableName) (howns : d.owns q = .ok false)
    (hfound : ∃ found, importOf? ((front ++ [p]).foldl Placement.redirect {})
      owner q = .ok found) :
    TurnsLocal (front.foldl Placement.redirect {}) owner q ∨
      ∃ file, importOf? ((front ++ [p]).foldl Placement.redirect {}) owner q =
        .ok (some (file, lastSegment q)) := by
  obtain ⟨source, name, hsplit, hforeign⟩ := Draft.owns_eq_ok_false_iff.mp howns
  rw [hpath] at hforeign
  obtain ⟨found, hfound⟩ := hfound
  obtain ⟨source', name', hsplit', hcases⟩ := importOf?_eq_ok_iff.mp hfound
  by_cases htable : ∃ p' ∈ front ++ [p], q = tablePath p'.symbol.info.tableName
  · obtain ⟨p', hp', rfl⟩ := htable
    have hfront : p' ∈ front := by
      rcases List.mem_append.mp hp' with hp' | hp'
      · exact hp'
      · cases List.mem_singleton.mp hp'
        exact absurd rfl hne
    have htablePath := splitPath_tablePath hps hp'
    cases hsplit.symm.trans htablePath
    cases hsplit'.symm.trans (splitPath_redirected hps hp')
    rcases hcases with ⟨hmodule, -⟩ | ⟨-, file, -, rfl⟩
    · exact Or.inl ((turnsLocal_iff hps.front).mpr
        ⟨hforeign.symm, p', hfront, hmodule, rfl⟩)
    · exact Or.inr
        ⟨file, by rw [lastSegment_of_splitPath htablePath]; exact hfound⟩
  · rw [redirected_foldl_of_ne fun p' hp' heq => htable ⟨p', hp', heq⟩]
      at hsplit'
    cases hsplit.symm.trans hsplit'
    rcases hcases with ⟨hmodule, -⟩ | ⟨-, file, -, rfl⟩
    · exact absurd hmodule hforeign
    · exact Or.inr ⟨file, by rw [lastSegment_of_splitPath hsplit]; exact hfound⟩

/-- Without a conflict, what does not fit is a path that turns local. -/
theorem not_fits_iff {m : OutputModule}
    (hm : (History.draft (history ++ front.flatMap (·.contributions) ++
        block owner p.symbol) owner).toModule
      ((front ++ [p]).foldl Placement.redirect {}) = .ok m)
    (hclear : ¬ m.Conflicts) :
    ¬ p.symbol.Fits
      (History.draft (history ++ front.flatMap (·.contributions)) owner) ↔
      ∃ q ∈ importedPaths p.symbol.imports,
        TurnsLocal (front.foldl Placement.redirect {}) owner q := by
  obtain ⟨hfound, hconflicts⟩ := conflicts_iff hm
  rw [hconflicts, not_or, not_not, List.nodup_append] at hclear
  obtain ⟨⟨-, -, hapart⟩, hnone⟩ := hclear
  have hpath :=
    @History.path_draft (history ++ front.flatMap (·.contributions)) owner
  constructor
  · intro hrefused
    by_contra hstay
    -- Three reasons for a clash. If a path turns local, its name is declared
    -- here, so under the second reason that name would be declared twice; only
    -- the third one is left.
    apply hrefused
    refine ⟨fun name hname hdeclared => hapart name hdeclared name hname rfl,
      ?_, ?_⟩
    · intro q hq hne howns hname
      rcases turnsLocal_or_imported hps hpath hne howns
        (hfound q (Or.inl hq)) with
        hlocal | ⟨file, himported⟩
      · exact hapart _ (declared_of_turnsLocal hps hlocal) _ hname rfl
      · exact hnone ⟨q, Or.inl hq, file, _, himported,
          List.mem_append_right _ hname⟩
    · intro q hq hne howns hdeclared
      rcases turnsLocal_or_imported hps hpath hne howns
        (hfound q (Or.inr hq)) with
        hlocal | ⟨file, himported⟩
      · exact hstay ⟨q, hq, hlocal⟩
      · exact hnone ⟨q, Or.inr hq, file, _, himported,
          List.mem_append_left _ hdeclared⟩
  · rintro ⟨q, hq, hlocal⟩ hfits
    have hdeclared := @declared_of_turnsLocal history _ _ _ _ hps hlocal
    obtain ⟨hne, p', hp', -, rfl⟩ := (turnsLocal_iff hps.front).mp hlocal
    refine hfits.brought _ hq (fun heq => ?_) ?_ hdeclared
    · exact hps.ne_last hp' (tablePath_inj heq)
    · exact Draft.owns_eq_ok_false_iff.mpr
        ⟨_, _, splitPath_tablePath hps.front hp', hpath.symm ▸ hne.symm⟩

end Refused

theorem Record.Describes.namedApart {g : Run} {r : Record} (hr : r.Describes g)
    (hdispatchers : g.dispatchers.keys.Nodup)
    (hnames : ∀ a ∈ g.dispatchers.keys, ∀ b ∈ g.dispatchers.keys,
      tableNameOf a = tableNameOf b → a = b) :
    NamedApart r.placements where
  distinct := hr.nodup_tableNames hdispatchers hnames
  tableName p hp := (hr.placed hdispatchers hp).1
  symbol p hp := by
    obtain ⟨htable, hname, -⟩ := hr.placed hdispatchers hp
    exact hname.trans htable.symm

section Runs

variable {g : Run} {r : Record} {modules : List OutputModule}
  (hmodules : r.modules = .ok modules)

include hmodules

theorem Record.isRooted {m : OutputModule} (hm : m ∈ modules) :
    IsRooted m.path :=
  exists_importFile_iff.mp ⟨m.file, (Record.finishes hmodules hm).file⟩

omit hmodules in
theorem mem_history_of_placed {front back : List Placement} {p : Placement}
    (hsplit : r.placements = front ++ p :: back) {c : Contribution}
    (hc : c ∈ r.registryPart ++ r.symbolPart ++
      front.flatMap (·.contributions) ∨ c ∈ p.contributions) :
    c ∈ r.history := by
  rw [Record.history, Record.tablePart, hsplit, List.flatMap_append,
    List.flatMap_cons]
  simp only [List.mem_append] at hc ⊢
  tauto

variable (hps : NamedApart r.placements)

include hps

/-- Every path that has been collected has a module that can
be imported from. -/
theorem Record.exists_source {c : Contribution} (hc : c ∈ r.history)
    {q : String} (hq : q ∈ importedPaths c.imports) :
    ∃ source name, splitPath q = .ok (source, name) ∧ IsRooted source := by
  by_cases htable : ∃ p ∈ r.placements, q = tablePath p.symbol.info.tableName
  · obtain ⟨p, hp, rfl⟩ := htable
    obtain ⟨shared, hshared, hpath⟩ := Record.exists_shared hmodules
    exact ⟨tablesModule, _, splitPath_tablePath hps hp,
      hpath ▸ Record.isRooted hmodules hshared⟩
  · obtain ⟨m, hm, hpath⟩ := Record.exists_module hmodules hc
    have hcollected : q ∈ History.collected r.history m.path :=
      (History.imports_draft.2 q).mpr ⟨c, hc, hpath.symm, hq⟩
    obtain ⟨found, hfound⟩ :=
      (finishedImports_eq_ok (Record.finishes hmodules hm).imports).2.1 q
      hcollected
    obtain ⟨source, name, hsplit, hcases⟩ := importOf?_eq_ok_iff.mp hfound
    rw [Record.redirects,
      redirected_foldl_of_ne fun p hp heq => htable ⟨p, hp, heq⟩] at hsplit
    refine ⟨source, name, hsplit, ?_⟩
    rcases hcases with ⟨rfl, -⟩ | ⟨-, file, hfile, -⟩
    · exact Record.isRooted hmodules hm
    · exact exists_importFile_iff.mp ⟨file, hfile⟩

/-- The module of an owner could be finished with the dispatcher in it. -/
theorem Record.Describes.exists_trial (hr : r.Describes g)
    {front back : List Placement} {p trial : Placement}
    (hsplit : r.placements = front ++ p :: back) {owner file : String}
    (howner : Bookkeeping.ownerBy r.references p.registry = some owner)
    (htrial : trial = { p with home := some (owner, file) })
    (hnamed : NamedApart (front ++ [trial])) :
    ∃ m, (History.draft (r.registryPart ++ r.symbolPart ++
        front.flatMap (·.contributions) ++ block owner p.symbol) owner).toModule
      ((front ++ [trial]).foldl Placement.redirect {}) = .ok m := by
  obtain ⟨ref, href, rfl⟩ := Bookkeeping.exists_reference_of_ownerBy howner
  obtain ⟨c, hc, hpath⟩ := hr.toDescribes.tracks_halfway.sources ref href
  obtain ⟨home, hhome, hhomePath⟩ :=
    Record.exists_module hmodules (List.mem_append_left _ hc)
  apply History.exists_toModule_iff.mpr
  refine ⟨hpath ▸ hhomePath ▸ Record.isRooted hmodules hhome, fun q hq => ?_⟩
  apply exists_importOf?_redirected hnamed
  · intro p' hp' hne
    rcases List.mem_append.mp hp' with hp' | hp'
    · obtain ⟨m, hm, hmodule⟩ :=
        Record.exists_home hmodules (hsplit ▸ List.mem_append_left _ hp')
      exact hmodule ▸ Record.isRooted hmodules hm
    · rw [List.mem_singleton.mp hp', htrial] at hne
      exact absurd rfl hne
  · rw [History.collected, ← Draft.importPaths_eq, mem_importPaths_draft_block,
      Draft.importPaths_eq, History.imports_draft.2] at hq
    rcases hq with ⟨c, hc, -, hq⟩ | hq
    · exact Record.exists_source hmodules hps
        (mem_history_of_placed hsplit (Or.inl hc)) hq
    · obtain ⟨c, hc, -, hq⟩ := mem_importedPaths_contributions.mpr ⟨rfl, hq⟩
      exact Record.exists_source hmodules hps
        (mem_history_of_placed hsplit (Or.inr hc)) hq

end Runs

/-- A dispatcher is refused by the module that it belongs to without a conflict
exactly if it needs the symbol of a dispatcher that has moved there. -/
theorem refused_without_conflict_iff
    {symbols : Symbols} {dispatchers : Dispatchers}
    {registries translationKeys blockProperties : Json}
    {g g' : Run} {modules : List OutputModule}
    (hstart : start symbols dispatchers registries translationKeys
      blockProperties = .ok g) (hrun : runAll g = (.ok modules, g'))
    (hdispatchers : dispatchers.keys.Nodup)
    (hnames : ∀ a ∈ dispatchers.keys,
      ∀ b ∈ dispatchers.keys, tableNameOf a = tableNameOf b → a = b)
    {front back : List String} {registry : String}
    (hsplit : dispatchers.sortedKeys = front ++ registry :: back) :
    ∃ mid d, placeFirst front g = (.ok ⟨⟩, mid) ∧
      DispatcherSymbol.build mid.books.env registry
        ((dispatchers.get? registry).getD {}) = .ok d ∧
      ∀ owner, (mid.books.home registry).1 = some owner →
        ∃ m, (moduleWith owner d mid).1 = .ok m ∧ (¬ m.Conflicts →
          (g'.redirects.get? (tablePath d.info.tableName) = none ↔
            ∃ path ∈ importedPaths d.imports,
              TurnsLocal mid.redirects owner path)) := by
  obtain ⟨hfresh, rfl, rfl⟩ := isFresh_start hstart
  obtain ⟨r, hr, hmodules, rfl⟩ := (runAll_eq_ok_iff hfresh).mp hrun
  have hnamed := hr.namedApart hdispatchers hnames
  have hplaced := hr.placements
  rw [hsplit] at hplaced
  obtain ⟨ps, rest, hps, hfront, hrest⟩ := placeTables_append hplaced
  obtain ⟨p, hp, hrest⟩ := bind_eq_ok_iff.mp hrest
  obtain ⟨qs, -, hrest⟩ := bind_eq_ok_iff.mp hrest
  obtain rfl := pure_eq_ok_iff.mp hrest
  obtain ⟨rfl, hbuild, -⟩ := placeTable_eq_ok hp
  have hredirects : (ps.foldl place (r.opened g)).redirects =
      ps.foldl Placement.redirect {} := by
    rw [foldl_place, ← hfresh.redirects]
    rfl
  have henv :
      (ps.foldl place (r.opened g)).books.env = r.env g.books.env.symbols :=
    (env_foldl_place ps).trans Survey.env_halfway
  refine ⟨ps.foldl place (r.opened g), p.symbol,
    hr.toDescribes.placeFirst_eq hfresh hfront, ?_, ?_⟩
  · rw [henv]
    exact hbuild
  · intro owner howner
    have htracks := hr.toDescribes.tracks_opened.foldl_place ps
    rw [htracks.home_eq] at howner
    let trial : Placement := { p with home := some (owner, "") }
    have htrial : NamedApart (ps ++ [trial]) := by
      rw [hps, List.append_cons] at hnamed
      exact hnamed.front.rehome _
    obtain ⟨m, hm⟩ :=
      hr.exists_trial hmodules hnamed hps howner (rfl : trial = _) htrial
    refine ⟨m, ?_, fun hclear => ?_⟩
    · rw [htracks.moduleWith_eq, hredirects, ← hm, List.foldl_append]
      rfl
    · have hrefused := not_fits_iff htrial hm hclear
      have hget := get?_foldl_redirect
        (hps ▸ List.mem_append_right _ List.mem_cons_self) hnamed.distinct
      change (r.placements.foldl Placement.redirect {}).get? _ = none ↔ _
      rw [hget, Option.map_eq_none_iff, home_eq_none_iff hp howner, hredirects]
      exact hrefused

/-- A tuple of two dispatchers, which therefore belong to its module. -/
def pairSymbols : Symbols :=
  let member (registry : String) : Schema :=
    .dispatcher (.str registry) [.static (.str "k")] []
  ⟨[("::java::a::Thing",
    { type := .tuple [member "minecraft:x", member "minecraft:y"] [] })]⟩

/-- The second of the dispatchers refers to the first, which moves before it. -/
def pairDispatchers : Dispatchers :=
  ⟨[("minecraft:x", ⟨[("k", .string none [])]⟩),
    ("minecraft:y",
      ⟨[("k", .dispatcher (.str "minecraft:x") [.static (.str "k")] [])]⟩)]⟩

theorem sortedKeys_pairDispatchers :
    pairDispatchers.sortedKeys = ["minecraft:x", "minecraft:y"] := by
  simp [pairDispatchers, Table.sortedKeys, Table.keys, List.mergeSort]

theorem describes_pairRun : (plainRecord pairSymbols pairDispatchers
      ["minecraft:x", "minecraft:y"]).Describes
    (plainRun pairSymbols pairDispatchers) :=
  describes_plainRun rfl sortedKeys_pairDispatchers (by decide +kernel)
    (by decide +kernel) (by decide +kernel) (by decide +kernel)

/-- The run of the two dispatchers, with the first of them placed. -/
def pairMiddle : Run :=
  let survey := plainSurvey pairSymbols pairDispatchers
  let first :=
    placeTables (survey.env pairSymbols) pairDispatchers survey.references
    (survey.registryPart ++ survey.symbolPart) ["minecraft:x"]
  (first.toOption.getD []).foldl place
    (survey.opened (plainRun pairSymbols pairDispatchers))

theorem placeFirst_pairRun :
    placeFirst ["minecraft:x"] (plainRun pairSymbols pairDispatchers) =
      (.ok ⟨⟩, pairMiddle) :=
  describes_pairRun.toDescribes.placeFirst_eq ⟨rfl, rfl, rfl, rfl,
    rfl⟩ (eq_ok_getD_of_isOk (by decide +kernel))

/-- The second dispatcher is refused for the symbol of the first one. -/
theorem refused_without_conflict_iff_pairRun :
    start pairSymbols pairDispatchers .null .null .null =
      .ok (plainRun pairSymbols pairDispatchers) ∧
      ∃ modules g' d m,
        runAll (plainRun pairSymbols pairDispatchers) = (.ok modules, g') ∧
        placeFirst ["minecraft:x"] (plainRun pairSymbols pairDispatchers) =
          (.ok ⟨⟩, pairMiddle) ∧
        (pairMiddle.books.home "minecraft:y").1 = some "::java::a" ∧
        (moduleWith "::java::a" d pairMiddle).1 = .ok m ∧ ¬ m.Conflicts ∧
        g'.redirects.get? (tablePath d.info.tableName) = none := by
  have hstart : start pairSymbols pairDispatchers .null .null .null =
      .ok (plainRun pairSymbols pairDispatchers) :=
    rfl
  have hcatalogue := describes_pairRun.dispatcherCatalogue_eq (by decide)
  obtain ⟨modules, -, hrun⟩ :=
    describes_pairRun.exists_modules ⟨rfl, rfl, rfl, rfl, rfl⟩ (by
    rw [Record.history, Record.tablePart, catalogueOf, hcatalogue]
    decide +kernel)
  have hkeys : pairDispatchers.sortedKeys =
      ["minecraft:x"] ++ "minecraft:y" :: [] := sortedKeys_pairDispatchers
  obtain ⟨mid, d, hmid, hbuild, hrefused⟩ :=
    refused_without_conflict_iff hstart hrun (by decide)
      (by decide +kernel) hkeys
  obtain ⟨-, rfl⟩ := Prod.mk.inj (placeFirst_pairRun.symm.trans hmid)
  have hhome : (pairMiddle.books.home "minecraft:y").1 = some "::java::a" := by
    decide +kernel
  obtain ⟨m, hm, hrefused⟩ := hrefused "::java::a" hhome
  have hall : ∀ d ∈ (DispatcherSymbol.build pairMiddle.books.env "minecraft:y"
      ((pairDispatchers.get? "minecraft:y").getD {})).toOption,
      (∃ path ∈ importedPaths d.imports,
          TurnsLocal pairMiddle.redirects "::java::a" path) ∧
        ∀ m ∈ (moduleWith "::java::a" d pairMiddle).1.toOption,
          ¬ m.Conflicts := by
    decide +kernel
  obtain ⟨hlocal, hclear⟩ := hall d (toOption_eq_some_iff.mpr hbuild)
  have hclear := hclear m (toOption_eq_some_iff.mpr hm)
  exact ⟨hstart, modules, _, d, m, hrun, hmid, hhome, hm, hclear,
    (hrefused hclear).mpr hlocal⟩

end Run

end Typings
