import Typings.Proofs.Reordering

/-!
The order of the symbol table and of the dispatchers. A run succeeds with its
tables in one order exactly if it does in any other, and its modules differ at
most in the order in which the symbols of a module are declared.
-/

namespace Typings

namespace Run

section Congruence

variable {env env' : Environment} (henv : env.Agrees env')

include henv

theorem symbolResult_of_agrees {referenced referenced' : List Json}
    (hreferenced : ∀ s, referenced'.any (·.isText s) =
      referenced.any (·.isText s)) (path : String)
    (symbol : Symbol) :
    symbolResult env referenced path symbol =
      symbolResult env' referenced' path symbol := by
  have hcopy : ∀ parent, isNestedCopy env referenced parent path symbol =
      isNestedCopy env' referenced' parent path symbol := by
    intro parent
    simp only [isNestedCopy, Table.has, henv.symbols, hreferenced]
  simp only [symbolResult, keptResult, hcopy, Schema.compile_of_agrees henv]

variable {dispatchers dispatchers' : Dispatchers} {refs refs' : List Reference}
  (hdispatchers : ∀ registry, dispatchers.get? registry =
    dispatchers'.get? registry)
  (hrefs : refs.Perm refs')

include hdispatchers hrefs

theorem placeTable_of_perm {history history' : List Contribution}
    (hperm : history.Perm history') (registry : String) :
    placeTable env dispatchers refs history registry =
      placeTable env' dispatchers' refs' history' registry := by
  simp only [placeTable, chooseHome,
    hdispatchers, DispatcherSymbol.build_of_agrees henv,
    Bookkeeping.ownerBy_of_perm hrefs, History.clashes_of_perm hperm]

/-- Dispatchers go to the same modules, whatever the order of what
these hold already. -/
theorem placeTables_of_perm {history history' : List Contribution}
    (hperm : history.Perm history') (registries : List String) :
    placeTables env dispatchers refs history registries =
      placeTables env' dispatchers' refs' history' registries := by
  induction registries generalizing history history' with
  | nil => rfl
  | cons registry rest ih =>
      rw [placeTables, placeTables,
        ← placeTable_of_perm henv hdispatchers hrefs hperm]
      cases hp : placeTable env dispatchers refs history registry with
      | error fault => rfl
      | ok p =>
          have hrest := ih (hperm.append_right p.contributions)
          exact congrArg
            (fun placed => placed >>= fun ps => pure (p :: ps)) hrest

end Congruence

/-- The runs have the same inputs, up to the order of their tables. -/
structure Reorders (g g' : Run) : Prop where
  symbols : g.books.env.symbols.entries.Perm g'.books.env.symbols.entries
  dispatchers : g.dispatchers.entries.Perm g'.dispatchers.entries
  registries : g.registries = g'.registries
  translationKeys : g.translationKeys = g'.translationKeys
  blockProperties : g.blockProperties = g'.blockProperties

variable {g g' : Run}

theorem Reorders.symm (h : g.Reorders g') : g'.Reorders g where
  symbols := h.symbols.symm
  dispatchers := h.dispatchers.symm
  registries := h.registries.symm
  translationKeys := h.translationKeys.symm
  blockProperties := h.blockProperties.symm

theorem reorders_of_start {symbols symbols' : Symbols}
    {dispatchers dispatchers' : Dispatchers}
    {registries translationKeys blockProperties : Json}
    (h : start symbols dispatchers registries translationKeys blockProperties =
      .ok g)
    (h' : start symbols' dispatchers' registries
      translationKeys blockProperties = .ok g')
    (hsymbols : symbols.entries.Perm symbols'.entries)
    (hdispatchers : dispatchers.entries.Perm dispatchers'.entries) :
    g.Reorders g' := by
  obtain ⟨keys, hkeys, h⟩ := bind_eq_ok_iff.mp h
  obtain ⟨properties, hproperties, h⟩ := bind_eq_ok_iff.mp h
  obtain ⟨keys', hkeys', h'⟩ := bind_eq_ok_iff.mp h'
  obtain ⟨properties', hproperties', h'⟩ := bind_eq_ok_iff.mp h'
  obtain rfl := pure_eq_ok_iff.mp h
  obtain rfl := pure_eq_ok_iff.mp h'
  exact ⟨hsymbols, hdispatchers, rfl, Except.ok.inj (hkeys.symm.trans hkeys'),
    Except.ok.inj (hproperties.symm.trans hproperties')⟩

theorem Reorders.exists_targets (h : g.Reorders g') {referenced : List Json}
    (htargets : g.targets = .ok referenced) :
    ∃ referenced', g'.targets = .ok referenced' ∧
      ∀ s, referenced'.any (·.isText s) = referenced.any (·.isText s) := by
  have hpaths := liftMisuse_eq_ok_iff.mp htargets
  have hperm : (g.books.env.symbols.values.map (·.type) ++
        g.dispatchers.values.flatMap (·.values)).Perm
      (g'.books.env.symbols.values.map (·.type) ++ g'.dispatchers.values.flatMap
        (·.values)) :=
    ((h.symbols.map _).map _).append ((h.dispatchers.map _).flatMap_right _)
  obtain ⟨paths', hpaths', hany⟩ :=
    Schema.exists_targets_of_perm hperm hpaths
  exact ⟨paths', liftMisuse_eq_ok_iff.mpr hpaths', hany⟩

/-- A record of one run gives a record of the other, with the
same placements. -/
theorem Record.Describes.reordered {r : Record} (hr : r.Describes g)
    (h : g.Reorders g') (hsymbols : g.books.env.symbols.keys.Nodup)
    (hdispatchers : g.dispatchers.keys.Nodup) :
    ∃ r' : Record, r'.Describes g' ∧ r'.registryPart = r.registryPart ∧
      r.symbolPart.Perm r'.symbolPart ∧ r.references.Perm r'.references ∧
      r'.placements = r.placements := by
  obtain ⟨heads', hheads', hheadsPerm⟩ :=
    exists_mapM_of_perm h.dispatchers hr.heads
  obtain ⟨referenced', hreferenced', hany⟩ := h.exists_targets hr.referenced
  have hheadKeys : (r.heads.map (·.1)).Nodup := hr.keys_heads ▸ hdispatchers
  have hheadKeys' : (heads'.map (·.1)).Nodup :=
    (hheadsPerm.map _).nodup_iff.mpr hheadKeys
  let s' : Survey :=
    { r.toSurvey with heads := heads', referenced := referenced' }
  have henv :
      (r.env g.books.env.symbols).Agrees (s'.env g'.books.env.symbols) := by
    refine ⟨fun path => Table.get?_of_perm hsymbols h.symbols,
      fun registry => ?_, rfl, rfl⟩
    have hdispatchers' : (s'.env g'.books.env.symbols).dispatchers = ⟨heads'⟩ :=
      Table.foldl_put_empty hheadKeys'
    rw [hr.dispatchers_env hdispatchers, hdispatchers']
    exact Table.get?_of_perm hheadKeys hheadsPerm.symm
  obtain ⟨results, hresults, hresultsPerm⟩ :=
    exists_mapM_of_perm h.symbols hr.symbols
  simp only [symbolResult_of_agrees henv hany] at hresults
  have hparts : r.symbolPart.Perm (results.filterMap (·.contribution?)) :=
    hresultsPerm.symm.filterMap _
  have hrefs : r.references.Perm (results.flatMap (·.references)) :=
    hresultsPerm.symm.flatMap_right _
  have hplacements := placeTables_of_perm henv
    (fun registry => Table.get?_of_perm hdispatchers h.dispatchers) hrefs
    (hparts.append_left r.registryPart) g.dispatchers.sortedKeys
  rw [hr.placements, Table.sortedKeys_of_perm (Table.keys_perm h.dispatchers)]
    at hplacements
  refine ⟨{ s' with symbols := results, placements := r.placements },
    ⟨⟨?_, ?_, ?_, hheads', hreferenced',
    hresults⟩, hplacements.symm⟩, rfl, hparts, hrefs, rfl⟩
  · rw [← h.registries]
    exact hr.registries
  · rw [← h.translationKeys]
    exact hr.translationKey
  · rw [← h.blockProperties]
    exact hr.blockStateKey

theorem Tracks.foldl_place {refs : List Reference} {history : List Contribution}
    (h : Tracks refs history g) (ps : List Placement) : Tracks refs
      (history ++ ps.flatMap (·.contributions)) (ps.foldl Run.place g) := by
  induction ps generalizing history g with
  | nil => simpa using h
  | cons p rest ih =>
      rw [List.foldl_cons, List.flatMap_cons, ← List.append_assoc]
      exact ih (h.place p)

/-- The owners that a finished run names are those that the
references speak for. -/
theorem Record.Describes.home_final {r : Record} (hr : r.Describes g)
    (modules : List OutputModule) (registry : String) :
    ((r.final g modules).books.home registry).1 =
      Bookkeeping.ownerBy r.references registry := by
  have htracks := hr.toDescribes.tracks_halfway.foldl_place r.placements
  rw [Run.foldl_place] at htracks
  exact htracks.home_eq registry

/-- The modules differ at most in the order in which symbols are declared; the
dispatchers are placed as given. -/
structure SameModule (placements : List Placement) (m m' : OutputModule) :
    Prop where
  path : m.path = m'.path
  file : m.file = m'.file
  imports : m.imports = m'.imports
  sources : m.sources.Perm m'.sources
  declarations : ∃ front kept kept',
    m.declarations = front ++ kept ++ tableDeclarations placements m.path ∧
    m'.declarations = front ++ kept' ++ tableDeclarations placements m.path ∧
    kept.Perm kept' ∧ List.Forall₂ (fun path declaration => ∃ a : Alias,
      declaration = .typeAlias a ∧ a.name = lastSegment path) m.sources kept

theorem Record.Describes.sameModule {r r' : Record} (hr : r.Describes g)
    (hr' : r'.Describes g') (hsymbols : g.books.env.symbols.keys.Nodup)
    (hsymbols' : g'.books.env.symbols.keys.Nodup)
    (hdispatchers : g.dispatchers.keys.Nodup)
    (hdispatchers' : g'.dispatchers.keys.Nodup)
    (hregistries : r'.registryPart = r.registryPart)
    (hparts : r.symbolPart.Perm r'.symbolPart)
    (hplacements : r'.placements = r.placements)
    (hperm : r.history.Perm r'.history) {m : OutputModule}
    (hm : History.Finishes r.history r.redirects m) :
    SameModule r.placements m (History.refill r'.history m) := by
  have hsources := hm.sources
  rw [hr.sources_draft hsymbols] at hsources
  refine ⟨rfl, rfl, rfl, ?_,
    (r.registryPart.filter (·.path == m.path)).map (·.declaration),
    (r.symbolPart.filter (·.path == m.path)).map (·.declaration),
    (r'.symbolPart.filter (·.path == m.path)).map (·.declaration), ?_, ?_,
    (hparts.filter _).map _, ?_⟩
  · rw [hsources, History.refill, hr'.sources_draft hsymbols']
    exact (hperm.filter _).filterMap _
  · rw [hm.declarations, hr.declarations_history hdispatchers,
      History.declarations_draft, List.filter_append, List.map_append]
  · rw [History.refill, hr'.declarations_history hdispatchers',
      History.declarations_draft,
      List.filter_append, List.map_append, hregistries, hplacements]
  · rw [hsources, hr.filterMap_source_history, List.forall₂_map_left_iff,
      List.forall₂_map_right_iff]
    exact (forall₂_isAliasOf hr.symbols m.path).imp fun s c halias =>
      halias.declared

theorem exists_runAll_of_reorders (hfresh : g.IsFresh) (hfresh' : g'.IsFresh)
    (h : g.Reorders g') (hsymbols : g.books.env.symbols.keys.Nodup)
    (hdispatchers : g.dispatchers.keys.Nodup) {modules : List OutputModule}
    {final : Run} (hrun : runAll g = (.ok modules, final)) :
    ∃ modules' final', runAll g' = (.ok modules', final') ∧
      final.redirects = final'.redirects ∧
      (∀ registry, (final.books.home registry).1 =
        (final'.books.home registry).1) ∧
      ∃ placements : List Placement,
        placements.map (·.registry) = g.dispatchers.sortedKeys ∧
        List.Forall₂ (SameModule placements) modules modules' := by
  obtain ⟨r, hr, hmodules, rfl⟩ := (runAll_eq_ok_iff hfresh).mp hrun
  obtain ⟨r', hr', hregistries, hparts, hrefs, hplacements⟩ :=
    hr.reordered h hsymbols hdispatchers
  have htables : r'.tablePart = r.tablePart := by
    rw [Record.tablePart, Record.tablePart, hplacements]
  have hredirects : r'.redirects = r.redirects := by
    rw [Record.redirects, Record.redirects, hplacements]
  have hperm : r.history.Perm r'.history := by
    rw [Record.history, Record.history, hregistries, htables]
    exact (hparts.append_left _).append_right _
  have hclose := History.close_of_perm hperm hmodules
  rw [← hredirects] at hclose
  refine ⟨_, _, (runAll_eq_ok_iff hfresh').mpr ⟨r', hr', hclose, rfl⟩,
    hredirects.symm, fun registry => ?_,
    r.placements, (placeTables_eq_ok hr.placements).1, ?_⟩
  · rw [hr.home_final, hr'.home_final, Bookkeeping.ownerBy_of_perm hrefs]
  · have hsymbols' := (Table.keys_perm h.symbols).nodup_iff.mp hsymbols
    have hdispatchers' :=
      (Table.keys_perm h.dispatchers).nodup_iff.mp hdispatchers
    rw [List.forall₂_map_right_iff, List.forall₂_same]
    intro m hm
    exact hr.sameModule hr' hsymbols hsymbols' hdispatchers hdispatchers'
      hregistries hparts hplacements hperm (Record.finishes hmodules hm)

/-- The order of the symbol table and of the dispatchers does not matter. -/
theorem table_order_irrelevant {symbols symbols' : Symbols}
    {dispatchers dispatchers' : Dispatchers}
    {registries translationKeys blockProperties : Json}
    (hstart : start symbols dispatchers registries
      translationKeys blockProperties = .ok g)
    (hstart' : start symbols' dispatchers' registries
      translationKeys blockProperties = .ok g')
    (hsymbols : symbols.keys.Nodup) (hdispatchers : dispatchers.keys.Nodup)
    (hsymbolsPerm : symbols.entries.Perm symbols'.entries)
    (hdispatchersPerm : dispatchers.entries.Perm dispatchers'.entries) :
    ((∃ modules final, runAll g = (.ok modules, final)) ↔
      ∃ modules' final', runAll g' = (.ok modules', final')) ∧
    ∀ modules final modules' final', runAll g = (.ok modules, final) →
      runAll g' = (.ok modules', final') →
      final.redirects = final'.redirects ∧
      (∀ registry, (final.books.home registry).1 =
        (final'.books.home registry).1) ∧
      ∃ placements : List Placement,
        placements.map (·.registry) = dispatchers.sortedKeys ∧
        List.Forall₂ (SameModule placements) modules modules' := by
  have hreorders :=
    reorders_of_start hstart hstart' hsymbolsPerm hdispatchersPerm
  obtain ⟨hfresh, rfl, rfl⟩ := isFresh_start hstart
  obtain ⟨hfresh', rfl, rfl⟩ := isFresh_start hstart'
  refine ⟨⟨?_, ?_⟩, ?_⟩
  · rintro ⟨modules, final, hrun⟩
    obtain ⟨modules', final', hrun', -⟩ :=
      exists_runAll_of_reorders hfresh hfresh' hreorders hsymbols
        hdispatchers hrun
    exact ⟨modules', final', hrun'⟩
  · rintro ⟨modules', final', hrun'⟩
    obtain ⟨modules, final, hrun, -⟩ :=
      exists_runAll_of_reorders hfresh' hfresh hreorders.symm
      ((Table.keys_perm hreorders.symbols).nodup_iff.mp hsymbols)
      ((Table.keys_perm hreorders.dispatchers).nodup_iff.mp hdispatchers) hrun'
    exact ⟨modules, final, hrun⟩
  · intro modules final modules' final' hrun hrun'
    obtain ⟨_, _, hsame, hall⟩ :=
      exists_runAll_of_reorders hfresh hfresh' hreorders hsymbols
        hdispatchers hrun
    obtain ⟨hmodules, rfl⟩ := Prod.mk.inj (hsame.symm.trans hrun')
    cases hmodules
    exact hall

/-- The small run with both tables from the back. -/
def sampleRunReversed : Run :=
  { books := { env := { symbols := ⟨sampleSymbols.entries.reverse⟩ } }
    dispatchers := ⟨sampleDispatchers.entries.reverse⟩
    registries := .obj [] }

/-- The two symbols of a module change places, and nothing else does. -/
theorem table_order_irrelevant_sampleRun :
    start sampleSymbols sampleDispatchers .null .null .null = .ok sampleRun ∧
      start ⟨sampleSymbols.entries.reverse⟩ ⟨sampleDispatchers.entries.reverse⟩
        .null .null .null =
        .ok sampleRunReversed ∧
      ∃ modules final modules' final', runAll sampleRun = (.ok modules, final) ∧
        runAll sampleRunReversed = (.ok modules', final') ∧
        final.redirects = final'.redirects ∧
        ∃ placements : List Placement,
          placements.map (·.registry) = ["minecraft:x", "mod:y"] ∧
          List.Forall₂ (SameModule placements) modules modules' := by
  have hstart : start sampleSymbols sampleDispatchers .null .null .null =
      .ok sampleRun := rfl
  have hstart' : start ⟨sampleSymbols.entries.reverse⟩
      ⟨sampleDispatchers.entries.reverse⟩ .null .null
      .null = .ok sampleRunReversed := rfl
  obtain ⟨hsucceeds, hsame⟩ :=
    table_order_irrelevant hstart hstart' (by decide) (by decide)
    (List.reverse_perm _).symm (List.reverse_perm _).symm
  obtain ⟨modules, -, hrun⟩ := exists_modules_sampleRun
  obtain ⟨modules', final', hrun'⟩ := hsucceeds.mp ⟨modules, _, hrun⟩
  obtain ⟨hredirects, -, placements, hregistries, hmodules⟩ :=
    hsame _ _ _ _ hrun hrun'
  rw [sortedKeys_sampleDispatchers] at hregistries
  exact ⟨hstart, hstart', modules, _, modules', final', hrun, hrun', hredirects,
    placements, hregistries, hmodules⟩

end Run

end Typings
