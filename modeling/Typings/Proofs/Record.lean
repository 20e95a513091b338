import Typings.Proofs.Placement

/-!
What a successful run did. A record holds the outcome of every computation that
a run makes; the modules and the final state follow from it. A run succeeds
exactly if there is a record of it.
-/

namespace Typings

namespace Run

/-- A run that has done nothing yet. -/
structure IsFresh (g : Run) : Prop where
  books : g.books = { env := { symbols := g.books.env.symbols } }
  drafts : g.drafts = {}
  completed : g.completed = []
  redirects : g.redirects = {}
  journal : g.journal = []

theorem isFresh_start {symbols : Symbols} {dispatchers : Dispatchers}
    {registries translationKeys blockProperties : Json} {g : Run}
    (h : start symbols dispatchers registries translationKeys blockProperties =
      .ok g) :
    g.IsFresh ∧ g.books.env.symbols = symbols ∧
      g.dispatchers = dispatchers := by
  obtain ⟨keys, -, h⟩ := bind_eq_ok_iff.mp h
  obtain ⟨properties, -, h⟩ := bind_eq_ok_iff.mp h
  obtain rfl := pure_eq_ok_iff.mp h
  exact ⟨⟨rfl, rfl, rfl, rfl, rfl⟩, rfl, rfl⟩

/-- What a run computed before it placed the dispatchers. -/
structure Survey where
  registries : Table (List String)
  translationKey? : Option Alias
  blockStateKey? : Option Alias
  heads : List (String × DispatcherHead)
  referenced : List Json
  symbols : List SymbolResult

/-- What a run computed. -/
structure Record extends Survey where
  placements : List Placement

/-- The registries, the string registries and the resource classes,
as contributions. -/
def registryContributions (registries : Table (List String))
    (translationKey? blockStateKey? : Option Alias) :
    List Contribution :=
  (registryAliases registries ++ translationKey?.toList ++
    blockStateKey?.toList).map
      (aliasTo registriesModule) ++ [aliasTo classesModule resourcesByClass]

def headEntry (d : String × Table Schema) :
    Except Fault (String × DispatcherHead) := do
  return (d.1, ← DispatcherHead.of d.1 d.2)

/-- The symbols of placed dispatchers by registry. -/
def exportedSymbols (ps : List Placement) : Table ExportedSymbol :=
  ⟨ps.map fun p => (p.registry, p.exported)⟩

def catalogueOf (ps : List Placement) : Contribution :=
  { path := tablesModule
    declaration := .typeAlias (dispatcherCatalogue (exportedSymbols ps)).1
    imports := some (dispatcherCatalogue (exportedSymbols ps)).2 }

namespace Survey

variable (r : Survey)

def env (symbols : Symbols) : Environment :=
  { symbols
    dispatchers := r.heads.foldl (fun table head => table.put head.1 head.2) {}
    registries := r.registries
    hasTranslationKeys := r.translationKey?.isSome }

/-- What the first phase adds. -/
def registryPart : List Contribution :=
  registryContributions r.registries r.translationKey? r.blockStateKey?

def symbolPart : List Contribution :=
  r.symbols.filterMap (·.contribution?)

/-- The references met while the symbols were compiled. -/
def references : List Reference :=
  r.symbols.flatMap (·.references)

/-- The survey is that of the computations of a run. -/
structure Describes (g : Run) : Prop where
  registries : readRegistries g.registries = .ok r.registries
  translationKey :
    literalAlias? "TranslationKey" g.translationKeys = .ok r.translationKey?
  blockStateKey :
    literalAlias? "BlockStateKey" g.blockProperties = .ok r.blockStateKey?
  heads : g.dispatchers.entries.mapM headEntry = .ok r.heads
  referenced : g.targets = .ok r.referenced
  symbols : g.books.env.symbols.entries.mapM
    (fun s => symbolResult (r.env g.books.env.symbols) r.referenced s.1 s.2) =
      .ok r.symbols

/-- The run before the dispatchers are placed. -/
def halfway (g : Run) : Run :=
  { g with
    books :=
      r.references.foldl Bookkeeping.count { env := r.env g.books.env.symbols }
    drafts := History.drafts (r.registryPart ++ r.symbolPart)
    completed := [.registries, .metadata, .symbols]
    journal :=
      [.resolving .registries, .resolving .metadata, .resolving .symbols] }

end Survey

namespace Record

variable (r : Record)

def tablePart : List Contribution :=
  r.placements.flatMap (·.contributions) ++ [catalogueOf r.placements]

/-- All that was added to the modules. -/
def history : List Contribution :=
  r.registryPart ++ r.symbolPart ++ r.tablePart

/-- Where the symbols of dispatchers have moved. -/
def redirects : Table String :=
  r.placements.foldl Placement.redirect {}

/-- The references that were counted and the homes that were looked up. -/
def books (symbols : Symbols) : Bookkeeping :=
  r.placements.foldl (fun books p => (books.home p.registry).2)
    (r.references.foldl Bookkeeping.count { env := r.env symbols })

/-- The record is that of the computations of a run. -/
structure Describes (g : Run) : Prop extends r.toSurvey.Describes g where
  placements :
    placeTables (r.env g.books.env.symbols) g.dispatchers r.references
    (r.registryPart ++ r.symbolPart) g.dispatchers.sortedKeys = .ok r.placements

def modules : Except Fault (List OutputModule) :=
  ((History.drafts r.history).close r.redirects).1

def final (g : Run) (modules : List OutputModule) : Run :=
  { g with
    books := r.books g.books.env.symbols
    drafts := { History.drafts r.history with closed := true }
    completed := Phase.all
    redirects := r.redirects
    journal := Phase.all.map .resolving ++ [.resolved modules.length] }

end Record

def begun (g : Run) (phase : Phase) : Run :=
  { g with journal := g.journal ++ [.resolving phase] }

def ended (g : Run) (phase : Phase) : Run :=
  { g with completed := g.completed ++ [phase] }

/-- The run with other things to look up. -/
def withEnv (g : Run) (f : Environment → Environment) : Run :=
  { g with books := { g.books with env := f g.books.env } }

variable {g g' : Run}

theorem updateEnv_eq {f : Environment → Environment} :
    updateEnv f g = (.ok ⟨⟩, g.withEnv f) :=
  rfl

theorem withEnv_extend_withEnv {f f' : Environment → Environment}
    {cs more : List Contribution} :
    (((g.withEnv f).extend cs).withEnv f').extend more =
      (g.withEnv (f' ∘ f)).extend (cs ++ more) := by
  rw [← extend_extend]
  rfl

theorem inPhase_eq_ok_iff {phase : Phase} {body : Step Unit}
    (h : Phase.all[g.completed.length]? = some phase) :
    inPhase phase body g = (.ok ⟨⟩, g') ↔
      ∃ g₁, body (g.begun phase) = (.ok ⟨⟩, g₁) ∧ g' = g₁.ended phase := by
  rw [inPhase, Step.get_bind]
  dsimp only
  rw [if_neg (not_not.mpr h), tell, Step.modify_bind, Step.bind_eq_ok_iff]
  constructor
  · rintro ⟨⟨⟩, g₁, hbody, hend⟩
    cases hend
    exact ⟨g₁, hbody, rfl⟩
  · rintro ⟨g₁, hbody, rfl⟩
    exact ⟨⟨⟩, g₁, hbody, rfl⟩

/-- Aliases that a module is opened for. -/
theorem openDraft_forM_bind {α : Type} (h : g.drafts.IsOpen) {path : String}
    {aliases : List Alias} (hsome : aliases ≠ []) {f : PUnit → Step α} :
    (openDraft path >>= fun _ => aliases.forM (declareAlias path) >>= f) g =
      f ⟨⟩ (g.extend (aliases.map (aliasTo path))) := by
  obtain ⟨first, rest, rfl⟩ := List.exists_cons_of_ne_nil hsome
  have hhead : ∃ c, ((first :: rest).map (aliasTo path)).head? = some c ∧
      c.path = path :=
    ⟨aliasTo path first, rfl, rfl⟩
  rw [Step.bind_of_ok (openDraft_eq h path),
    Step.bind_of_ok (forM_declareAlias_eq (h.ensure path) path _),
    extend_ensure hhead]

/-- The last declarations of the first phase. -/
theorem declareBlockStates_eq_ok_iff (h : g.drafts.IsOpen) :
    (do
      match ← compute (Fault.ofMisuse (literalAlias? "BlockStateKey"
        (← get).blockProperties)) with
      | some keys => declareAlias registriesModule keys
      | none => pure ()
      declareAlias classesModule resourcesByClass : Step Unit) g =
        (.ok ⟨⟩, g') ↔
      ∃ key?, literalAlias? "BlockStateKey" g.blockProperties = .ok key? ∧
        g' = g.extend (key?.toList.map (aliasTo registriesModule) ++
          [aliasTo classesModule resourcesByClass]) := by
  rw [Step.get_bind, Step.compute_bind_eq_ok_iff]
  simp only [Fault.ofMisuse_eq_ok_iff]
  refine exists_congr fun key? => and_congr_right fun _ => ?_
  cases key? with
  | none =>
      dsimp only
      rw [declareAlias_eq h, Prod.mk.injEq, and_iff_right rfl, eq_comm]
      exact Iff.rfl
  | some key =>
      dsimp only
      rw [Step.bind_of_ok (declareAlias_eq h registriesModule key),
        declareAlias_eq (h.extend _),
        extend_extend, Prod.mk.injEq, and_iff_right rfl, eq_comm]
      exact Iff.rfl

/-- The string registries, and the last declarations behind them. -/
theorem declareTexts_eq_ok_iff (h : g.drafts.IsOpen) :
    (do
      match ← compute (Fault.ofMisuse (literalAlias? "TranslationKey"
        (← get).translationKeys)) with
      | some keys =>
        declareAlias registriesModule keys
        updateEnv fun env => { env with hasTranslationKeys := true }
      | none => pure ()
      match ← compute (Fault.ofMisuse (literalAlias? "BlockStateKey"
        (← get).blockProperties)) with
      | some keys => declareAlias registriesModule keys
      | none => pure ()
      declareAlias classesModule resourcesByClass : Step Unit) g =
        (.ok ⟨⟩, g') ↔
      ∃ translationKey?, literalAlias? "TranslationKey" g.translationKeys =
        .ok translationKey? ∧
      ∃ blockStateKey?, literalAlias? "BlockStateKey" g.blockProperties =
        .ok blockStateKey? ∧
        g' = (g.withEnv fun env => { env with
          hasTranslationKeys :=
            env.hasTranslationKeys || translationKey?.isSome }).extend
            (translationKey?.toList.map (aliasTo registriesModule) ++
              (blockStateKey?.toList.map (aliasTo registriesModule) ++
                [aliasTo classesModule resourcesByClass])) := by
  rw [Step.get_bind, Step.compute_bind_eq_ok_iff]
  simp only [Fault.ofMisuse_eq_ok_iff]
  refine exists_congr fun translationKey? => and_congr_right fun _ => ?_
  cases translationKey? with
  | none =>
      dsimp only
      rw [declareBlockStates_eq_ok_iff h]
      simp [withEnv]
  | some key =>
      have hopen : ((g.extend [aliasTo registriesModule key]).withEnv fun env =>
          { env with hasTranslationKeys := true }).drafts.IsOpen := h.extend _
      dsimp only
      rw [Step.bind_of_ok (declareAlias_eq h registriesModule key),
        Step.bind_of_ok updateEnv_eq, declareBlockStates_eq_ok_iff hopen]
      refine exists_congr fun blockStateKey? => and_congr_right fun _ => ?_
      simp [withEnv, extend, Drafts.extend]

/-- The environment once the registries are known. -/
def withRegistries (registries : Table (List String))
    (translationKey? : Option Alias) (env : Environment) : Environment :=
  { env with
    registries
    hasTranslationKeys := env.hasTranslationKeys || translationKey?.isSome }

theorem declareRegistries_eq_ok_iff (h : g.drafts.IsOpen)
    (hphase : g.completed = []) :
    declareRegistries g = (.ok ⟨⟩, g') ↔
      ∃ registries, readRegistries g.registries = .ok registries ∧
      ∃ translationKey?, literalAlias? "TranslationKey" g.translationKeys =
        .ok translationKey? ∧
      ∃ blockStateKey?, literalAlias? "BlockStateKey" g.blockProperties =
        .ok blockStateKey? ∧
        g' = (((g.begun .registries).withEnv
            (withRegistries registries translationKey?)).extend
          (registryContributions registries translationKey?
            blockStateKey?)).ended .registries := by
  have hsome : ∀ registries, registryAliases registries ≠ [] := by
    simp [registryAliases]
  have hend : ∀ registries translationKey? blockStateKey?,
      registryContributions registries translationKey? blockStateKey? =
        (registryAliases registries).map (aliasTo registriesModule) ++
          (translationKey?.toList.map (aliasTo registriesModule) ++
            (blockStateKey?.toList.map (aliasTo registriesModule) ++
              [aliasTo classesModule resourcesByClass])) := by
    simp [registryContributions]
  rw [declareRegistries, inPhase_eq_ok_iff (by rw [hphase]; rfl), Step.get_bind]
  simp only [Step.compute_bind_eq_ok_iff, Fault.ofMisuse_eq_ok_iff,
    ← exists_and_right, and_assoc]
  rw [exists_comm]
  refine exists_congr fun registries => ?_
  rw [exists_and_left]
  refine and_congr_right fun _ => ?_
  have hopen :
      (((g.begun .registries).withEnv fun env => { env with registries }).extend
      ((registryAliases registries).map
        (aliasTo registriesModule))).drafts.IsOpen := h.extend _
  rw [Step.bind_of_ok updateEnv_eq,
    openDraft_forM_bind (by exact h) (hsome registries)]
  simp only [hend]
  constructor
  · rintro ⟨g₁, htexts, rfl⟩
    obtain ⟨translationKey?, htranslation, blockStateKey?, hblock, rfl⟩ :=
      (declareTexts_eq_ok_iff hopen).mp htexts
    exact ⟨translationKey?, htranslation, blockStateKey?,
      hblock, by rw [withEnv_extend_withEnv]; rfl⟩
  · rintro ⟨translationKey?, htranslation, blockStateKey?, hblock, rfl⟩
    exact ⟨_, (declareTexts_eq_ok_iff hopen).mpr
      ⟨translationKey?, htranslation, blockStateKey?, hblock, rfl⟩, by
        rw [withEnv_extend_withEnv]; rfl⟩

/-- The environment once the dispatchers are known. -/
def withHeads (heads : List (String × DispatcherHead)) (env : Environment) :
    Environment :=
  { env with dispatchers := heads.foldl (fun table head =>
               table.put head.1 head.2) env.dispatchers }

theorem foldl_withHead (heads : List (String × DispatcherHead)) :
    heads.foldl (fun g head => g.withEnv fun env =>
        { env with dispatchers := env.dispatchers.put head.1 head.2 }) g =
          g.withEnv (withHeads heads) := by
  induction heads generalizing g with
  | nil => rfl
  | cons head rest ih =>
      rw [List.foldl_cons, ih]
      rfl

theorem noteDispatchers_eq_ok_iff (hphase : g.completed = [.registries]) :
    noteDispatchers g = (.ok ⟨⟩, g') ↔
      ∃ heads, g.dispatchers.entries.mapM headEntry = .ok heads ∧
        g' =
          ((g.begun .metadata).withEnv (withHeads heads)).ended .metadata := by
  rw [noteDispatchers, inPhase_eq_ok_iff (by rw [hphase]; rfl), Step.get_bind]
  have hstep : ∀ (d : String × Table Schema) (g₁ g₂ : Run), True →
      ((do
        let info ← compute (DispatcherHead.of d.1 d.2)
        updateEnv fun env => { env with
          dispatchers := env.dispatchers.put d.1 info } : Step Unit) g₁ =
          (.ok ⟨⟩, g₂) ↔
        ∃ head, headEntry d = .ok head ∧ g₂ = g₁.withEnv fun env =>
          { env with dispatchers := env.dispatchers.put head.1 head.2 }) := by
    intro d g₁ g₂ _
    rw [Step.compute_bind_eq_ok_iff, headEntry, exists_bind_eq_ok]
    refine exists_congr fun info => and_congr_right fun _ => ?_
    rw [exists_pure_eq_ok, updateEnv_eq, Prod.mk.injEq,
      and_iff_right rfl, eq_comm]
  simp only [Step.forM_eq_ok_iff (I := fun _ => True)
    (fun _ _ _ => trivial) hstep _ trivial, foldl_withHead]
  constructor
  · rintro ⟨_, ⟨heads, hheads, rfl⟩, rfl⟩
    exact ⟨heads, hheads, rfl⟩
  · rintro ⟨heads, hheads, rfl⟩
    exact ⟨_, ⟨heads, hheads, rfl⟩, rfl⟩

theorem compileSymbols_eq_ok_iff (h : g.drafts.IsOpen)
    (hphase : g.completed = [.registries, .metadata]) :
    compileSymbols g = (.ok ⟨⟩, g') ↔
      ∃ referenced, g.targets = .ok referenced ∧
      ∃ rs, g.books.env.symbols.entries.mapM
          (fun s => symbolResult g.books.env referenced s.1 s.2) = .ok rs ∧
        g' = (rs.foldl absorb (g.begun .symbols)).ended .symbols := by
  rw [compileSymbols, inPhase_eq_ok_iff (by rw [hphase]; rfl), Step.get_bind]
  have hopen : (g.begun .symbols).drafts.IsOpen := h
  simp only [Step.compute_bind_eq_ok_iff, Step.get_bind,
    forM_compileSymbol_eq_ok_iff hopen]
  constructor
  · rintro ⟨_, ⟨referenced, hreferenced, rs, hrs, rfl⟩, rfl⟩
    exact ⟨referenced, hreferenced, rs, hrs, rfl⟩
  · rintro ⟨referenced, hreferenced, rs, hrs, rfl⟩
    exact ⟨_, ⟨referenced, hreferenced, rs, hrs, rfl⟩, rfl⟩

theorem head?_block (path : String) (d : DispatcherSymbol) :
    ∃ c, (block path d).head? = some c ∧ c.path = path := by
  have hsome : d.declarations ≠ [] := by simp [DispatcherSymbol.declarations]
  obtain ⟨first, rest, hd⟩ := List.exists_cons_of_ne_nil hsome
  rw [block, hd]
  exact ⟨_, rfl, rfl⟩

/-- Whether it moves or not, a dispatcher is first heard of in
the shared module. -/
theorem head?_contributions (p : Placement) :
    ∃ c, p.contributions.head? = some c ∧ c.path = tablesModule := by
  rw [Placement.contributions]
  split
  · exact head?_block tablesModule p.symbol
  · exact ⟨_, rfl, rfl⟩

theorem head?_tables (ps : List Placement) :
    ∃ c, (ps.flatMap (·.contributions) ++ [catalogueOf ps]).head? = some c ∧
      c.path = tablesModule := by
  cases ps with
  | nil => exact ⟨_, rfl, rfl⟩
  | cons p rest =>
      obtain ⟨c, hhead, hpath⟩ := head?_contributions p
      refine ⟨c, ?_, hpath⟩
      rw [List.flatMap_cons, List.append_assoc, List.head?_append, hhead]
      rfl

theorem compileTables_eq_ok_iff {refs : List Reference}
    {history : List Contribution} (h : Tracks refs history g)
    (hphase : g.completed = [.registries, .metadata, .symbols]) :
    compileTables g = (.ok ⟨⟩, g') ↔
      ∃ ps, placeTables g.books.env g.dispatchers refs history
        g.dispatchers.sortedKeys = .ok ps ∧
        g' = ((ps.foldl place (g.begun .tables)).extend [catalogueOf ps]).ended
          .tables := by
  have hbegun : Tracks refs history (g.begun .tables) := { h with }
  have htracks := hbegun.ensure tablesModule
  -- The shared module is opened first, but it is also the first one that is
  -- written to.
  have hopened : ∀ ps : List Placement,
      (ps.foldl place { g.begun .tables with
        drafts := (g.begun .tables).drafts.ensure tablesModule }).extend
          [catalogueOf ps] =
            (ps.foldl place (g.begun .tables)).extend [catalogueOf ps] := by
    intro ps
    rw [foldl_place, foldl_place, extend, extend]
    simp only [← Drafts.extend_append, Drafts.extend_ensure (head?_tables ps)]
  have hdeclare : ∀ ps : List Placement,
      declare tablesModule
        (.typeAlias (dispatcherCatalogue (exportedSymbols ps)).1)
          (some (dispatcherCatalogue (exportedSymbols ps)).2) none
          (ps.foldl place { g.begun .tables with
            drafts := (g.begun .tables).drafts.ensure tablesModule }) =
        (.ok ⟨⟩, (ps.foldl place (g.begun .tables)).extend
          [catalogueOf ps]) := by
    intro ps
    rw [← hopened]
    apply declare_eq _ (catalogueOf ps)
    rw [foldl_place]
    exact htracks.isOpen.extend _
  rw [compileTables, inPhase_eq_ok_iff (by rw [hphase]; rfl),
    Step.bind_of_ok (openDraft_eq hbegun.isOpen tablesModule), Step.get_bind]
  simp only [Step.bind_eq_ok_iff, mapM_compileTable_eq_ok_iff htracks]
  constructor
  · rintro ⟨g₁, ⟨_, _, ⟨ps, hps, rfl, rfl⟩, hlast⟩, rfl⟩
    obtain ⟨-, rfl⟩ := Prod.mk.inj ((hdeclare ps).symm.trans hlast)
    exact ⟨ps, hps, rfl⟩
  · rintro ⟨ps, hps, rfl⟩
    exact ⟨_, ⟨_, _, ⟨ps, hps, rfl, rfl⟩, hdeclare ps⟩, rfl⟩

/-- The module of every reference has something in it. -/
theorem exists_symbolPart_of_reference {entries : List (String × Symbol)}
    {env : Environment} {referenced : List Json} {rs : List SymbolResult}
    (h : entries.mapM (fun s => symbolResult env referenced s.1 s.2) = .ok rs)
    {ref : Reference} (href : ref ∈ rs.flatMap (·.references)) :
    ∃ c ∈ rs.filterMap (·.contribution?), c.path = ref.source := by
  obtain ⟨r, hr, href⟩ := List.mem_flatMap.mp href
  obtain ⟨s, -, hs⟩ := exists_of_mem_mapM h hr
  obtain ⟨c, hc, hpath⟩ := exists_contribution_of_reference hs href
  exact ⟨c, List.mem_filterMap.mpr ⟨r, hr, hc⟩, hpath⟩

namespace Survey

variable {r : Survey}

theorem Describes.tracks_halfway (h : r.Describes g) :
    Tracks r.references (r.registryPart ++ r.symbolPart) (r.halfway g) where
  isOpen := History.isOpen_drafts
  draft path := History.draft_drafts
  modules c hc := History.mem_keys_drafts.mpr ⟨c, hc, rfl⟩
  sources ref href := by
    obtain ⟨c, hc, hpath⟩ := exists_symbolPart_of_reference h.symbols href
    exact ⟨c, List.mem_append_right _ hc, hpath⟩
  owner registry := Bookkeeping.owner?_foldl_count rfl r.references registry
  homes registry owner hhome := by
    have hnone : (r.halfway g).books.homes = {} :=
      Bookkeeping.homes_foldl_count r.references
    rw [hnone] at hhome
    cases hhome

theorem Describes.keys_heads (h : r.Describes g) :
    r.heads.map (·.1) = g.dispatchers.keys := by
  have hall := mapM_eq_ok_iff.mp h.heads
  rw [Table.keys]
  generalize g.dispatchers.entries = entries, r.heads = heads at hall
  induction hall with
  | nil => rfl
  | cons hhead _ ih =>
      obtain ⟨info, -, hhead⟩ := bind_eq_ok_iff.mp hhead
      cases pure_eq_ok_iff.mp hhead
      exact congrArg (_ :: ·) ih

/-- What is known of the dispatchers, under their registries. -/
theorem Describes.dispatchers_env (h : r.Describes g)
    (hnodup : g.dispatchers.keys.Nodup) (symbols : Symbols) :
    (r.env symbols).dispatchers = ⟨r.heads⟩ := by
  apply Table.foldl_put_empty
  rw [h.keys_heads]
  exact hnodup

theorem draft_halfway (path : String) :
    (r.halfway g).drafts.draft path =
      History.draft (r.registryPart ++ r.symbolPart) path :=
  History.draft_drafts

theorem env_halfway : (r.halfway g).books.env = r.env g.books.env.symbols :=
  Bookkeeping.env_foldl_count r.references

end Survey

/-- The run once the dispatchers are known. -/
def Survey.surveyed (r : Survey) (g : Run) : Run :=
  (((((((g.begun .registries).withEnv
      (withRegistries r.registries r.translationKey?)).extend
    r.registryPart).ended .registries).begun .metadata).withEnv
    (withHeads r.heads)).ended .metadata)

theorem IsFresh.eq (h : g.IsFresh) : g =
    { books := { env := { symbols := g.books.env.symbols } }
      dispatchers := g.dispatchers
      registries := g.registries
      translationKeys := g.translationKeys
      blockProperties := g.blockProperties } := by
  obtain ⟨hbooks, hdrafts, hcompleted, hredirects, hjournal⟩ := h
  rcases g with ⟨_, _, _, _, _, _, _, _, _⟩
  dsimp only at hbooks hdrafts hcompleted hredirects hjournal ⊢
  rw [hdrafts, hcompleted, hredirects, hjournal, ← hbooks]

theorem IsFresh.drafts_surveyed (h : g.IsFresh) (r : Survey) :
    (r.surveyed g).drafts = History.drafts r.registryPart := by
  rw [h.eq]
  rfl

theorem IsFresh.env_surveyed (h : g.IsFresh) (r : Survey) :
    (r.surveyed g).books.env = r.env g.books.env.symbols := by
  rw [h.eq]
  rfl

theorem IsFresh.halfway_eq (h : g.IsFresh) (r : Survey) :
    (r.symbols.foldl absorb ((r.surveyed g).begun .symbols)).ended .symbols =
      r.halfway g := by
  rw [h.eq, foldl_absorb, Survey.halfway, History.drafts, Drafts.extend_append]
  rfl

theorem IsFresh.completed_append (h : g.IsFresh) (phases : List Phase) :
    g.completed ++ phases = phases := by
  rw [h.completed, List.nil_append]

/-- The states that a run goes through before it places the dispatchers. -/
theorem Survey.Describes.phases {r : Survey} (hr : r.Describes g)
    (hfresh : g.IsFresh) :
    (do declareRegistries; noteDispatchers : Step Unit) g =
      (.ok ⟨⟩, r.surveyed g) ∧
      compileSymbols (r.surveyed g) = (.ok ⟨⟩, r.halfway g) := by
  have hopen : g.drafts.IsOpen := hfresh.drafts ▸ Drafts.isOpen_empty
  constructor
  · refine Step.bind_eq_ok_iff.mpr ⟨⟨⟩, _,
      (declareRegistries_eq_ok_iff hopen hfresh.completed).mpr
      ⟨_, hr.registries, _, hr.translationKey, _, hr.blockStateKey, rfl⟩, ?_⟩
    exact (noteDispatchers_eq_ok_iff (hfresh.completed_append _)).mpr ⟨_,
      hr.heads, rfl⟩
  · have hsymbols := hr.symbols
    rw [← hfresh.env_surveyed r] at hsymbols
    exact (compileSymbols_eq_ok_iff (hopen.extend _)
        (congrArg (· ++ _) (hfresh.completed_append _))).mpr
      ⟨_, hr.referenced, _, hsymbols, (hfresh.halfway_eq r).symm⟩

/-- The first three phases of a fresh run. -/
theorem phases_eq_ok_iff (hfresh : g.IsFresh) :
    (do declareRegistries; noteDispatchers; compileSymbols : Step Unit) g =
      (.ok ⟨⟩, g') ↔
      ∃ r : Survey, r.Describes g ∧ g' = r.halfway g := by
  have hopen : g.drafts.IsOpen := hfresh.drafts ▸ Drafts.isOpen_empty
  constructor
  · intro h
    obtain ⟨⟨⟩, g₁, h₁, h⟩ := Step.bind_eq_ok_iff.mp h
    obtain ⟨registries, hregistries, key?, hkey, block?, hblock, rfl⟩ :=
      (declareRegistries_eq_ok_iff hopen hfresh.completed).mp h₁
    obtain ⟨⟨⟩, g₂, h₂, h₃⟩ := Step.bind_eq_ok_iff.mp h
    obtain ⟨heads, hheads, rfl⟩ :=
      (noteDispatchers_eq_ok_iff (hfresh.completed_append _)).mp h₂
    obtain ⟨referenced, hreferenced, rs, hrs, rfl⟩ :=
      (compileSymbols_eq_ok_iff (hopen.extend _)
        (congrArg (· ++ _) (hfresh.completed_append _))).mp h₃
    let r : Survey := ⟨registries, key?, block?, heads, referenced, rs⟩
    refine ⟨r, ⟨hregistries, hkey, hblock, hheads, hreferenced, ?_⟩,
      hfresh.halfway_eq r⟩
    rw [← hfresh.env_surveyed r]
    exact hrs
  · rintro ⟨r, hr, rfl⟩
    obtain ⟨hearly, hsymbols⟩ := hr.phases hfresh
    obtain ⟨⟨⟩, g₁, h₁, h₂⟩ := Step.bind_eq_ok_iff.mp hearly
    exact Step.bind_eq_ok_iff.mpr ⟨⟨⟩, g₁, h₁,
      Step.bind_eq_ok_iff.mpr ⟨⟨⟩, _, h₂, hsymbols⟩⟩

theorem close_eq_ok_iff {modules : List OutputModule} :
    close g = (.ok modules, g') ↔ (g.drafts.close g.redirects).1 = .ok modules ∧
      g' = { g with drafts := { g.drafts with closed := true } } := by
  rw [eq_comm (a := g')]
  exact iff_of_eq (Prod.mk.injEq ..)

/-- The state in which the modules are finished. -/
def placed (r : Record) (g : Run) : Run :=
  ((r.placements.foldl place ((r.halfway g).begun .tables)).extend
    [catalogueOf r.placements]).ended .tables

theorem IsFresh.placed_eq (h : g.IsFresh) (r : Record) : placed r g =
    { g with
      books := r.books g.books.env.symbols
      drafts := History.drafts r.history
      completed := Phase.all
      redirects := r.redirects
      journal := Phase.all.map .resolving } := by
  rw [placed, foldl_place, Record.history, Record.tablePart, History.drafts,
    Drafts.extend_append, Drafts.extend_append, h.eq]
  rfl

/-- A run succeeds exactly if there is a record of it. -/
theorem runAll_eq_ok_iff (hfresh : g.IsFresh) {modules : List OutputModule} :
    runAll g = (.ok modules, g') ↔
      ∃ r : Record, r.Describes g ∧ r.modules = .ok modules ∧
        g' = r.final g modules := by
  have hplaced : ∀ r : Record,
      ((placed r g).drafts.close (placed r g).redirects).1 = r.modules := by
    intro r
    rw [hfresh.placed_eq]
    rfl
  have hfinal : ∀ r : Record, { placed r g with
      drafts := { (placed r g).drafts with closed := true }
      journal := (placed r g).journal ++ [.resolved modules.length] } =
        r.final g modules := by
    intro r
    rw [hfresh.placed_eq]
    rfl
  constructor
  · intro h
    obtain ⟨⟨⟩, g₁, h₁, h⟩ := Step.bind_eq_ok_iff.mp h
    obtain ⟨⟨⟩, g₂, h₂, h⟩ := Step.bind_eq_ok_iff.mp h
    obtain ⟨⟨⟩, g₃, h₃, h⟩ := Step.bind_eq_ok_iff.mp h
    obtain ⟨⟨⟩, g₄, h₄, h⟩ := Step.bind_eq_ok_iff.mp h
    obtain ⟨modules', g₅, h₅, h⟩ := Step.bind_eq_ok_iff.mp h
    obtain ⟨s, hs, rfl⟩ := (phases_eq_ok_iff hfresh).mp (Step.bind_eq_ok_iff.mpr
      ⟨⟨⟩, g₁, h₁, Step.bind_eq_ok_iff.mpr ⟨⟨⟩, g₂, h₂, h₃⟩⟩)
    obtain ⟨ps, hps, rfl⟩ :=
      (compileTables_eq_ok_iff hs.tracks_halfway rfl).mp h₄
    rw [Survey.env_halfway] at hps
    obtain ⟨hmodules, rfl⟩ := close_eq_ok_iff.mp h₅
    cases h
    let r : Record := { s with placements := ps }
    exact ⟨r, ⟨hs, hps⟩, (hplaced r).symm.trans hmodules, hfinal r⟩
  · rintro ⟨r, hr, hmodules, rfl⟩
    obtain ⟨⟨⟩, g₁, h₁, h⟩ := Step.bind_eq_ok_iff.mp
      ((phases_eq_ok_iff hfresh).mpr ⟨r.toSurvey, hr.toDescribes, rfl⟩)
    obtain ⟨⟨⟩, g₂, h₂, h₃⟩ := Step.bind_eq_ok_iff.mp h
    have hps := hr.placements
    rw [← Survey.env_halfway] at hps
    have h₄ := (compileTables_eq_ok_iff hr.toDescribes.tracks_halfway rfl).mpr
      ⟨_, hps, rfl⟩
    have h₅ := close_eq_ok_iff.mpr ⟨(hplaced r).trans hmodules, rfl⟩
    refine Step.bind_eq_ok_iff.mpr ⟨⟨⟩, g₁,
      h₁, Step.bind_eq_ok_iff.mpr ⟨⟨⟩, g₂, h₂,
      Step.bind_eq_ok_iff.mpr ⟨⟨⟩, _, h₃, Step.bind_eq_ok_iff.mpr ⟨⟨⟩, _, h₄,
        Step.bind_eq_ok_iff.mpr ⟨modules, _, h₅, ?_⟩⟩⟩⟩⟩
    rw [← hfinal r]
    rfl

end Run

end Typings
