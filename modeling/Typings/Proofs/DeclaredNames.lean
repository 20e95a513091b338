import Typings.Proofs.ImportsResolve
import Mathlib.Data.List.Induction

/-!
When the names that a module declares are distinct. A dispatcher moves
into a module only if none of its names is declared there, so beside its
other declarations nothing can collide but the names of its own members.
The shared module and the module of the registries are not checked, and
there names can meet.
-/

namespace Typings

/-- What the name of a member ends in, special or not. -/
def endingOf (key : String) : String :=
  if key = otherKey then "FallbackType" else if key = absentKey then "NoneType"
  else memberEnding key

theorem memberName_eq (info : DispatcherHead) (key : String) :
    memberName info key = info.name ++ endingOf key := by
  rw [memberName, endingOf]
  split
  · rfl
  · split <;> rfl

/-- The members keep clear of the names that every dispatcher declares. -/
theorem memberEnding_not_mem (key : String) :
    memberEnding key ∉ reservedEndings := by
  have hlonger :
      ∀ e ∈ reservedEndings, e ++ "Member" ∉ reservedEndings := by decide
  rw [memberEnding]
  split
  · rename_i hreserved
    exact hlonger _ (List.contains_iff_mem.mp hreserved)
  · rename_i hfree
    exact fun hmem => hfree (List.contains_iff_mem.mpr hmem)

/-- No ending of a declaration that every dispatcher has is as long as the word
before the symbol. -/
theorem append_ne_tableName {ending : String} (h : ending ∈ reservedEndings)
    (base : String) :
    base ++ ending ≠ "Symbol" ++ base := by
  have hlength : ∀ e ∈ reservedEndings, e.length ≠ "Symbol".length := by decide
  intro heq
  have hsum := congrArg String.length heq
  rw [String.length_append, String.length_append] at hsum
  exact hlength ending h (by omega)

theorem mem_ordinaryKeys {members : Table Schema} {key : String} :
    key ∈ ordinaryKeys members ↔
      key ∈ members.keys ∧ key ≠ otherKey ∧ key ≠ absentKey := by
  simp [ordinaryKeys, isSpecialMember]

/-- A special member has an ending that no ordinary one has. -/
theorem endingOf_cases (key : String) :
    key = otherKey ∧ endingOf key = "FallbackType" ∨ key = absentKey ∧
      endingOf key = "NoneType" ∨
      (key ≠ otherKey ∧ key ≠ absentKey) ∧ endingOf key = memberEnding key ∧
        endingOf key ∉ reservedEndings := by
  by_cases hother : key = otherKey
  · exact Or.inl ⟨hother, if_pos hother⟩
  · by_cases habsent : key = absentKey
    · exact Or.inr
        (Or.inl ⟨habsent, by rw [endingOf, if_neg hother, if_pos habsent]⟩)
    · have hending : endingOf key = memberEnding key := by
        rw [endingOf, if_neg hother, if_neg habsent]
      exact Or.inr (Or.inr ⟨⟨hother, habsent⟩, hending,
        hending ▸ memberEnding_not_mem key⟩)

theorem endingOf_of_mem {members : Table Schema} {key : String}
    (h : key ∈ ordinaryKeys members) :
    endingOf key = memberEnding key := by
  obtain ⟨-, hother, habsent⟩ := mem_ordinaryKeys.mp h
  rw [endingOf, if_neg hother, if_neg habsent]

/-- The names of all declarations of a dispatcher, in order. -/
def declaredNames (registry : String) (members : Table Schema) : List String :=
  members.keys.map (baseName registry ++ endingOf ·) ++
    [baseName registry ++ "Map", baseName registry ++ "Keys",
      baseName registry ++ "Fallback", tableNameOf registry]

/-- The members of a dispatcher have names of their own: no two of them have the
same one, and none has that of the symbol. -/
structure MembersApart (registry : String) (members : Table Schema) : Prop where
  distinct : ∀ key ∈ ordinaryKeys members, ∀ key' ∈ ordinaryKeys members,
    memberEnding key = memberEnding key' → key = key'
  symbol : ∀ key ∈ ordinaryKeys members,
    baseName registry ++ memberEnding key ≠ tableNameOf registry

section Dispatcher

variable {registry : String} {members : Table Schema}

theorem endingOf_inj_on (h : MembersApart registry members)
    {key key' : String} (hkey : key ∈ members.keys)
    (hkey' : key' ∈ members.keys) (heq : endingOf key = endingOf key') :
    key = key' := by
  have hother : "FallbackType" ∈ reservedEndings := by decide
  have habsent : "NoneType" ∈ reservedEndings := by decide
  have hne : "FallbackType" ≠ "NoneType" := by decide
  rcases endingOf_cases key with ⟨rfl, he⟩ | ⟨rfl, he⟩ | ⟨hordinary, he, hfree⟩
  · rcases endingOf_cases key' with ⟨rfl, -⟩ | ⟨rfl, he'⟩ | ⟨-, -, hfree'⟩
    · rfl
    · rw [he, he'] at heq
      exact absurd heq hne
    · rw [← heq, he] at hfree'
      exact absurd hother hfree'
  · rcases endingOf_cases key' with ⟨rfl, he'⟩ | ⟨rfl, -⟩ | ⟨-, -, hfree'⟩
    · rw [he, he'] at heq
      exact absurd heq.symm hne
    · rfl
    · rw [← heq, he] at hfree'
      exact absurd habsent hfree'
  · rcases endingOf_cases key' with ⟨rfl, he'⟩ | ⟨rfl, he'⟩ |
      ⟨hordinary', he', -⟩
    · rw [heq, he'] at hfree
      exact absurd hother hfree
    · rw [heq, he'] at hfree
      exact absurd habsent hfree
    · rw [he, he'] at heq
      exact h.distinct key (mem_ordinaryKeys.mpr ⟨hkey, hordinary⟩) key'
        (mem_ordinaryKeys.mpr ⟨hkey', hordinary'⟩) heq

theorem nodup_generatedNames (base : String) :
    [base ++ "Map", base ++ "Keys", base ++ "Fallback",
      "Symbol" ++ base].Nodup := by
  have hsymbol : ∀ e ∈ reservedEndings, base ++ e ≠ "Symbol" ++ base :=
    fun e he => append_ne_tableName he base
  simp [String.append_right_inj, hsymbol "Map" (by decide),
    hsymbol "Keys" (by decide), hsymbol "Fallback" (by decide)]

/-- The name of a member is none of those that every dispatcher declares. -/
theorem endingOf_ne (h : MembersApart registry members) {key : String}
    (hkey : key ∈ members.keys) :
    ∀ name ∈ [baseName registry ++ "Map",
      baseName registry ++ "Keys", baseName registry ++ "Fallback",
      tableNameOf registry], baseName registry ++ endingOf key ≠ name := by
  have hgenerated : ∀ e ∈ ["Map", "Keys", "Fallback"], endingOf key ≠ e := by
    intro e he heq
    rcases endingOf_cases key with ⟨-, hending⟩ | ⟨-, hending⟩ | ⟨-, -, hfree⟩
    · rw [← heq, hending] at he
      exact absurd he (by decide)
    · rw [← heq, hending] at he
      exact absurd he (by decide)
    · have hreserved :
          ∀ e ∈ ["Map", "Keys", "Fallback"], e ∈ reservedEndings := by decide
      exact hfree (heq ▸ hreserved e he)
  have hsymbol : baseName registry ++ endingOf key ≠ tableNameOf registry := by
    rcases endingOf_cases key with ⟨-, hending⟩ | ⟨-, hending⟩ |
      ⟨hordinary, hending, -⟩
    · rw [hending]
      exact append_ne_tableName (by decide) _
    · rw [hending]
      exact append_ne_tableName (by decide) _
    · rw [hending]
      exact h.symbol key (mem_ordinaryKeys.mpr ⟨hkey, hordinary⟩)
  simp only [List.forall_mem_cons, ne_eq, String.append_right_inj]
  exact ⟨hgenerated _ (by decide), hgenerated _ (by decide),
    hgenerated _ (by decide), hsymbol, by simp⟩

/-- The names of a dispatcher are distinct exactly if its members are apart. -/
theorem nodup_declaredNames_iff (hnodup : members.keys.Nodup) :
    (declaredNames registry members).Nodup ↔ MembersApart registry members := by
  rw [declaredNames, List.nodup_append, List.nodup_map_iff_inj_on hnodup]
  constructor
  · rintro ⟨hinj, -, hapart⟩
    refine ⟨fun key hkey key' hkey' heq => ?_, fun key hkey => ?_⟩
    · refine hinj key (mem_ordinaryKeys.mp hkey).1 key'
        (mem_ordinaryKeys.mp hkey').1 ?_
      rw [endingOf_of_mem hkey, endingOf_of_mem hkey', heq]
    · rw [← endingOf_of_mem hkey]
      exact hapart _ (List.mem_map_of_mem (mem_ordinaryKeys.mp hkey).1)
        _ (by simp)
  · intro h
    refine ⟨fun key hkey key' hkey' heq => ?_, nodup_generatedNames _,
      fun name hname => ?_⟩
    · exact endingOf_inj_on h hkey hkey' ((String.append_right_inj _).mp heq)
    · obtain ⟨key, hkey, rfl⟩ := List.mem_map.mp hname
      exact endingOf_ne h hkey

end Dispatcher

def DispatcherSymbol.names (d : DispatcherSymbol) : List String :=
  d.declarations.map (·.name)

theorem name_declareMember (info : DispatcherHead) (name : String)
    (c : Compiled) :
    (declareMember info name c).name = name := by
  rw [declareMember]
  split <;> rfl

theorem names_compileMember {env : Environment}
    {info : DispatcherHead} {entries : List (String × Schema)}
    {compiled : List (Alias × Option ImportPaths)}
    (h : entries.mapM (fun m => compileMember env info m.1 m.2) =
      .ok compiled) :
    compiled.map (·.1.name) = entries.map (info.name ++ endingOf ·.1) := by
  have hall := mapM_eq_ok_iff.mp h
  clear h
  induction hall with
  | nil => rfl
  | cons hhead _ ih =>
      obtain ⟨c, -, hhead⟩ := bind_eq_ok_iff.mp hhead
      cases pure_eq_ok_iff.mp hhead
      rw [List.map_cons, ih, List.map_cons, name_declareMember, memberName_eq]

theorem names_of_build {env : Environment} {registry : String}
    {members : Table Schema} {d : DispatcherSymbol}
    (h : DispatcherSymbol.build env registry members = .ok d)
    (hname : d.info.name = baseName registry) :
    d.names = declaredNames registry members := by
  rw [DispatcherSymbol.build] at h
  split at h
  · cases h
  · obtain ⟨compiled, hcompiled, h⟩ := bind_eq_ok_iff.mp h
    cases pure_eq_ok_iff.mp h
    have hmembers := names_compileMember hcompiled
    dsimp only [DispatcherSymbol.assemble] at hname
    simp [DispatcherSymbol.names, DispatcherSymbol.declarations,
      DispatcherSymbol.assemble, declaredNames,
      DispatcherHead.tableName, tableNameOf, Table.keys, ← hname, hmembers,
      Function.comp_def]

/-- The names of the aliases among declarations. -/
def aliasNames (ds : List Declaration) : List String :=
  ds.filterMap fun d => d.typeAlias?.map (·.name)

theorem aliasNames_append (ds more : List Declaration) :
    aliasNames (ds ++ more) = aliasNames ds ++ aliasNames more :=
  List.filterMap_append ..

theorem aliasNames_map_typeAlias (aliases : List Alias) :
    aliasNames (aliases.map .typeAlias) = aliases.map (·.name) := by
  rw [aliasNames, List.filterMap_map]
  exact congrFun List.filterMap_eq_map' aliases

theorem OutputModule.names_aliases (m : OutputModule) :
    m.aliases.map (·.name) = aliasNames m.declarations := by
  rw [OutputModule.aliases, aliasNames, List.map_filterMap]

namespace Run

theorem aliasNames_declarationsIn (p : Placement) (path : String) :
    aliasNames (p.declarationsIn path) =
      if p.module = path then p.symbol.names else [] := by
  have hreExports :
      aliasNames (if path = tablesModule then
        p.reExport?.toList.map .reExport else []) = [] := by
    split
    · cases p.reExport? <;> rfl
    · rfl
  rw [Placement.declarationsIn, aliasNames_append, hreExports, List.nil_append]
  by_cases hpath : p.module = path
  · rw [if_pos hpath.symm, if_pos hpath, aliasNames_map_typeAlias]
    rfl
  · rw [if_neg (Ne.symm hpath), if_neg hpath]
    rfl

/-- The names that placed dispatchers declare in a module, in order. -/
theorem aliasNames_flatMap (ps : List Placement) (path : String) :
    aliasNames (ps.flatMap (·.declarationsIn path)) =
      (ps.filter (·.module = path)).flatMap (·.symbol.names) := by
  induction ps with
  | nil => rfl
  | cons p rest ih =>
      rw [List.flatMap_cons, aliasNames_append, ih, aliasNames_declarationsIn,
        List.filter_cons]
      by_cases hpath : p.module = path
      · simp [hpath]
      · simp [hpath]

theorem aliasNames_tableDeclarations (ps : List Placement) (path : String) :
    aliasNames (tableDeclarations ps path) =
      (ps.filter (·.module = path)).flatMap (·.symbol.names) ++
      if path = tablesModule then ["Dispatcher"] else [] := by
  rw [tableDeclarations, aliasNames_append, aliasNames_flatMap]
  split <;> rfl

end Run

/-- The names that paths bring in from other modules. -/
theorem Draft.mem_foreignNames
    {draft : Draft} {ignored paths names : List String}
    (h : draft.foreignNames ignored paths = .ok names) {name : String} :
    name ∈ names ↔ ∃ path ∈ paths, path ∉ ignored ∧
      draft.owns path = .ok false ∧ lastSegment path = name := by
  induction paths generalizing names with
  | nil =>
      cases h
      simp
  | cons path rest ih =>
      rw [foreignNames] at h
      split at h
      · rename_i hignored
        rw [ih h]
        simp [List.contains_iff_mem.mp hignored]
      · rename_i hignored
        have hignored : path ∉ ignored :=
          fun hmem => hignored (List.contains_iff_mem.mpr hmem)
        obtain ⟨owned, howned, h⟩ := bind_eq_ok_iff.mp h
        cases owned with
        | true =>
            rw [ih h]
            simp [howned]
        | false =>
            obtain ⟨more, hmore, h⟩ := bind_eq_ok_iff.mp h
            obtain rfl := pure_eq_ok_iff.mp h
            rw [List.mem_cons, ih hmore]
            simp [howned, hignored, eq_comm]

/-- The dispatcher may move into the module: none of its names is declared or
brought in there, and none of those that it brings in is declared. Its own
symbol does not count. -/
structure DispatcherSymbol.Fits (d : DispatcherSymbol) (draft : Draft) :
    Prop where
  declared : ∀ name ∈ d.names, name ∉ draft.aliasNames
  imported : ∀ path ∈ draft.importPaths, path ≠ tablePath d.info.tableName →
    draft.owns path = .ok false →
    lastSegment path ∉ d.names
  brought : ∀ path ∈ importedPaths d.imports,
    path ≠ tablePath d.info.tableName → draft.owns path = .ok false →
    lastSegment path ∉ draft.aliasNames

theorem Run.fits_of_clashes {draft : Draft} {d : DispatcherSymbol}
    (h : clashes draft d = .ok false) :
    d.Fits draft := by
  obtain ⟨imported, himported, h⟩ := bind_eq_ok_iff.mp h
  obtain ⟨brought, hbrought, h⟩ := bind_eq_ok_iff.mp h
  have hpaths : draft.foreignNames [tablePath d.info.tableName]
      (importedPaths d.imports) = .ok brought := by
    rw [← hbrought]
    cases d.imports <;> rfl
  have hnone := pure_eq_ok_iff.mp h
  rw [Bool.or_eq_false_iff, List.any_eq_false, List.any_eq_false] at hnone
  obtain ⟨htwice, hnone⟩ := hnone
  have hnames : ∀ name ∈ d.names, name ∉ draft.aliasNames ∧
      name ∉ imported := by
    intro name hname
    obtain ⟨a, ha, rfl⟩ := List.mem_map.mp hname
    simpa [not_or] using htwice a ha
  refine ⟨fun name hname => (hnames name hname).1,
    fun path hpath hne howns hname => ?_,
    fun path hpath hne howns hdeclared => ?_⟩
  · exact (hnames _ hname).2
      ((Draft.mem_foreignNames himported).mpr ⟨path, hpath, by simpa using hne,
        howns, rfl⟩)
  · refine hnone (lastSegment path) ?_ (List.contains_iff_mem.mpr hdeclared)
    exact (Draft.mem_foreignNames hpaths).mpr ⟨path, hpath, by simpa using hne,
      howns, rfl⟩

namespace Run

theorem home_of_module {p : Placement} {path : String}
    (hmodule : p.module = path) (hne : path ≠ tablesModule) :
    p.home.map (·.1) = some path := by
  rw [Placement.module] at hmodule
  split at hmodule
  · rename_i owner file hhome
    rw [hhome, Option.map_some, hmodule]
  · exact absurd hmodule.symm hne

/-- A dispatcher that has moved into a module fits what the
module held by then. -/
theorem fits_of_placeTables {env : Environment} {dispatchers : Dispatchers}
    {refs : List Reference} {history : List Contribution}
    {registries : List String} {ps : List Placement}
    (h : placeTables env dispatchers refs history registries = .ok ps)
    {path : String} (hne : path ≠ tablesModule)
    {front back : List Placement} {p : Placement}
    (hsplit : ps = front ++ p :: back) (hmodule : p.module = path) :
    p.symbol.Fits
      (History.draft (history ++ front.flatMap (·.contributions)) path) := by
  obtain ⟨-, -, howner, -⟩ :=
    placeTable_eq_ok ((placeTables_eq_ok h).2 front p back hsplit)
  exact fits_of_clashes ((howner path).mp (home_of_module hmodule hne)).2

/-- The names that a module declares once dispatchers have been placed. -/
theorem aliasNames_draft_placed (history : List Contribution)
    (ps : List Placement) (path : String) :
    (History.draft (history ++ ps.flatMap (·.contributions)) path).aliasNames =
      (History.draft history path).aliasNames ++
        (ps.filter (·.module = path)).flatMap (·.symbol.names) := by
  change aliasNames _ = aliasNames _ ++ _
  rw [History.declarations_draft,
    History.declarations_draft, List.filter_append, List.map_append,
    aliasNames_append, declarations_flatMap, aliasNames_flatMap]

/-- Away from the shared module, dispatchers add no name twice but those that
one of them has twice itself. -/
theorem nodup_draft_placed_iff {history : List Contribution} {path : String}
    (ps : List Placement)
    (hfits : ∀ front p back, ps = front ++ p :: back → p.module = path →
      p.symbol.Fits
        (History.draft (history ++ front.flatMap (·.contributions)) path)) :
    (History.draft (history ++
        ps.flatMap (·.contributions)) path).aliasNames.Nodup ↔
      (History.draft history path).aliasNames.Nodup ∧ ∀ p ∈ ps,
        p.module = path → p.symbol.names.Nodup := by
  induction ps using List.reverseRecOn with
  | nil => simp
  | append_singleton front p ih =>
      have hfront := ih fun before q after hsplit hmodule =>
        hfits before q (after ++ [p]) (by rw [hsplit]; simp) hmodule
      rw [List.flatMap_append, ← List.append_assoc, aliasNames_draft_placed,
        List.forall_mem_append, ← and_assoc, ← hfront]
      by_cases hmodule : p.module = path
      · have hfresh := (hfits front p [] rfl hmodule).declared
        simp only [List.filter_cons, hmodule, decide_true, if_true,
          List.filter_nil, List.flatMap_cons, List.flatMap_nil, List.append_nil,
          List.nodup_append, List.forall_mem_singleton, true_imp_iff]
        refine and_congr_right fun _ =>
          and_iff_left fun name hname name' hname' heq => ?_
        exact hfresh name' hname' (heq ▸ hname)
      · simp [hmodule]

/-- The names that the first phase declares in the module of the registries. -/
def Survey.registryNames (r : Survey) : List String :=
  (filledRegistries r.registries).map (constantName ·.1) ++ ["Registry"] ++
    (if r.translationKey?.isSome then ["TranslationKey"] else []) ++
    (if r.blockStateKey?.isSome then ["BlockStateKey"] else [])

/-- The names of the symbols that are declared in a module. -/
def symbolNames (g : Run) (referenced : List Json) (path : String) :
    List String :=
  (g.books.env.symbols.entries.filter (emits g.books.env referenced path)).map
    (lastSegment ·.1)

theorem name_literalAlias? {name : String} {values : List Json}
    {alias? : Option Alias} (h : literalAlias? name values = .ok alias?) :
    alias?.toList.map (·.name) = if alias?.isSome then [name] else [] := by
  obtain ⟨distinct, -, h⟩ := bind_eq_ok_iff.mp h
  split at h
  · cases h
    rfl
  · cases h
    rfl

variable {g : Run} {r : Survey}

theorem Survey.Describes.aliasNames_registryPart (hr : r.Describes g)
    (path : String) :
    aliasNames ((r.registryPart.filter (·.path == path)).map (·.declaration)) =
      if path = registriesModule then r.registryNames
      else if path = classesModule then ["ResourceClassTypes"] else [] := by
  have hne : registriesModule ≠ classesModule := by decide
  have haliases : ∀ (home : String) (aliases : List Alias),
      aliasNames (((aliases.map (aliasTo home)).filter (·.path == path)).map
          (·.declaration)) =
        if path = home then aliases.map (·.name) else [] := by
    intro home aliases
    by_cases hpath : path = home
    · rw [if_pos hpath, List.filter_eq_self.mpr (by simp [aliasTo, hpath]),
        List.map_map]
      exact aliasNames_map_typeAlias aliases
    · rw [if_neg hpath,
        List.filter_eq_nil_iff.mpr (by simp [aliasTo, Ne.symm hpath])]
      rfl
  have hclasses := haliases classesModule [resourcesByClass]
  rw [List.map_singleton] at hclasses
  rw [Survey.registryPart, registryContributions, List.filter_append,
    List.map_append, aliasNames_append, haliases, hclasses]
  by_cases hregistries : path = registriesModule
  · rw [if_pos hregistries, if_neg (hregistries ▸ hne),
      if_pos hregistries, List.append_nil, Survey.registryNames,
      ← name_literalAlias? hr.translationKey,
      ← name_literalAlias? hr.blockStateKey]
    simp [registryAliases, Function.comp_def]
  · rw [if_neg hregistries, if_neg hregistries]
    rfl

theorem Survey.Describes.aliasNames_symbolPart (hr : r.Describes g)
    (path : String) :
    aliasNames ((r.symbolPart.filter (·.path == path)).map (·.declaration)) =
      symbolNames g r.referenced path := by
  obtain ⟨aliases, hnames, haliases⟩ :=
    exists_aliases_of_forall₂ (forall₂_isAliasOf hr.symbols path)
  rw [Survey.symbolPart, haliases, aliasNames_map_typeAlias]
  have hall : List.Forall₂ (· = ·) (aliases.map (·.name))
      (symbolNames g r.referenced path) :=
    List.forall₂_map_left_iff.mpr (List.forall₂_map_right_iff.mpr hnames.flip)
  exact List.forall₂_eq_eq_eq ▸ hall

theorem eq_of_splitPath {path source name : String}
    (h : splitPath path = .ok (source, name)) :
    path = source ++ "::" ++ name := by
  rw [splitPath] at h
  split at h
  · rename_i front c rest hcut
    cases h
    apply String.toList_inj.mp
    rw [← append_of_cutAtLast? hcut]
    simp [String.toList_append]
  · cases h

/-- A symbol is known by its module and its name. -/
theorem eq_of_emits {env : Environment} {referenced : List Json} {path : String}
    {s : String × Symbol} (h : emits env referenced path s = true) :
    s.1 = path ++ "::" ++ lastSegment s.1 := by
  rw [emits, Bool.and_eq_true, Bool.and_eq_true] at h
  have hmodule := eq_of_beq h.1.2
  rw [moduleOf?] at hmodule
  split at hmodule
  · rename_i source name hsplit
    cases hmodule
    rw [lastSegment_of_splitPath hsplit]
    exact eq_of_splitPath hsplit
  · cases hmodule

/-- No two symbols of a module have the same name. -/
theorem nodup_symbolNames (hnodup : g.books.env.symbols.keys.Nodup)
    (referenced : List Json) (path : String) :
    (symbolNames g referenced path).Nodup := by
  have hkeys : ((g.books.env.symbols.entries.filter
      (emits g.books.env referenced path)).map (·.1)).Nodup :=
    (List.filter_sublist.map _).nodup hnodup
  rw [symbolNames]
  refine List.Nodup.map_on (fun s hs s' hs' heq => ?_)
    (List.Nodup.of_map _ hkeys)
  have hsame : s.1 = s'.1 := by
    rw [eq_of_emits (List.mem_filter.mp hs).2,
      eq_of_emits (List.mem_filter.mp hs').2, heq]
  exact List.inj_on_of_nodup_map hkeys hs hs' hsame

/-- The names in a module before the dispatchers are placed. -/
theorem Survey.Describes.aliasNames_draft (hr : r.Describes g) (path : String) :
    (History.draft (r.registryPart ++ r.symbolPart) path).aliasNames =
      (if path = registriesModule then r.registryNames
        else if path = classesModule then ["ResourceClassTypes"]
          else []) ++ symbolNames g r.referenced path := by
  change aliasNames _ = _
  rw [History.declarations_draft, List.filter_append, List.map_append,
    aliasNames_append, hr.aliasNames_registryPart, hr.aliasNames_symbolPart]

theorem Survey.Describes.nodup_draft_iff (hr : r.Describes g)
    (hnodup : g.books.env.symbols.keys.Nodup) (path : String) :
    (History.draft (r.registryPart ++ r.symbolPart) path).aliasNames.Nodup ↔
      (path = registriesModule →
          (r.registryNames ++ symbolNames g r.referenced path).Nodup) ∧
        (path = classesModule →
          "ResourceClassTypes" ∉ symbolNames g r.referenced path) := by
  have hsymbols := nodup_symbolNames hnodup r.referenced path
  have hne : registriesModule ≠ classesModule := by decide
  rw [hr.aliasNames_draft]
  by_cases hregistries : path = registriesModule
  · simp [hregistries, hne]
  · by_cases hclasses : path = classesModule
    · simp [hclasses ▸ hsymbols, hclasses, hne.symm]
    · simp [hregistries, hclasses, hsymbols]

section Modules

variable {g : Run} {r : Record} (hr : r.Describes g)
  (hdispatchers : g.dispatchers.keys.Nodup)

include hr hdispatchers

/-- What a placed dispatcher declares, by the keys of its members. -/
theorem Record.Describes.names_placed {p : Placement} (hp : p ∈ r.placements) :
    p.symbol.names =
      declaredNames p.registry ((g.dispatchers.get? p.registry).getD {}) := by
  obtain ⟨front, back, hsplit⟩ := List.append_of_mem hp
  obtain ⟨-, hbuild, -⟩ :=
    placeTable_eq_ok ((placeTables_eq_ok hr.placements).2 front p back hsplit)
  exact names_of_build hbuild
    ((String.append_right_inj "Symbol").mp (hr.placed hdispatchers hp).1)

theorem Record.Describes.nodup_names_iff
    (hmembers : ∀ members ∈ g.dispatchers.values, members.keys.Nodup)
    {p : Placement} (hp : p ∈ r.placements) :
    p.symbol.names.Nodup ↔
      MembersApart p.registry ((g.dispatchers.get? p.registry).getD {}) := by
  rw [hr.names_placed hdispatchers hp]
  apply nodup_declaredNames_iff
  cases hget : g.dispatchers.get? p.registry with
  | none => exact List.nodup_nil
  | some members =>
      have hentry := (Table.get?_eq_some_iff hdispatchers).mp hget
      exact hmembers members (List.mem_map.mpr ⟨_, hentry, rfl⟩)

theorem Record.Describes.names_module {modules : List OutputModule}
    (hmodules : r.modules = .ok modules)
    {m : OutputModule} (hm : m ∈ modules) : m.aliases.map (·.name) =
      (History.draft (r.registryPart ++ r.symbolPart) m.path).aliasNames ++
        ((r.placements.filter (·.module = m.path)).flatMap (·.symbol.names) ++
          if m.path = tablesModule then ["Dispatcher"] else []) := by
  rw [OutputModule.names_aliases, (Record.finishes hmodules hm).declarations,
    hr.declarations_history hdispatchers,
    aliasNames_append, aliasNames_tableDeclarations]
  rfl

/-- In the shared module nothing is checked, so all names there
have to be distinct. -/
theorem Record.Describes.names_shared {modules : List OutputModule}
    (hmodules : r.modules = .ok modules) {m : OutputModule} (hm : m ∈ modules)
    (hpath : m.path = tablesModule) : m.aliases.map (·.name) =
      symbolNames g r.referenced tablesModule ++
        ((r.placements.filter (·.module = tablesModule)).flatMap
        fun p => declaredNames p.registry
          ((g.dispatchers.get? p.registry).getD {})) ++ ["Dispatcher"] := by
  have hregistries : tablesModule ≠ registriesModule := by decide
  have hclasses : tablesModule ≠ classesModule := by decide
  rw [hr.names_module hdispatchers hmodules hm,
    hr.toDescribes.aliasNames_draft, hpath, if_neg hregistries,
    if_neg hclasses, if_pos rfl, List.nil_append, List.append_assoc]
  congr 2
  exact List.flatMap_congr fun p hp =>
    hr.names_placed hdispatchers (List.mem_of_mem_filter hp)

/-- In any other module only the members of one dispatcher can collide
with each other. -/
theorem Record.Describes.nodup_module_iff {modules : List OutputModule}
    (hmodules : r.modules = .ok modules)
    {m : OutputModule} (hm : m ∈ modules) (hpath : m.path ≠ tablesModule) :
    (m.aliases.map (·.name)).Nodup ↔
      (History.draft (r.registryPart ++ r.symbolPart) m.path).aliasNames.Nodup ∧
        ∀ p ∈ r.placements, p.module = m.path → p.symbol.names.Nodup := by
  rw [hr.names_module hdispatchers hmodules hm, if_neg hpath, List.append_nil,
    ← aliasNames_draft_placed]
  exact nodup_draft_placed_iff r.placements fun front p back hsplit hmodule =>
    fits_of_placeTables hr.placements hpath hsplit hmodule

end Modules

/-- When the names of a module are distinct. In the module of the registries no
two of them may have the same name, and no symbol that of a registry or of an
object that stands beside them. In every module the members of a dispatcher have
to be apart, and in the shared one all names. -/
theorem declared_names_distinct_iff
    {symbols : Symbols} {dispatchers : Dispatchers}
    {registries translationKeys blockProperties : Json}
    {g g' : Run} {modules : List OutputModule}
    (hstart : start symbols dispatchers registries
      translationKeys blockProperties = .ok g)
    (hrun : runAll g = (.ok modules, g')) (hsymbols : symbols.keys.Nodup)
    (hdispatchers : dispatchers.keys.Nodup)
    (hmembers : ∀ members ∈ dispatchers.values, members.keys.Nodup) :
    ∃ r : Record, r.Describes g ∧
      ∀ m ∈ modules, ((m.aliases.map (·.name)).Nodup ↔
      (m.path = registriesModule →
        (r.registryNames ++ symbolNames g r.referenced m.path).Nodup) ∧
      (m.path = classesModule →
        "ResourceClassTypes" ∉ symbolNames g r.referenced m.path) ∧
      (∀ p ∈ r.placements, p.module = m.path →
        MembersApart p.registry ((dispatchers.get? p.registry).getD {})) ∧
      (m.path = tablesModule →
        (symbolNames g r.referenced tablesModule ++
          ((r.placements.filter (·.module = tablesModule)).flatMap fun p =>
            declaredNames p.registry ((dispatchers.get? p.registry).getD {})) ++
            ["Dispatcher"]).Nodup)) := by
  obtain ⟨hfresh, rfl, rfl⟩ := isFresh_start hstart
  obtain ⟨r, hr, hmodules, -⟩ := (runAll_eq_ok_iff hfresh).mp hrun
  refine ⟨r, hr, fun m hm => ?_⟩
  by_cases hpath : m.path = tablesModule
  · have hregistries : m.path ≠ registriesModule := by rw [hpath]; decide
    have hclasses : m.path ≠ classesModule := by rw [hpath]; decide
    rw [hr.names_shared hdispatchers hmodules hm hpath]
    refine ⟨fun hnodup => ⟨fun h => absurd h hregistries,
      fun h => absurd h hclasses, fun p hp hmodule => ?_,
      fun _ => hnodup⟩, fun h => h.2.2.2 hpath⟩
    -- The names of one dispatcher are a part of all names.
    have htables := (List.nodup_append.mp (List.nodup_append.mp hnodup).1).2.1
    have hmem : p ∈ r.placements.filter (·.module = tablesModule) :=
      List.mem_filter.mpr ⟨hp, by simpa [hpath] using hmodule⟩
    rw [← hr.nodup_names_iff hdispatchers hmembers hp,
      hr.names_placed hdispatchers hp]
    exact (List.nodup_flatMap.mp htables).1 p hmem
  · rw [hr.nodup_module_iff hdispatchers hmodules hm hpath,
      hr.toDescribes.nodup_draft_iff hsymbols, and_assoc]
    refine and_congr_right fun _ => and_congr_right fun _ => ?_
    rw [and_iff_left fun h => absurd h hpath]
    exact forall₂_congr fun p hp => imp_congr_right fun _ =>
      hr.nodup_names_iff hdispatchers hmembers hp

/-- A run has one record. -/
theorem Record.Describes.unique {g : Run} {r r' : Record} (hr : r.Describes g)
    (hr' : r'.Describes g) :
    r = r' := by
  rcases r with ⟨⟨registries, translationKey?, blockStateKey?, heads,
    referenced, symbols⟩, placements⟩
  rcases r' with ⟨⟨registries', translationKey?', blockStateKey?', heads',
    referenced', symbols'⟩, placements'⟩
  obtain rfl := Except.ok.inj (hr.registries.symm.trans hr'.registries)
  obtain rfl := Except.ok.inj (hr.translationKey.symm.trans hr'.translationKey)
  obtain rfl := Except.ok.inj (hr.blockStateKey.symm.trans hr'.blockStateKey)
  obtain rfl := Except.ok.inj (hr.heads.symm.trans hr'.heads)
  obtain rfl := Except.ok.inj (hr.referenced.symm.trans hr'.referenced)
  obtain rfl := Except.ok.inj (hr.symbols.symm.trans hr'.symbols)
  obtain rfl := Except.ok.inj (hr.placements.symm.trans hr'.placements)
  rfl

/-- A run that has symbols and dispatchers and no registries. -/
def plainRun (symbols : Symbols) (dispatchers : Dispatchers) : Run :=
  { books := { env := { symbols } }, dispatchers, registries := .obj [] }

def plainSurvey (symbols : Symbols) (dispatchers : Dispatchers) : Survey :=
  let s : Survey :=
    { registries := {}
      translationKey? := none
      blockStateKey? := none
      heads := (dispatchers.entries.mapM headEntry).toOption.getD []
      referenced := (plainRun symbols dispatchers).targets.toOption.getD []
      symbols := [] }
  let results := symbols.entries.mapM fun e =>
    symbolResult (s.env symbols) s.referenced e.1 e.2
  { s with symbols := results.toOption.getD [] }

/-- The record of a run without registries that places its dispatchers in
the given order. -/
def plainRecord (symbols : Symbols) (dispatchers : Dispatchers)
    (order : List String) : Record :=
  let s := plainSurvey symbols dispatchers
  { s with
    placements := (placeTables (s.env symbols) dispatchers s.references
      (s.registryPart ++ s.symbolPart) order).toOption.getD [] }

theorem describes_plainRun {symbols : Symbols} {dispatchers : Dispatchers}
    {s : Survey} (hs : s = plainSurvey symbols dispatchers)
    {order : List String} (horder : dispatchers.sortedKeys = order)
    (hheads : (dispatchers.entries.mapM headEntry).isOk = true)
    (hreferenced : (plainRun symbols dispatchers).targets.isOk = true)
    (hsymbols : (symbols.entries.mapM fun e =>
      symbolResult (s.env symbols) s.referenced e.1 e.2).isOk = true)
    (hplaced : (placeTables (s.env symbols) dispatchers s.references
      (s.registryPart ++ s.symbolPart) order).isOk = true) :
    (plainRecord symbols dispatchers order).Describes
      (plainRun symbols dispatchers) where
  registries := rfl
  translationKey := literalAlias?_nil _
  blockStateKey := literalAlias?_nil _
  heads := eq_ok_getD_of_isOk hheads
  referenced := eq_ok_getD_of_isOk hreferenced
  symbols := by
    subst hs
    exact eq_ok_getD_of_isOk hsymbols
  placements := by
    subst hs horder
    exact eq_ok_getD_of_isOk hplaced

/-- A dispatcher with a member whose name is taken, and one with the name that
the first gets instead. -/
def twinDispatchers : Dispatchers :=
  ⟨[("minecraft:thing",
    ⟨[("map", .boolean []), ("map_member", .string none [])]⟩)]⟩

theorem describes_twinRun :
    (plainRecord {} twinDispatchers ["minecraft:thing"]).Describes
      (plainRun {} twinDispatchers) := by
  have hkeys : twinDispatchers.sortedKeys = ["minecraft:thing"] := by
    simp [twinDispatchers, Table.sortedKeys, Table.keys]
  exact describes_plainRun rfl hkeys (by decide +kernel) (by decide +kernel)
    (by decide +kernel) (by decide +kernel)

theorem declared_names_distinct_iff_twinRun :
    start {} twinDispatchers .null .null .null =
      .ok (plainRun {} twinDispatchers) ∧
      ∃ modules g', runAll (plainRun {} twinDispatchers) = (.ok modules, g') ∧
        ∃ m ∈ modules, m.path = tablesModule ∧
        ¬ (m.aliases.map (·.name)).Nodup := by
  have hstart : start {} twinDispatchers .null .null .null =
      .ok (plainRun {} twinDispatchers) := rfl
  have hcatalogue := describes_twinRun.dispatcherCatalogue_eq (by decide)
  obtain ⟨modules, hmodules, hrun⟩ :=
    describes_twinRun.exists_modules ⟨rfl, rfl, rfl, rfl, rfl⟩ (by
    rw [Record.history, Record.tablePart, catalogueOf, hcatalogue]
    decide +kernel)
  obtain ⟨r, hr, hdistinct⟩ :=
    declared_names_distinct_iff hstart hrun (by decide) (by decide) (by decide)
  obtain rfl := hr.unique describes_twinRun
  obtain ⟨m, hm, hpath⟩ := Record.exists_shared hmodules
  refine ⟨hstart, modules, _, hrun, m, hm, hpath, fun hnodup => ?_⟩
  obtain ⟨-, -, -, hshared⟩ := (hdistinct m hm).mp hnodup
  exact absurd (hshared hpath) (by decide +kernel)

end Run

end Typings
