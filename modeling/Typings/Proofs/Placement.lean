import Typings.Proofs.History
import Typings.Proofs.References

/-!
What the two last phases of a run add to its modules, as computations without a
state: what a symbol adds, and where a dispatcher goes. Where it goes depends on
what the modules hold by then.
-/

namespace Typings

namespace Run

/-- What a symbol adds to its module, if it is kept, and the
references met on the way. -/
structure SymbolResult where
  contribution? : Option Contribution := none
  references : List Reference := []

/-- What a symbol that is written by hand adds. -/
def overrideContribution (source name path : String) (o : Override)
    (docs : List String) : Contribution :=
  { path := source
    declaration := .typeAlias { name, type := o.type, params := o.params, docs }
    imports := some (.ofList o.imports)
    source := some path }

def symbolContribution (source path : String) (declared : Alias)
    (imports : Option ImportPaths) : Contribution :=
  { path := source, declaration := .typeAlias declared, imports,
    source := some path }

def symbolScope (source name : String) : Scope :=
  { isRoot := true, name := some name, source := some source }

/-- What comes of a symbol that is not removed. -/
def keptResult (env : Environment) (referenced : List Json) (path : String)
    (symbol : Symbol) (source name : String) : Except Fault SymbolResult :=
  match Override.find? path with
  | some o => do
    let docs ← ownDocs symbol.doc
    return { contribution? := some (overrideContribution source name
               path o docs) }
  | none =>
    if isNestedCopy env referenced source path symbol then return {}
    else do
      let emitted := Schema.compile env (symbolScope source name) symbol.type
      let compiled ← emitted.outcome
      let declared ← symbolAlias name symbol.doc compiled
      return {
        contribution? :=
          some (symbolContribution source path declared compiled.imports)
        references := emitted.references }

def symbolResult (env : Environment) (referenced : List Json) (path : String)
    (symbol : Symbol) :
    Except Fault SymbolResult := do
  checkAttributes symbol.attributes
  if Attribute.isGone symbol.attributes then return {}
  else
    let (source, name) ← splitPath path
    keptResult env referenced path symbol source name

/-- What can come of a symbol: it is removed, written by hand, left out as a
copy, or compiled. -/
theorem symbolResult_eq_ok {env : Environment} {referenced : List Json}
    {path : String} {symbol : Symbol} {r : SymbolResult}
    (h : symbolResult env referenced path symbol = .ok r) :
    (Attribute.isGone symbol.attributes = true ∧ r = {}) ∨
      Attribute.isGone symbol.attributes = false ∧
        ∃ source name, splitPath path = .ok (source, name) ∧
          ((∃ o docs, Override.find? path = some o ∧
              r = { contribution? := some (overrideContribution source name path
                      o docs) }) ∨
            (Override.find? path = none ∧
              isNestedCopy env referenced source path symbol = true ∧
              r = {}) ∨
            (Override.find? path = none ∧
              isNestedCopy env referenced source path symbol = false ∧
              ∃ compiled declared, (Schema.compile env
                (symbolScope source name) symbol.type).outcome = .ok compiled ∧
                symbolAlias name symbol.doc compiled = .ok declared ∧
                r = { contribution? := some (symbolContribution source path
                        declared compiled.imports)
                      references :=
                        (Schema.compile env (symbolScope source name)
                          symbol.type).references })) := by
  obtain ⟨-, -, h⟩ := bind_eq_ok_iff.mp h
  split at h
  · rename_i hgone
    exact Or.inl ⟨hgone, (pure_eq_ok_iff.mp h).symm⟩
  · rename_i hgone
    obtain ⟨⟨source, name⟩, hsplit, h⟩ := bind_eq_ok_iff.mp h
    refine Or.inr ⟨Bool.eq_false_iff.mpr hgone, source, name, hsplit, ?_⟩
    dsimp only at h
    rw [keptResult.eq_def] at h
    split at h
    · rename_i o ho
      obtain ⟨docs, -, h⟩ := bind_eq_ok_iff.mp h
      exact Or.inl ⟨o, docs, ho, (pure_eq_ok_iff.mp h).symm⟩
    · rename_i ho
      split at h
      · rename_i hcopy
        exact Or.inr (Or.inl ⟨ho, hcopy, (pure_eq_ok_iff.mp h).symm⟩)
      · rename_i hcopy
        obtain ⟨compiled, hcompiled, h⟩ := bind_eq_ok_iff.mp h
        obtain ⟨declared, hdeclared, h⟩ := bind_eq_ok_iff.mp h
        exact Or.inr (Or.inr ⟨ho, Bool.eq_false_iff.mpr hcopy, compiled,
          declared, hcompiled, hdeclared, (pure_eq_ok_iff.mp h).symm⟩)

/-- A symbol that refers to a dispatcher adds to the module
that it refers from. -/
theorem exists_contribution_of_reference {env : Environment}
    {referenced : List Json} {path : String} {symbol : Symbol}
    {r : SymbolResult} (h : symbolResult env referenced path symbol = .ok r)
    {ref : Reference} (href : ref ∈ r.references) :
    ∃ c, r.contribution? = some c ∧ c.path = ref.source := by
  rcases symbolResult_eq_ok h with ⟨-, rfl⟩ | ⟨-, source, name, -, h⟩
  · cases href
  · rcases h with ⟨o, docs, -, rfl⟩ | ⟨-, -, rfl⟩ |
      ⟨-, -, compiled, declared, -, -, rfl⟩
    · cases href
    · cases href
    · exact ⟨_, rfl, Option.some.inj
        (Schema.isFrom_compile (symbolScope source name) symbol.type ref href)⟩

def absorb (g : Run) (r : SymbolResult) : Run :=
  { g with
    books := r.references.foldl Bookkeeping.count g.books
    drafts := g.drafts.extend r.contribution?.toList }

variable {g g' : Run}

theorem isOpen_absorb (h : g.drafts.IsOpen) (r : SymbolResult) :
    (g.absorb r).drafts.IsOpen :=
  h.extend _

theorem step_pure_iff_absorb :
    (pure ⟨⟩ : Step PUnit) g = (.ok ⟨⟩, g') ↔ g' = g.absorb {} := by
  rw [Step.pure_eq_ok_iff, and_iff_right rfl, eq_comm]
  exact Iff.rfl

theorem declare_iff_absorb (h : g.drafts.IsOpen) (c : Contribution)
    (references : List Reference) :
    declare c.path c.declaration c.imports c.source { g with
      books := references.foldl Bookkeeping.count g.books } = (.ok ⟨⟩, g') ↔
      g' = g.absorb { contribution? := some c, references } := by
  rw [declare_eq (g := { g with
    books := references.foldl Bookkeeping.count g.books }) h,
    Prod.mk.injEq, and_iff_right rfl, eq_comm]
  exact Iff.rfl

/-- Opening a module right before adding to it makes no difference. -/
theorem openDraft_declare_iff_absorb (h : g.drafts.IsOpen) (path : String)
    {declared? : Except Fault Alias} {c : Alias → Contribution}
      (hpath : ∀ a, (c a).path = path)
    (references : List Reference) :
    (openDraft path >>= fun _ => compute declared? >>= fun declared =>
        declare path (c declared).declaration (c declared).imports
          (c declared).source)
        { g with books := references.foldl Bookkeeping.count g.books } =
          (.ok ⟨⟩, g') ↔
      ∃ declared, declared? = .ok declared ∧
        g' = g.absorb { contribution? := some (c declared), references } := by
  rw [Step.bind_of_ok (openDraft_eq (g := { g with
    books := references.foldl Bookkeeping.count g.books }) h path),
      Step.compute_bind_eq_ok_iff]
  refine exists_congr fun declared => and_congr_right fun _ => ?_
  obtain rfl := hpath declared
  rw [declare_eq (h.ensure _), Prod.mk.injEq, and_iff_right rfl, eq_comm,
    extend, Drafts.extend, List.foldl_cons, Drafts.accept_ensure]
  exact Iff.rfl

theorem compileSymbol_eq_ok_iff (h : g.drafts.IsOpen) {referenced : List Json}
    {path : String} {symbol : Symbol} :
    compileSymbol referenced path symbol g = (.ok ⟨⟩, g') ↔
      ∃ r, symbolResult g.books.env referenced path symbol = .ok r ∧
        g' = g.absorb r := by
  rw [compileSymbol, symbolResult, Step.compute_bind_eq_ok_iff,
    exists_bind_eq_ok]
  refine exists_congr fun _ => and_congr_right fun _ => ?_
  by_cases hgone : Attribute.isGone symbol.attributes = true
  · rw [if_pos hgone, if_pos hgone, exists_pure_eq_ok]
    exact step_pure_iff_absorb
  · rw [if_neg hgone, if_neg hgone, Step.compute_bind_eq_ok_iff,
      exists_bind_eq_ok]
    refine exists_congr fun place => and_congr_right fun _ => ?_
    obtain ⟨source, name⟩ := place
    simp only [keptResult]
    cases Override.find? path with
    | some o =>
        dsimp only
        rw [Step.compute_bind_eq_ok_iff, exists_bind_eq_ok]
        refine exists_congr fun docs => and_congr_right fun _ => ?_
        rw [exists_pure_eq_ok]
        exact declare_iff_absorb h
          (overrideContribution source name path o docs) []
    | none =>
        dsimp only
        rw [Step.get_bind]
        by_cases hcopy : isNestedCopy g.books.env referenced source path
          symbol = true
        · rw [if_pos hcopy, if_pos hcopy, exists_pure_eq_ok]
          exact step_pure_iff_absorb
        · rw [if_neg hcopy, if_neg hcopy, Step.modify_bind,
            Step.compute_bind_eq_ok_iff, exists_bind_eq_ok]
          refine exists_congr fun compiled => and_congr_right fun _ => ?_
          rw [exists_bind_eq_ok]
          simp only [exists_pure_eq_ok]
          exact openDraft_declare_iff_absorb h source
            (c := fun a => symbolContribution source path a compiled.imports)
            (fun _ => rfl) _

theorem env_absorb (r : SymbolResult) : (g.absorb r).books.env = g.books.env :=
  Bookkeeping.env_foldl_count r.references

/-- Symbols do not depend on each other. -/
theorem forM_compileSymbol_eq_ok_iff (h : g.drafts.IsOpen)
    {referenced : List Json} {entries : List (String × Symbol)} :
    entries.forM (fun s => compileSymbol referenced s.1 s.2) g = (.ok ⟨⟩, g') ↔
      ∃ rs, entries.mapM (fun s =>
          symbolResult g.books.env referenced s.1 s.2) = .ok rs ∧
        g' = rs.foldl absorb g := by
  refine Step.forM_eq_ok_iff
    (I := fun g₁ => g₁.drafts.IsOpen ∧ g₁.books.env = g.books.env)
    ?_ ?_ entries ⟨h, rfl⟩
  · rintro g₁ r ⟨hopen, henv⟩
    exact ⟨isOpen_absorb hopen r, (env_absorb r).trans henv⟩
  · rintro s g₁ g₂ ⟨hopen, henv⟩
    rw [compileSymbol_eq_ok_iff hopen, henv]

theorem foldl_absorb (rs : List SymbolResult) : rs.foldl absorb g =
    { g with
      books := (rs.flatMap (·.references)).foldl Bookkeeping.count g.books
      drafts := g.drafts.extend (rs.filterMap (·.contribution?)) } := by
  induction rs generalizing g with
  | nil => rfl
  | cons r rest ih =>
      rw [List.foldl_cons, ih, List.flatMap_cons, List.foldl_append]
      cases hc : r.contribution? with
      | none => simp [absorb, hc, Drafts.extend]
      | some c => simp [absorb, hc, Drafts.extend]

/-- Where a dispatcher has been placed. -/
structure Placement where
  registry : String
  symbol : DispatcherSymbol
  /-- The module that it moved to and the file of that module; none
  for the shared one. -/
  home : Option (String × String)

/-- What the shared module says of a symbol that moved to a file. -/
def reExportOf (symbol file : String) : Contribution :=
  { path := tablesModule, declaration := .reExport { names := [symbol], file } }

namespace Placement

/-- What the dispatcher adds to the modules. -/
def contributions (p : Placement) : List Contribution :=
  match p.home with
  | none => block tablesModule p.symbol
  | some (owner, file) =>
      reExportOf p.symbol.info.tableName file :: block owner p.symbol

/-- The redirects with the one to the dispatcher, if it moved. -/
def redirect (redirects : Table String) (p : Placement) : Table String :=
  match p.home with
  | none => redirects
  | some (owner, _) =>
    redirects.put (tablePath p.symbol.info.tableName)
      (owner ++ "::" ++ p.symbol.info.tableName)

def exported (p : Placement) : ExportedSymbol :=
  { name := p.symbol.info.tableName, generics := p.symbol.info.params.length }

end Placement

/-- The module that a dispatcher goes to, after what the modules hold already;
none for the shared one. -/
def chooseHome (refs : List Reference) (history : List Contribution)
    (registry : String) (d : DispatcherSymbol) : Except Fault (Option String) :=
  match Bookkeeping.ownerBy refs registry with
  | none => return none
  | some owner => do
    if ← clashes (History.draft history owner) d then return none
    else return some owner

def placeTable (env : Environment) (dispatchers : Dispatchers)
    (refs : List Reference) (history : List Contribution) (registry : String) :
    Except Fault Placement := do
  let symbol ←
    DispatcherSymbol.build env registry ((dispatchers.get? registry).getD {})
  match ← chooseHome refs history registry symbol with
  | none => return { registry, symbol, home := none }
  | some owner =>
      return { registry, symbol, home := some (owner, ← importFile owner) }

/-- Where dispatchers go that are placed one after the other. -/
def placeTables (env : Environment)
    (dispatchers : Dispatchers) (refs : List Reference)
    (history : List Contribution) : List String → Except Fault (List Placement)
  | [] => .ok []
  | registry :: rest => do
    let p ← placeTable env dispatchers refs history registry
    return p ::
      (← placeTables env dispatchers refs (history ++ p.contributions) rest)

def place (g : Run) (p : Placement) : Run :=
  { g with
    books := (g.books.home p.registry).2
    drafts := g.drafts.extend p.contributions
    redirects := p.redirect g.redirects }

/-- The state of a run, as far as placing a dispatcher depends on it: the
references counted so far and what the modules hold. -/
structure Tracks (refs : List Reference) (history : List Contribution)
    (g : Run) : Prop where
  isOpen : g.drafts.IsOpen
  draft : ∀ path, g.drafts.draft path = History.draft history path
  modules : ∀ c ∈ history, c.path ∈ g.drafts.modules.keys
  sources : ∀ ref ∈ refs, ∃ c ∈ history, c.path = ref.source
  owner : ∀ registry,
    g.books.owner? registry = Bookkeeping.ownerBy refs registry
  homes : ∀ registry owner, g.books.homes.get? registry = some owner →
    owner = Bookkeeping.ownerBy refs registry

namespace Tracks

variable {refs : List Reference} {history : List Contribution}

theorem home_eq (h : Tracks refs history g) (registry : String) :
    (g.books.home registry).1 = Bookkeeping.ownerBy refs registry := by
  rw [Bookkeeping.home]
  split
  · rename_i owner howner
    exact h.homes registry owner howner
  · exact h.owner registry

/-- Looking up the home of one dispatcher changes no answer. -/
theorem lookUp (h : Tracks refs history g) (registry : String) :
    Tracks refs history { g with books := (g.books.home registry).2 } := by
  refine { h with owner := ?_, homes := ?_ }
  · intro registry'
    rw [← h.owner registry', Bookkeeping.home]
    split
    · rfl
    · rfl
  · intro registry' owner
    rw [Bookkeeping.home]
    split
    · exact h.homes registry' owner
    · dsimp only
      rw [Table.get?_put]
      split
      · rename_i heq
        rintro ⟨⟩
        rw [eq_of_beq heq]
        exact h.owner registry
      · exact h.homes registry' owner

theorem extend (h : Tracks refs history g) (cs : List Contribution) :
    Tracks refs (history ++ cs) (g.extend cs) where
  isOpen := h.isOpen.extend cs
  draft path := by
    rw [Run.extend, Drafts.draft_extend, h.draft, History.draft, History.draft,
      List.filter_append, Draft.extend_append]
  modules c hc := by
    rw [Run.extend, Drafts.mem_keys_extend]
    rcases List.mem_append.mp hc with hc | hc
    · exact Or.inl (h.modules c hc)
    · exact Or.inr ⟨c, hc, rfl⟩
  sources ref href := by
    obtain ⟨c, hc, hpath⟩ := h.sources ref href
    exact ⟨c, List.mem_append_left _ hc, hpath⟩
  owner := h.owner
  homes := h.homes

theorem redirect (h : Tracks refs history g) (redirects : Table String) :
    Tracks refs history { g with redirects } :=
  { h with }

theorem ensure (h : Tracks refs history g) (path : String) :
    Tracks refs history { g with drafts := g.drafts.ensure path } := by
  refine { h with isOpen := h.isOpen.ensure path, draft := ?_, modules := ?_ }
  · intro path'
    rw [Drafts.draft_ensure]
    exact h.draft path'
  · intro c hc
    have hmem := h.modules c hc
    dsimp only
    rw [Drafts.ensure]
    split
    · exact hmem
    · exact Table.mem_keys_put.mpr (Or.inr hmem)

/-- The module of an owner is there already. -/
theorem ensure_owner (h : Tracks refs history g) {registry owner : String}
    (howner : Bookkeeping.ownerBy refs registry = some owner) :
    g.drafts.ensure owner = g.drafts := by
  obtain ⟨ref, href, rfl⟩ := Bookkeeping.exists_reference_of_ownerBy howner
  obtain ⟨c, hc, hpath⟩ := h.sources ref href
  exact Drafts.ensure_of_mem (hpath ▸ h.modules c hc)

theorem place (h : Tracks refs history g) (p : Placement) :
    Tracks refs (history ++ p.contributions) (g.place p) :=
  ((h.lookUp p.registry).extend p.contributions).redirect _

end Tracks

section Tables

variable {refs : List Reference} {history : List Contribution}

theorem homeOf_eq_ok_iff (h : Tracks refs history g) {registry : String}
    {d : DispatcherSymbol} {home? : Option String} :
    homeOf registry d g = (.ok home?, g') ↔
      chooseHome refs history registry d = .ok home? ∧
        g' = { g with books := (g.books.home registry).2 } := by
  have hhome := h.home_eq registry
  have htracks := h.lookUp registry
  rw [homeOf, Step.get_bind, chooseHome, ← hhome]
  rcases hbooks : g.books.home registry with ⟨owner?, books⟩
  rw [hbooks] at hhome htracks
  dsimp only at hhome htracks ⊢
  rw [Step.modify_bind]
  cases owner? with
  | none =>
      dsimp only
      rw [Step.pure_eq_ok_iff, pure_eq_ok_iff]
      exact and_congr_right fun _ => eq_comm
  | some owner =>
      have hdraft := htracks.draft owner
      have hensure := htracks.ensure_owner hhome.symm
      dsimp only at hdraft hensure ⊢
      rw [Step.bind_of_ok (openDraft_eq htracks.isOpen owner),
        Step.compute_bind_eq_ok_iff,
        bind_eq_ok_iff, hdraft, hensure, ← exists_and_right]
      refine exists_congr fun clash => ?_
      cases clash with
      | true =>
          rw [if_pos rfl, if_pos rfl, Step.pure_eq_ok_iff, pure_eq_ok_iff,
            and_assoc]
          exact and_congr_right fun _ => and_congr_right fun _ => eq_comm
      | false =>
          rw [if_neg (by simp), if_neg (by simp), Step.pure_eq_ok_iff,
            pure_eq_ok_iff, and_assoc]
          exact and_congr_right fun _ => and_congr_right fun _ => eq_comm

/-- Placing one dispatcher. -/
theorem compileTable_eq_ok_iff (h : Tracks refs history g) {registry : String}
    {s : ExportedSymbol} :
    compileTable registry g = (.ok s, g') ↔
      ∃ p, placeTable g.books.env g.dispatchers refs history registry = .ok p ∧
        s = p.exported ∧ g' = g.place p := by
  rw [compileTable, Step.get_bind, Step.compute_bind_eq_ok_iff, placeTable,
    exists_bind_eq_ok]
  refine exists_congr fun d => and_congr_right fun _ => ?_
  rw [Step.bind_eq_ok_iff, exists_bind_eq_ok]
  simp only [homeOf_eq_ok_iff h, and_assoc, exists_and_left, exists_eq_left]
  refine exists_congr fun home? => and_congr_right fun _ => ?_
  have hopen := (h.lookUp registry).isOpen
  cases home? with
  | none =>
      dsimp only
      rw [Step.bind_of_ok (declareAll_eq hopen tablesModule d),
        Step.pure_eq_ok_iff, exists_pure_eq_ok]
      exact and_congr eq_comm eq_comm
  | some owner =>
      dsimp only
      rw [Step.modify_bind, Step.compute_bind_eq_ok_iff, exists_bind_eq_ok]
      refine exists_congr fun file => and_congr_right fun _ => ?_
      have hreExport := declare_eq (g := { g with
        books := (g.books.home registry).2
        redirects := g.redirects.put (tablePath d.info.tableName)
          (owner ++ "::" ++ d.info.tableName) })
        hopen (reExportOf d.info.tableName file)
      dsimp only [reExportOf] at hreExport ⊢
      rw [exists_pure_eq_ok, Step.bind_of_ok hreExport,
        Step.bind_of_ok (declareAll_eq (hopen.extend _) owner d),
        Step.pure_eq_ok_iff, extend_extend]
      exact and_congr eq_comm eq_comm

theorem chooseHome_eq_ok {registry : String}
    {d : DispatcherSymbol} {home? : Option String}
    (h : chooseHome refs history registry d = .ok home?) (owner : String) :
    home? = some owner ↔ Bookkeeping.ownerBy refs registry = some owner ∧
      clashes (History.draft history owner) d = .ok false := by
  rw [chooseHome] at h
  cases howner : Bookkeeping.ownerBy refs registry with
  | none =>
      rw [howner] at h
      cases h
      simp
  | some first =>
      rw [howner] at h
      obtain ⟨clash, hclash, h⟩ := bind_eq_ok_iff.mp h
      rw [Option.some.injEq]
      cases clash with
      | true =>
          cases h
          simp only [reduceCtorEq, false_iff, not_and]
          rintro rfl
          simp [hclash]
      | false =>
          cases h
          rw [Option.some.injEq]
          constructor
          · rintro rfl
            exact ⟨rfl, hclash⟩
          · exact And.left

/-- Where a dispatcher is placed: with its owner, unless there is none or a name
would clash there. -/
theorem placeTable_eq_ok {env : Environment}
    {dispatchers : Dispatchers} {registry : String} {p : Placement}
    (h : placeTable env dispatchers refs history registry = .ok p) :
    p.registry = registry ∧
      DispatcherSymbol.build env registry
        ((dispatchers.get? registry).getD {}) = .ok p.symbol ∧
      (∀ owner, p.home.map (·.1) = some owner ↔
        Bookkeeping.ownerBy refs registry = some owner ∧
        clashes (History.draft history owner) p.symbol = .ok false) ∧
      ∀ owner file, p.home = some (owner, file) →
        importFile owner = .ok file := by
  obtain ⟨d, hd, h⟩ := bind_eq_ok_iff.mp h
  obtain ⟨home?, hhome, h⟩ := bind_eq_ok_iff.mp h
  have hchosen := chooseHome_eq_ok hhome
  cases home? with
  | none =>
      cases h
      refine ⟨rfl, hd, hchosen, fun owner file hmoved => ?_⟩
      cases hmoved
  | some first =>
      obtain ⟨firstFile, hfile, h⟩ := bind_eq_ok_iff.mp h
      cases h
      refine ⟨rfl, hd, hchosen, fun owner file hmoved => ?_⟩
      cases hmoved
      exact hfile

/-- Every dispatcher is placed after what the ones before it have added. -/
theorem placeTables_eq_ok {env : Environment}
    {dispatchers : Dispatchers} {registries : List String} {ps : List Placement}
    (h : placeTables env dispatchers refs history registries = .ok ps) :
    ps.map (·.registry) = registries ∧ ∀ front p back, ps = front ++ p :: back →
      placeTable env dispatchers refs
        (history ++ front.flatMap (·.contributions)) p.registry = .ok p := by
  induction registries generalizing history ps with
  | nil =>
      cases h
      exact ⟨rfl, by simp⟩
  | cons registry rest ih =>
      obtain ⟨first, hfirst, h⟩ := bind_eq_ok_iff.mp h
      obtain ⟨more, hmore, h⟩ := bind_eq_ok_iff.mp h
      obtain rfl := pure_eq_ok_iff.mp h
      obtain ⟨hregistries, hplaced⟩ := ih hmore
      have hregistry := (placeTable_eq_ok hfirst).1
      refine ⟨congrArg₂ List.cons hregistry hregistries,
        fun front p back hsplit => ?_⟩
      cases front with
      | nil =>
          obtain ⟨rfl, -⟩ := List.cons.inj hsplit
          rw [List.flatMap_nil, List.append_nil, hregistry]
          exact hfirst
      | cons q front =>
          obtain ⟨rfl, hmore⟩ := List.cons.inj hsplit
          rw [List.flatMap_cons, ← List.append_assoc]
          exact hplaced front p back hmore

theorem env_place (p : Placement) : (g.place p).books.env = g.books.env := by
  rw [place, Bookkeeping.home]
  split
  · rfl
  · rfl

/-- Dispatchers are placed one after the other, each after what the ones
before it have added. -/
theorem mapM_compileTable_eq_ok_iff (h : Tracks refs history g)
    {registries : List String} {symbols : List (String × ExportedSymbol)} :
    (registries.mapM fun registry =>
        do return (registry, ← compileTable registry) :
        Step (List (String × ExportedSymbol))) g = (.ok symbols, g') ↔
      ∃ ps, placeTables g.books.env g.dispatchers refs history registries =
        .ok ps ∧
        symbols = ps.map (fun p => (p.registry, p.exported)) ∧
        g' = ps.foldl place g := by
  induction registries generalizing g g' history symbols with
  | nil =>
      rw [List.mapM_nil, Step.pure_eq_ok_iff, placeTables]
      simp [eq_comm]
  | cons registry rest ih =>
      have hhead : ∀ b g₁, (do return (registry, ← compileTable registry) :
          Step (String × ExportedSymbol)) g = (.ok b, g₁) ↔
            ∃ p, placeTable g.books.env g.dispatchers refs history registry =
              .ok p ∧
              b = (p.registry, p.exported) ∧ g₁ = g.place p := by
        intro b g₁
        rw [Step.bind_eq_ok_iff]
        simp only [compileTable_eq_ok_iff h, Step.pure_eq_ok_iff]
        constructor
        · rintro ⟨_, _, ⟨p, hp, rfl, rfl⟩, rfl, rfl⟩
          exact ⟨p, hp, by rw [(placeTable_eq_ok hp).1], rfl⟩
        · rintro ⟨p, hp, rfl, rfl⟩
          exact ⟨_, _, ⟨p, hp, rfl, rfl⟩, by rw [(placeTable_eq_ok hp).1], rfl⟩
      have htail :
          ∀ p, (Tracks refs (history ++ p.contributions) (g.place p)) := h.place
      rw [List.mapM_cons, Step.bind_eq_ok_iff, placeTables, exists_bind_eq_ok]
      simp only [hhead]
      constructor
      · rintro ⟨_, _, ⟨p, hp, rfl, rfl⟩, hrest⟩
        obtain ⟨more, g₁, hmore, hpure⟩ := Step.bind_eq_ok_iff.mp hrest
        obtain ⟨ps, hps, rfl, rfl⟩ := (ih (htail p)).mp hmore
        obtain ⟨rfl, rfl⟩ := Step.pure_eq_ok_iff.mp hpure
        rw [env_place] at hps
        exact ⟨p, hp, _, bind_eq_ok_iff.mpr ⟨ps, hps, rfl⟩, rfl, rfl⟩
      · rintro ⟨p, hp, _, hrest, rfl, rfl⟩
        obtain ⟨ps, hps, hpure⟩ := bind_eq_ok_iff.mp hrest
        obtain rfl := pure_eq_ok_iff.mp hpure
        refine ⟨_, _, ⟨p, hp, rfl, rfl⟩,
          Step.bind_eq_ok_iff.mpr ⟨_, _, (ih (htail p)).mpr
          ⟨ps, ?_, rfl, rfl⟩, rfl⟩⟩
        rw [env_place]
        exact hps

theorem foldl_place (ps : List Placement) : ps.foldl place g =
    { g with
      books := ps.foldl (fun books p => (books.home p.registry).2) g.books
      drafts := g.drafts.extend (ps.flatMap (·.contributions))
      redirects := ps.foldl Placement.redirect g.redirects } := by
  induction ps generalizing g with
  | nil => rfl
  | cons p rest ih =>
      rw [List.foldl_cons, ih, List.flatMap_cons]
      simp only [place, Drafts.extend_append, List.foldl_cons]

end Tables

end Run

end Typings
