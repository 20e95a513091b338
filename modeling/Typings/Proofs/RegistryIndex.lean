import Typings.Proofs.Address
import Typings.Proofs.DeclaredNames
import Typings.Proofs.Leaves

/-!
Indices into the registries. A string that names a registry compiles to an index
only if the registry has entries, and the object of all registries then has a
property of just that name. Identifiers of registries are put into a form of
their own on either side: the default namespace goes where they are looked up,
and comes back where they are printed.
-/

namespace Typings

/-- The identifier names a namespace at most once. -/
def IsRegistryId (id : String) : Prop :=
  id.toList.count ':' ≤ 1

instance : DecidablePred IsRegistryId :=
  fun id => inferInstanceAs (Decidable (id.toList.count ':' ≤ 1))

theorem withNamespace_of_mem {id : String} (h : ':' ∈ id.toList) :
    withNamespace id = id := by
  rw [withNamespace, if_pos (List.contains_iff_mem.mpr h)]

theorem withNamespace_of_notMem {id : String} (h : ':' ∉ id.toList) :
    withNamespace id = "minecraft:" ++ id := by
  rw [withNamespace, if_neg (mt List.contains_iff_mem.mp h)]
  rfl

theorem after?_eq_some_iff_append {id : String} {rest : List Char} :
    Text.after? (standardNamespace ++ ":").toList id.toList = some rest ↔
      id = "minecraft:" ++ String.ofList rest := by
  have hstart :
      (standardNamespace ++ ":").toList = "minecraft:".toList := by decide
  rw [Text.after?_eq_some_iff, hstart, ← String.toList_inj,
    String.toList_append, String.toList_ofList (l := rest)]

theorem withoutNamespace_append (rest : String) :
    withoutNamespace ("minecraft:" ++ rest) = rest := by
  have hcut : Text.after? (standardNamespace ++ ":").toList
      ("minecraft:" ++ rest).toList = some rest.toList :=
    after?_eq_some_iff_append.mpr (by rw [String.ofList_toList])
  rw [withoutNamespace, hcut]
  exact String.ofList_toList

/-- Only the default namespace is left out. -/
theorem withoutNamespace_cases (id : String) :
    id = "minecraft:" ++ withoutNamespace id ∨
      withoutNamespace id = id ∧ ∀ rest, id ≠ "minecraft:" ++ rest := by
  rw [withoutNamespace]
  split
  · rename_i rest hcut
    exact Or.inl (after?_eq_some_iff_append.mp hcut)
  · rename_i hnone
    refine Or.inr ⟨rfl, fun rest hid => ?_⟩
    rw [← String.ofList_toList (s := rest)] at hid
    rw [after?_eq_some_iff_append.mpr hid] at hnone
    cases hnone

/-- Printing an identifier does not change what it is looked up by. -/
theorem withoutNamespace_withNamespace (id : String) :
    withoutNamespace (withNamespace id) = withoutNamespace id := by
  by_cases hcolon : ':' ∈ id.toList
  · rw [withNamespace_of_mem hcolon]
  · rw [withNamespace_of_notMem hcolon, withoutNamespace_append]
    rcases withoutNamespace_cases id with h | ⟨h, -⟩
    · refine absurd ?_ hcolon
      rw [h, String.toList_append, List.mem_append]
      exact Or.inl (by decide)
    · exact h.symm

/-- An identifier is printed the same with and without the default namespace. -/
theorem withNamespace_withoutNamespace {id : String} (h : IsRegistryId id) :
    withNamespace (withoutNamespace id) = withNamespace id := by
  rcases withoutNamespace_cases id with hid | ⟨hid, -⟩
  · have hrest : ':' ∉ (withoutNamespace id).toList := by
      rw [IsRegistryId, hid, String.toList_append, List.count_append] at h
      have hone : "minecraft:".toList.count ':' = 1 := by decide
      rw [← List.count_eq_zero]
      omega
    have hcolon : ':' ∈ id.toList := by
      rw [hid, String.toList_append, List.mem_append]
      exact Or.inl (by decide)
    rw [withNamespace_of_notMem hrest, withNamespace_of_mem hcolon, ← hid]
  · rw [hid]

/-- The last entry for a registry; the default namespace may be named or not. -/
def entryFor? (registry : String) (entries : List (String × Json)) :
    Option (String × Json) :=
  entries.reverse.find? fun e =>
    withoutNamespace e.1 == withoutNamespace registry

/-- The input has the registry, and there is something in it. -/
def RegistryFilled (registries : Json) (registry : String) : Prop :=
  ∃ entries e items, registries.asEntries = .ok entries ∧
    entryFor? registry entries = some e ∧
    e.2.walk = .ok items ∧ items ≠ []

def ReadsTo (e : String × Json) (values : List String) : Prop :=
  ∃ items texts, e.2.walk = .ok items ∧ items.mapM entryText = .ok texts ∧
    values = sortedTexts texts

def readRegistry (table : Table (List String)) (e : String × Json) :
    Except Misuse (Table (List String)) := do
  let values ← (← e.2.walk).mapM entryText
  return table.put (withoutNamespace e.1) (sortedTexts values)

theorem readRegistry_eq_ok {table table' : Table (List String)}
    {e : String × Json} (h : readRegistry table e = .ok table') :
    ∃ values, ReadsTo e values ∧
      table' = table.put (withoutNamespace e.1) values := by
  obtain ⟨items, hitems, h⟩ := bind_eq_ok_iff.mp h
  obtain ⟨texts, htexts, h⟩ := bind_eq_ok_iff.mp h
  obtain rfl := pure_eq_ok_iff.mp h
  exact ⟨_, ⟨items, texts, hitems, htexts, rfl⟩, rfl⟩

/-- The last entry for a name counts. -/
theorem foldlM_readRegistry_eq_ok {entries : List (String × Json)}
    {table table' : Table (List String)}
    (h : entries.foldlM readRegistry table = .ok table') (name : String) :
    (∃ e values, entries.reverse.find? (fun e => withoutNamespace e.1 == name) =
      some e ∧ ReadsTo e values ∧
      table'.get? name = some values) ∨
    entries.reverse.find? (fun e => withoutNamespace e.1 == name) = none ∧
      table'.get? name = table.get? name := by
  induction entries generalizing table with
  | nil =>
      cases h
      exact Or.inr ⟨rfl, rfl⟩
  | cons first rest ih =>
      rw [List.foldlM_cons] at h
      obtain ⟨table₁, hfirst, hrest⟩ := bind_eq_ok_iff.mp h
      obtain ⟨values, hreads, rfl⟩ := readRegistry_eq_ok hfirst
      rw [List.reverse_cons, List.find?_append]
      obtain ⟨e, values', hfind, hreads', hget⟩ | ⟨hnone, hget⟩ := ih hrest
      · rw [hfind]
        exact Or.inl ⟨e, values', rfl, hreads', hget⟩
      · rw [hnone, hget, Table.get?_put]
        by_cases hname : withoutNamespace first.1 = name
        · exact Or.inl ⟨first, values, by simp [hname], hreads, by simp [hname]⟩
        · exact Or.inr ⟨by simp [hname], by simp [Ne.symm hname]⟩

theorem nodup_keys_foldlM_readRegistry {entries : List (String × Json)}
    {table table' : Table (List String)}
    (h : entries.foldlM readRegistry table = .ok table')
    (hnodup : table.keys.Nodup) : table'.keys.Nodup := by
  induction entries generalizing table with
  | nil =>
      cases h
      exact hnodup
  | cons first rest ih =>
      rw [List.foldlM_cons] at h
      obtain ⟨table₁, hfirst, hrest⟩ := bind_eq_ok_iff.mp h
      obtain ⟨values, -, rfl⟩ := readRegistry_eq_ok hfirst
      exact ih hrest (Table.nodup_keys_put hnodup)

theorem eraseRepsBy_loop_ne_nil {α : Type} (r : α → α → Bool) (a : α)
    (as done : List α) :
    List.eraseRepsBy.loop r a as done ≠ [] := by
  induction as generalizing a done with
  | nil => simp [List.eraseRepsBy.loop]
  | cons b rest ih =>
      rw [List.eraseRepsBy.loop]
      split
      · exact ih a done
      · exact ih b (a :: done)

theorem sortedTexts_eq_nil_iff {texts : List String} :
    sortedTexts texts = [] ↔ texts = [] := by
  have hperm := List.mergeSort_perm texts fun a b => decide (a ≤ b)
  rw [sortedTexts]
  cases hsorted : texts.mergeSort fun a b => decide (a ≤ b) with
  | nil =>
      rw [hsorted, List.nil_perm] at hperm
      exact iff_of_true rfl hperm
  | cons first rest =>
      rw [hsorted] at hperm
      refine iff_of_false (eraseRepsBy_loop_ne_nil _ first rest []) ?_
      rintro rfl
      exact List.cons_ne_nil _ _ (List.perm_nil.mp hperm)

theorem ReadsTo.ne_nil_iff {e : String × Json} {values : List String}
    (h : ReadsTo e values) :
    values ≠ [] ↔ ∃ items, e.2.walk = .ok items ∧ items ≠ [] := by
  obtain ⟨items, texts, hitems, htexts, rfl⟩ := h
  have hlength := (mapM_eq_ok_iff.mp htexts).length_eq
  rw [ne_eq, sortedTexts_eq_nil_iff, hitems]
  simp [← List.length_eq_zero_iff, hlength]

theorem readRegistries_eq_ok {registries : Json} {table : Table (List String)}
    (h : readRegistries registries = .ok table) :
    ∃ entries, registries.asEntries = .ok entries ∧
      entries.foldlM readRegistry {} = .ok table :=
  bind_eq_ok_iff.mp h

/-- A registry that is known is one that the input fills. -/
theorem knowsRegistry_iff {registries : Json} {env : Environment}
    (h : readRegistries registries = .ok env.registries) {registry : String} :
    env.knowsRegistry registry = true ↔ RegistryFilled registries registry := by
  obtain ⟨entries, hentries, hfold⟩ := readRegistries_eq_ok h
  have hfilled : RegistryFilled registries registry ↔
      ∃ e items, entryFor? registry entries = some e ∧ e.2.walk = .ok items ∧
        items ≠ [] := by
    simp [RegistryFilled, hentries]
  rw [hfilled, Environment.knowsRegistry]
  obtain ⟨e, values, hlast, hreads, hget⟩ | ⟨hnone, hget⟩ :=
    foldlM_readRegistry_eq_ok hfold (withoutNamespace registry)
  · have hitems := hreads.ne_nil_iff
    rw [hget, entryFor?, hlast]
    simpa using hitems
  · rw [hget, entryFor?, hnone]
    simp [Table.get?]

theorem mem_filledRegistries {table : Table (List String)}
    {r : String × List String} :
    r ∈ filledRegistries table ↔ table.get? r.1 = some r.2 ∧ r.2 ≠ [] := by
  obtain ⟨name, values⟩ := r
  rw [filledRegistries, List.mem_filter, List.mem_map]
  constructor
  · rintro ⟨⟨key, -, hkey⟩, hne⟩
    obtain ⟨rfl, rfl⟩ := Prod.mk.inj hkey
    have hvalues : (table.get? key).getD [] ≠ [] := by simpa using hne
    cases hget : table.get? key with
    | none => simp [hget] at hvalues
    | some found => exact ⟨rfl, by simpa [hget] using hvalues⟩
  · rintro ⟨hget, hne⟩
    have hmem : name ∈ table.keys := by
      by_contra hkeys
      rw [Table.get?_eq_none_iff.mpr hkeys] at hget
      cases hget
    exact ⟨⟨name,
      Table.mem_sortedKeys.mpr hmem, by rw [hget]; rfl⟩, by simpa using hne⟩

theorem nodup_filledRegistries {table : Table (List String)}
    (h : table.keys.Nodup) :
    ((filledRegistries table).map (·.1)).Nodup := by
  have hnames :
      (table.sortedKeys.map fun r => (r, (table.get? r).getD [])).map (·.1) =
        table.sortedKeys := by
    simp [List.map_map, Function.comp_def]
  have hsublist :=
    (List.filter_sublist (p := fun r : String × List String => !r.2.isEmpty)
    (l := table.sortedKeys.map fun r => (r, (table.get? r).getD []))).map (·.1)
  rw [hnames] at hsublist
  exact hsublist.nodup (Table.nodup_sortedKeys h)

theorem toUpper_ne_e (c : Char) : c.toUpper ≠ 'e' := by
  by_cases hascii : c.toNat < 0x80
  · have hall : ∀ n < 0x80, (Char.ofNat n).toUpper ≠ 'e' := by decide
    simpa using hall c.toNat hascii
  · have hsame : c.toUpper = c :=
      dif_neg fun h => hascii (Nat.lt_of_le_of_lt h.2 (by decide))
    rw [hsame]
    rintro rfl
    exact hascii (by decide)

/-- The name of a registry's alias is in capitals. -/
theorem constantName_ne_registry (registry : String) :
    constantName registry ≠ "Registry" := by
  intro h
  have hmem : 'e' ∈ (constantName registry).toList := by
    rw [h]
    decide
  rw [constantName, String.toList_ofList, List.mem_map] at hmem
  obtain ⟨c, -, hc⟩ := hmem
  exact toUpper_ne_e c hc

def indexProperties (registries : Table (List String)) : List Property :=
  (filledRegistries registries).map fun r =>
    .plain (withNamespace r.1) (.named (constantName r.1))

theorem filter_registryAliases (registries : Table (List String)) :
    (registryAliases registries).filter (·.name == "Registry") =
      [{ name := "Registry",
         type := .object (indexProperties registries) }] := by
  have hothers : ((filledRegistries registries).map fun r =>
      ({ name := constantName r.1, type := .anyOf (r.2.map .text) } :
        Alias)).filter (·.name == "Registry") = [] := by
    rw [List.filter_eq_nil_iff]
    intro a ha
    obtain ⟨r, -, rfl⟩ := List.mem_map.mp ha
    simpa using constantName_ne_registry r.1
  rw [registryAliases, List.filter_append, hothers]
  rfl

/-- A registry with entries has one property, if the names can be told apart. -/
theorem filter_indexProperties {table : Table (List String)}
    (hnodup : table.keys.Nodup)
    (hnames : ∀ name ∈ table.keys, withoutNamespace (withNamespace name) = name)
    {name : String} {values : List String}
    (hget : table.get? name = some values) (hne : values ≠ []) :
    (indexProperties table).filter (·.name == withNamespace name) =
      [.plain (withNamespace name) (.named (constantName name))] := by
  have hkeys : ∀ r ∈ filledRegistries table, r.1 ∈ table.keys := by
    intro r hr
    by_contra hkey
    rw [mem_filledRegistries, Table.get?_eq_none_iff.mpr hkey] at hr
    cases hr.1
  have hfilled : (name, values) ∈ filledRegistries table :=
    mem_filledRegistries.mpr ⟨hget, hne⟩
  have hone : (filledRegistries table).filter
      (fun r => withNamespace r.1 == withNamespace name) =
      [(name, values)] := by
    apply List.perm_singleton.mp
    apply (List.perm_ext_iff_of_nodup
      ((nodup_filledRegistries hnodup).of_map.filter _)
      (List.nodup_singleton _)).mpr
    intro r
    rw [List.mem_filter, List.mem_singleton, beq_iff_eq]
    constructor
    · rintro ⟨hr, heq⟩
      have hname : r.1 = name := by
        rw [← hnames r.1 (hkeys r hr), heq, hnames name (hkeys _ hfilled)]
      have hvalues := (mem_filledRegistries.mp hr).1
      rw [hname, hget] at hvalues
      exact Prod.ext hname (Option.some.inj hvalues).symm
    · rintro rfl
      exact ⟨hfilled, rfl⟩
  rw [indexProperties, List.filter_map]
  exact congrArg (List.map _) hone

namespace Run

/-- The aliases that a run has declared in a module so far. -/
def declaredIn (g : Run) (path : String) : List Alias :=
  (g.drafts.draft path).declarations.filterMap (·.typeAlias?)

/-- What the registries leave behind. -/
theorem declareRegistries_eq_ok {g g' : Run} (hfresh : g.IsFresh)
    (h : declareRegistries g = (.ok ⟨⟩, g')) :
    ∃ translationKey? blockStateKey?,
      readRegistries g.registries = .ok g'.books.env.registries ∧
      literalAlias? "TranslationKey" g.translationKeys = .ok translationKey? ∧
      literalAlias? "BlockStateKey" g.blockProperties = .ok blockStateKey? ∧
      g'.books.env.hasTranslationKeys = translationKey?.isSome ∧
      g'.declaredIn registriesModule =
        registryAliases g'.books.env.registries ++ translationKey?.toList ++
          blockStateKey?.toList := by
  have hopen : g.drafts.IsOpen := by
    rw [hfresh.drafts]
    exact Drafts.isOpen_empty
  obtain ⟨registries, hregistries, translationKey?, htranslation,
    blockStateKey?, hblock, rfl⟩ :=
    (declareRegistries_eq_ok_iff hopen hfresh.completed).mp h
  refine ⟨translationKey?, blockStateKey?, hregistries, htranslation,
    hblock, ?_, ?_⟩
  · have hbefore : g.books.env.hasTranslationKeys = false := by
      rw [hfresh.books]
    change (g.books.env.hasTranslationKeys || translationKey?.isSome) =
      translationKey?.isSome
    rw [hbefore, Bool.false_or]
  · have hadded : ∀ aliases : List Alias,
        (((aliases.map (aliasTo registriesModule)).filter
            (·.path == registriesModule)).map
          (·.declaration)).filterMap (·.typeAlias?) = aliases := by
      intro aliases
      rw [List.filter_eq_self.mpr, List.map_map, List.filterMap_map]
      · exact List.filterMap_some
      · intro c hc
        obtain ⟨a, -, rfl⟩ := List.mem_map.mp hc
        rfl
    change ((g.drafts.extend _).draft registriesModule).declarations.filterMap
      _ = _
    rw [hfresh.drafts]
    change ((History.drafts _).draft registriesModule).declarations.filterMap
      _ = _
    rw [History.draft_drafts, History.declarations_draft, registryContributions,
      List.filter_append, List.map_append, List.filterMap_append, hadded]
    exact List.append_nil _

end Run

namespace TypeExpr

/-- Somewhere in the expression stands `Registry['k']`. -/
def IndexesRegistry (t : TypeExpr) (k : String) : Prop :=
  ∃ p, t.at? p = some (.access (.named "Registry") (.text k))

/-- Is the expression `Object[Index]`? -/
def isAccess : TypeExpr → Bool
  | .access _ _ => true
  | _ => false

/-- No part of the expression is an access. -/
def IsAccessFree (t : TypeExpr) : Prop :=
  t.Everywhere fun u => u.isAccess = false

variable {t u : TypeExpr} {k : String}

theorem IsAccessFree.not_indexesRegistry (h : t.IsAccessFree) (k : String) :
    ¬ t.IndexesRegistry k := by
  rintro ⟨p, hp⟩
  have haccess := h p _ hp
  cases haccess

theorem isAccessFree_named (name : String) : (named name).IsAccessFree :=
  everywhere_reference rfl (List.forall_mem_nil _)

theorem isAccessFree_union {members : List TypeExpr}
    (h : ∀ t ∈ members, t.IsAccessFree) :
    (union members).IsAccessFree := by
  refine everywhere_of_parts rfl fun turn u hu => ?_
  cases turn with
  | member i => exact h u (List.mem_of_getElem? hu)
  | _ => cases hu

theorem isAccessFree_template {head : String} {spans : List Span}
    (h : ∀ s ∈ spans, s.type.IsAccessFree) :
    (template head spans).IsAccessFree := by
  refine everywhere_of_parts rfl fun turn u hu => ?_
  cases turn with
  | span i =>
      obtain ⟨s, hs, rfl⟩ := Option.map_eq_some_iff.mp hu
      exact h s (List.mem_of_getElem? hs)
  | _ => cases hu

theorem isAccessFree_string : string.IsAccessFree :=
  everywhere_keyword rfl

theorem isAccessFree_someText : someText.IsAccessFree :=
  isAccessFree_template
    (by simpa [Span.type] using ⟨everywhere_keyword rfl, isAccessFree_string⟩)

theorem isAccessFree_identifierText : identifierText.IsAccessFree :=
  isAccessFree_template (by simpa [Span.type] using isAccessFree_string)

theorem isAccessFree_tagText : tagText.IsAccessFree :=
  isAccessFree_template (by simpa [Span.type] using isAccessFree_string)

theorem isAccessFree_literalUnion (name : String) :
    (reference "LiteralUnion" [named name]).IsAccessFree :=
  everywhere_reference
    rfl (List.forall_mem_singleton.mpr (isAccessFree_named name))

/-- An index is the one place where it stands. -/
theorem indexesRegistry_access_iff {k' : String} :
    (access (named "Registry") (text k')).IndexesRegistry k ↔ k = k' := by
  constructor
  · rintro ⟨p, hp⟩
    cases p with
    | nil =>
        cases hp
        rfl
    | cons turn rest =>
        obtain ⟨v, hv, hrest⟩ := Option.bind_eq_some_iff.mp hp
        cases turn with
        | object =>
            cases hv
            exact absurd ⟨rest, hrest⟩
              ((isAccessFree_named "Registry").not_indexesRegistry k)
        | index =>
            cases hv
            exact absurd ⟨rest, hrest⟩ (IsAccessFree.not_indexesRegistry
              (everywhere_ofValue (v := .str k') rfl) k)
        | _ => cases hv
  · rintro rfl
    exact ⟨[], rfl⟩

/-- Beside the tags, a union has the indices of its first member. -/
theorem indexesRegistry_union_iff :
    (union [t, tagText]).IndexesRegistry k ↔ t.IndexesRegistry k := by
  constructor
  · rintro ⟨p, hp⟩
    cases p with
    | nil => cases hp
    | cons turn rest =>
        obtain ⟨v, hv, hrest⟩ := Option.bind_eq_some_iff.mp hp
        cases turn with
        | member i =>
            have hmem : v ∈ [t, tagText] := List.mem_of_getElem? hv
            rcases List.mem_pair.mp hmem with rfl | rfl
            · exact ⟨rest, hrest⟩
            · exact absurd ⟨rest, hrest⟩
                (isAccessFree_tagText.not_indexesRegistry k)
        | _ => cases hv
  · rintro ⟨p, hp⟩
    exact ⟨.member 0 :: p, (at?_cons rfl).trans hp⟩

end TypeExpr

/-- What a string may stand for in a schema. -/
inductive TextRole where
  | value
  /-- The keys of a field of a struct. -/
  | key

/-- The type that a string compiles to, and its imports. -/
def TextRole.compile (role : TextRole) (env : Environment) (scope : Scope)
    (length : Option Range)
    (attributes : List Attribute) : Emit (TypeExpr × Option ImportPaths) :=
  match role with
  | .value => do
    let c ← (Schema.string length attributes).compile env scope
    return (c.expr, c.imports)
  | .key => do
    let plan ← Plan.ofKey (.string length attributes)
    Plan.compileKey env scope plan

/-- The attributes say that a string is an identifier of the registry. -/
def PointsInto (attributes : List Attribute) (registry : String) : Prop :=
  ∃ found, Attribute.significant? attributes = some found ∧
    found.name = .str "id" ∧
    found.value.registry = .str registry

/-- The string may be an entry of its registry, and not only a tag. -/
def TextRole.AdmitsEntries (role : TextRole)
    (attributes : List Attribute) : Prop :=
  role = .value → ∀ found, Attribute.significant? attributes = some found →
    (found.value.textArgument "tags").isText "required" = false

def translationKeyPath : String :=
  registriesModule ++ "::TranslationKey"

/-- What becomes of a string: an index into the registry that it points into, or
a type without any. -/
inductive TextOutcome (env : Environment) (role : TextRole)
    (attributes : List Attribute) (t : TypeExpr)
    (imports : Option ImportPaths) : Prop where
  | identifier (registry : String) (points : PointsInto attributes registry)
      (index : ∀ k, t.IndexesRegistry k ↔
        k = withNamespace registry ∧ env.knowsRegistry registry = true ∧
          role.AdmitsEntries attributes)
      (noKeys : translationKeyPath ∉ importedPaths imports)
  | plain (points : ∀ registry, ¬ PointsInto attributes registry)
      (free : t.IsAccessFree)
      (keys : translationKeyPath ∈ importedPaths imports →
        env.hasTranslationKeys = true)

section Outcomes

variable {env : Environment} {scope : Scope} {length : Option Range}
  {attributes : List Attribute}

theorem pointsInto_iff {found : Attribute}
    (hfound : Attribute.significant? attributes = some found)
    {registry : String} :
    PointsInto attributes registry ↔
      found.name = .str "id" ∧ found.value.registry = .str registry := by
  simp [PointsInto, hfound]

theorem PointsInto.unique {registry registry' : String}
    (h : PointsInto attributes registry)
    (h' : PointsInto attributes registry') : registry = registry' := by
  obtain ⟨found, hfound, -, hregistry⟩ := h
  exact Json.str.inj (hregistry.symm.trans ((pointsInto_iff hfound).mp h').2)

theorem not_pointsInto_of_none
    (hnone : Attribute.significant? attributes = none) (registry : String) :
    ¬ PointsInto attributes registry := by
  simp [PointsInto, hnone]

/-- A string with another attribute points into no registry. -/
theorem not_pointsInto_of_name {found : Attribute} {name? : Option String}
    (hfound : Attribute.significant? attributes = some found)
    (hname : found.name.asKey? = .ok name?)
    (hne : name? ≠ some "id") (registry : String) :
    ¬ PointsInto attributes registry := by
  intro hpoints
  rw [((pointsInto_iff hfound).mp hpoints).1] at hname
  cases hname
  exact hne rfl

/-- Identifiers of no registry in particular point into none. -/
theorem not_pointsInto_of_isNull {found : Attribute}
    (hfound : Attribute.significant? attributes = some found)
    (hnull : found.value.registry.isNull = true) (registry : String) :
    ¬ PointsInto attributes registry := by
  intro hpoints
  rw [((pointsInto_iff hfound).mp hpoints).2] at hnull
  cases hnull

theorem identifiersOf_eq_ok {value : Json}
    {t : TypeExpr} {imports : Option ImportPaths}
    (h : identifiersOf env value = .ok (t, imports)) :
    ∃ registry, value = .str registry ∧
      (∀ k, t.IndexesRegistry k ↔ k = withNamespace registry ∧
        env.knowsRegistry registry = true) ∧
      translationKeyPath ∉ importedPaths imports := by
  obtain ⟨registry, hregistry, h⟩ := bind_eq_ok_iff.mp h
  have hvalue : value = .str registry := by
    have htext := liftMisuse_eq_ok_iff.mp hregistry
    cases value with
    | str s =>
        cases htext
        rfl
    | _ => cases htext
  refine ⟨registry, hvalue, ?_⟩
  split at h
  · rename_i hknown
    cases h
    refine ⟨fun k => ?_, ?_⟩
    · rw [TypeExpr.indexesRegistry_access_iff, hknown]
      simp
    · rw [importedPaths, ImportPaths.mem_ofList]
      decide
  · rename_i hunknown
    cases h
    refine ⟨fun k => ?_, List.not_mem_nil⟩
    simp [TypeExpr.isAccessFree_identifierText.not_indexesRegistry k, hunknown]

theorem textOutcome_compileIdentifier {found : Attribute} {c : Compiled}
    (hfound : Attribute.significant? attributes = some found)
    (hname : found.name = .str "id")
    (h : compileIdentifier env found.value.registry
      (found.value.textArgument "tags") = .ok c) :
    TextOutcome env .value attributes c.expr c.imports := by
  obtain ⟨⟨type, imports⟩, htype, h⟩ := bind_eq_ok_iff.mp h
  obtain ⟨registry, hregistry, hindex, hkeys⟩ := identifiersOf_eq_ok htype
  have hpoints : PointsInto attributes registry :=
    (pointsInto_iff hfound).mpr ⟨hname, hregistry⟩
  have hadmits : TextRole.AdmitsEntries .value attributes ↔
      (found.value.textArgument "tags").isText "required" = false := by
    simp [TextRole.AdmitsEntries, hfound]
  dsimp only at h
  split at h
  · rename_i hrequired
    cases h
    refine .identifier registry hpoints (fun k => ?_) List.not_mem_nil
    refine iff_of_false (TypeExpr.isAccessFree_tagText.not_indexesRegistry k) ?_
    rintro ⟨-, -, hentries⟩
    rw [hadmits, hrequired] at hentries
    cases hentries
  · rename_i hrequired
    have hentries : (found.value.textArgument "tags").isText "required" =
        false := by simpa using hrequired
    split at h
    · cases h
      refine .identifier registry hpoints (fun k => ?_) hkeys
      rw [hadmits, hentries]
      refine TypeExpr.indexesRegistry_union_iff.trans ((hindex k).trans ?_)
      simp
    · cases h
      refine .identifier registry hpoints (fun k => (hindex k).trans ?_) hkeys
      rw [hadmits, hentries]
      simp

theorem textOutcome_fixed {t : TypeExpr} {docs : List String} {c : Compiled}
    (hpoints : ∀ registry, ¬ PointsInto attributes registry)
    (hfree : t.IsAccessFree)
    (hc : ((Plan.fixed t none docs).compile env scope).outcome = .ok c) :
    TextOutcome env .value attributes c.expr c.imports := by
  cases hc
  exact .plain hpoints hfree fun hmem => absurd hmem List.not_mem_nil

theorem textOutcome_translationKeyType
    (hpoints : ∀ registry, ¬ PointsInto attributes registry) :
    TextOutcome env .value attributes (translationKeyType env).expr
      (translationKeyType env).imports := by
  rw [translationKeyType]
  split
  · rename_i hkeys
    exact .plain hpoints (TypeExpr.isAccessFree_literalUnion "TranslationKey")
      fun _ => hkeys
  · exact .plain hpoints TypeExpr.isAccessFree_string fun hmem =>
      absurd hmem List.not_mem_nil

theorem isAccessFree_plainText (isSome : Bool) :
    (if isSome then TypeExpr.someText else TypeExpr.string).IsAccessFree := by
  cases isSome
  · exact TypeExpr.isAccessFree_string
  · exact TypeExpr.isAccessFree_someText

theorem Plan.textOutcome_ofString {plan : Plan} {c : Compiled}
    (hplan : Plan.ofString length attributes = .ok plan)
    (hc : (plan.compile env scope).outcome = .ok c) :
    TextOutcome env .value attributes c.expr c.imports := by
  rw [Plan.ofString.eq_def] at hplan
  obtain ⟨docs, hplan⟩ := exists_of_rangeDocs hplan
  dsimp only at hplan
  split at hplan
  · rename_i hnone
    obtain ⟨isSome, -, hplan⟩ := bind_eq_ok_iff.mp hplan
    cases hplan
    exact textOutcome_fixed (not_pointsInto_of_none hnone)
      (isAccessFree_plainText isSome) hc
  · rename_i found hfound
    obtain ⟨name?, hname, hplan⟩ := bind_eq_ok_iff.mp hplan
    have hname := liftMisuse_eq_ok_iff.mp hname
    split at hplan
    · have hid := eq_str_of_asKey? hname
      split at hplan
      · rename_i hnull
        cases hplan
        exact textOutcome_fixed (not_pointsInto_of_isNull hfound hnull)
          TypeExpr.isAccessFree_identifierText hc
      · cases hplan
        rw [Plan.compile] at hc
        exact textOutcome_compileIdentifier hfound hid hc
    · cases hplan
      rw [Plan.compile] at hc
      cases hc
      exact textOutcome_translationKeyType
        (not_pointsInto_of_name hfound hname (by decide))
    · rename_i hnotId hnotKey
      split at hplan
      · cases hplan
        exact textOutcome_fixed (not_pointsInto_of_name hfound hname hnotId)
          TypeExpr.isAccessFree_string hc
      · cases hplan

theorem textOutcome_fixedKey {t keys : TypeExpr}
    {sources : List String} {imports : Option ImportPaths}
    (hpoints : ∀ registry, ¬ PointsInto attributes registry)
    (hfree : t.IsAccessFree) (hsources : translationKeyPath ∉ sources)
    (hc : (Plan.compileKey env scope (.fixed t sources)).outcome =
      .ok (keys, imports)) :
    TextOutcome env .key attributes keys imports := by
  cases hc
  refine .plain hpoints hfree fun hmem => absurd ?_ hsources
  split at hmem
  · cases hmem
  · exact ImportPaths.mem_ofList.mp hmem

theorem Plan.textOutcome_keyOfString {plan : KeyPlan}
    {keys : TypeExpr} {imports : Option ImportPaths}
    (hplan : KeyPlan.ofString length attributes = .ok plan)
    (hc : (Plan.compileKey env scope plan).outcome = .ok (keys, imports)) :
    TextOutcome env .key attributes keys imports := by
  rw [KeyPlan.ofString.eq_def] at hplan
  split at hplan
  · rename_i hnone
    obtain ⟨isSome, -, hplan⟩ := bind_eq_ok_iff.mp hplan
    cases hplan
    exact textOutcome_fixedKey (not_pointsInto_of_none hnone)
      (isAccessFree_plainText isSome) (by decide) hc
  · rename_i found hfound
    obtain ⟨name?, hname, hplan⟩ := bind_eq_ok_iff.mp hplan
    have hname := liftMisuse_eq_ok_iff.mp hname
    split at hplan
    · dsimp only at hplan
      split at hplan
      · rename_i hnull
        cases hplan
        exact textOutcome_fixedKey (not_pointsInto_of_isNull hfound hnull)
          TypeExpr.isAccessFree_someText (by decide) hc
      · cases hplan
        obtain ⟨registry, hregistry, hindex, hkeys⟩ := identifiersOf_eq_ok hc
        refine .identifier registry
          ((pointsInto_iff hfound).mpr ⟨eq_str_of_asKey? hname, hregistry⟩)
          (fun k => (hindex k).trans ?_) hkeys
        simp [TextRole.AdmitsEntries]
    · cases hplan
      exact textOutcome_fixedKey
        (not_pointsInto_of_name hfound hname (by decide))
        (TypeExpr.isAccessFree_literalUnion "ENTITY_SLOTS") (by decide) hc
    · cases hplan
      refine textOutcome_fixedKey
        (not_pointsInto_of_name hfound hname (by decide))
        (TypeExpr.isAccessFree_union ?_) (by decide) hc
      simpa using ⟨TypeExpr.isAccessFree_string,
        TypeExpr.isAccessFree_named "ObjectiveClass"⟩
    · cases hplan
      exact textOutcome_fixedKey
        (not_pointsInto_of_name hfound hname (by decide))
        (TypeExpr.isAccessFree_named "CRAFTING_INGREDIENT") (by decide) hc
    · rename_i hnotId _ _ _
      split at hplan
      · cases hplan
        exact textOutcome_fixedKey (not_pointsInto_of_name hfound hname hnotId)
          TypeExpr.isAccessFree_string (by decide) hc
      · cases hplan

theorem TextRole.textOutcome {role : TextRole}
    {t : TypeExpr} {imports : Option ImportPaths}
    (h : (role.compile env scope length attributes).outcome =
      .ok (t, imports)) :
    TextOutcome env role attributes t imports := by
  cases role with
  | value =>
      obtain ⟨c, hc, h⟩ := Emit.outcome_bind_eq_ok_iff.mp h
      cases h
      obtain ⟨plan, hplan, hc⟩ := Emit.outcome_bind_eq_ok_iff.mp hc
      obtain ⟨⟨⟩, -, hplan⟩ := bind_eq_ok_iff.mp hplan
      exact Plan.textOutcome_ofString hplan hc
  | key =>
      obtain ⟨plan, hplan, hc⟩ := Emit.outcome_bind_eq_ok_iff.mp h
      obtain ⟨⟨⟩, -, hplan⟩ := bind_eq_ok_iff.mp hplan
      exact Plan.textOutcome_keyOfString hplan hc

end Outcomes

namespace Run

variable {g g' : Run}

/-- After the registries, the one object of all registries has one property for
the identifier. It leads to the union of the entries that the input has for it,
and there are some. -/
def LeadsTo (g g' : Run) (k : String) : Prop :=
  ∃ entries e values properties name,
    g.registries.asEntries = .ok entries ∧ entryFor? k entries = some e ∧
      ReadsTo e values ∧ values ≠ [] ∧
    (g'.declaredIn registriesModule).filter (·.name == "Registry") =
      [{ name := "Registry", type := .object properties }] ∧
    properties.filter (·.name == k) = [.plain k (.named name)] ∧
    { name, type := .anyOf (values.map .text) } ∈ g'.declaredIn registriesModule

/-- What the registries are looked up by can be told from their identifiers. -/
theorem withoutNamespace_withNamespace_of_mem_keys
    {entries : List (String × Json)} {table : Table (List String)}
    (h : entries.foldlM readRegistry {} = .ok table)
    (hids : ∀ e ∈ entries, IsRegistryId e.1) {name : String}
    (hname : name ∈ table.keys) :
    withoutNamespace (withNamespace name) = name := by
  obtain ⟨e, values, hfind, -, -⟩ | ⟨-, hget⟩ :=
    foldlM_readRegistry_eq_ok h name
  · have hid := hids e (List.mem_reverse.mp (List.mem_of_find?_eq_some hfind))
    obtain rfl : withoutNamespace e.1 = name := by
      simpa using List.find?_some hfind
    rw [withNamespace_withoutNamespace hid, withoutNamespace_withNamespace]
  · exact absurd hname (Table.get?_eq_none_iff.mp hget)

theorem name_of_literalAlias? {name : String} {values : List Json} {a : Alias}
    (h : literalAlias? name values = .ok (some a)) : a.name = name := by
  simpa using name_literalAlias? h

/-- No other alias bears the name of the object of all registries. -/
theorem filter_declaredIn (hfresh : g.IsFresh)
    (hpass : declareRegistries g = (.ok ⟨⟩, g')) :
    (g'.declaredIn registriesModule).filter (·.name == "Registry") =
      [{ name := "Registry",
         type := .object (indexProperties g'.books.env.registries) }] := by
  obtain ⟨translationKey?, blockStateKey?, -, htranslation, hblock, -,
    hdeclared⟩ :=
    declareRegistries_eq_ok hfresh hpass
  have hothers : ∀ {name : String} {values : List Json} {alias? : Option Alias},
      literalAlias? name values = .ok alias? → name ≠ "Registry" →
        alias?.toList.filter (·.name == "Registry") = [] := by
    intro name values alias? h hne
    rw [List.filter_eq_nil_iff]
    intro a ha
    obtain rfl := Option.mem_toList.mp ha
    simpa [name_of_literalAlias? h] using hne
  rw [hdeclared, List.filter_append, List.filter_append, filter_registryAliases,
    hothers htranslation (by decide), hothers hblock (by decide)]
  rfl

theorem leadsTo_of_filled (hfresh : g.IsFresh)
    (hpass : declareRegistries g = (.ok ⟨⟩, g'))
    (hids : ∀ entries, g.registries.asEntries = .ok entries → ∀ e ∈ entries,
      IsRegistryId e.1) {registry : String} (hid : IsRegistryId registry)
    (hfilled : RegistryFilled g.registries registry) :
    LeadsTo g g' (withNamespace registry) := by
  obtain ⟨translationKey?, blockStateKey?, hread, -, -, -, hdeclared⟩ :=
    declareRegistries_eq_ok hfresh hpass
  obtain ⟨entries, hentries, hfold⟩ := readRegistries_eq_ok hread
  have hknown := (knowsRegistry_iff hread).mpr hfilled
  rw [Environment.knowsRegistry] at hknown
  obtain ⟨e, values, hlast, hreads, hget⟩ | ⟨-, hget⟩ :=
    foldlM_readRegistry_eq_ok hfold (withoutNamespace registry)
  · rw [hget] at hknown
    have hne : values ≠ [] := by simpa using hknown
    have hnames := fun name => @withoutNamespace_withNamespace_of_mem_keys _ _
      hfold (hids entries hentries) name
    have hproperty := filter_indexProperties
      (nodup_keys_foldlM_readRegistry hfold List.nodup_nil) hnames hget hne
    rw [withNamespace_withoutNamespace hid] at hproperty
    refine ⟨entries, e, values, _, _, hentries, ?_, hreads, hne,
      filter_declaredIn hfresh hpass, hproperty, ?_⟩
    · rw [entryFor?, withoutNamespace_withNamespace]
      exact hlast
    · rw [hdeclared, registryAliases]
      refine List.mem_append_left _
        (List.mem_append_left _ (List.mem_append_left _ (List.mem_map.mpr ?_)))
      exact ⟨(withoutNamespace registry, values),
        mem_filledRegistries.mpr ⟨hget, hne⟩, rfl⟩
  · rw [hget] at hknown
    cases hknown

/-- An index into the registries is one that the object of all registries has.
It comes of a string exactly if the registry that the string points into has
entries, and translation keys are imported only if there are any. -/
theorem registry_index_declared (hfresh : g.IsFresh)
    (hpass : declareRegistries g = (.ok ⟨⟩, g'))
    (hids : ∀ entries, g.registries.asEntries = .ok entries → ∀ e ∈ entries,
      IsRegistryId e.1)
    {env : Environment} (hregistries : env.registries = g'.books.env.registries)
    (hkeys : env.hasTranslationKeys = g'.books.env.hasTranslationKeys)
    {scope : Scope} {role : TextRole}
    {length : Option Range} {attributes : List Attribute}
    (hid : ∀ registry, PointsInto attributes registry → IsRegistryId registry)
    {t : TypeExpr} {imports : Option ImportPaths}
    (hcompile : (role.compile env scope length attributes).outcome =
      .ok (t, imports)) :
    (∀ k, t.IndexesRegistry k → LeadsTo g g' k) ∧
    (∀ registry, PointsInto attributes registry → ∀ k, t.IndexesRegistry k ↔
      k = withNamespace registry ∧ RegistryFilled g.registries registry ∧
        role.AdmitsEntries attributes) ∧
    (translationKeyPath ∈ importedPaths imports →
      ∃ a ∈ g'.declaredIn registriesModule, a.name = "TranslationKey") := by
  obtain ⟨translationKey?, blockStateKey?, hread, htranslation, -, hhas,
    hdeclared⟩ :=
    declareRegistries_eq_ok hfresh hpass
  rw [← hregistries] at hread
  cases TextRole.textOutcome hcompile with
  | identifier registry hpoints hindex hnoKeys =>
      refine ⟨fun k hk => ?_, fun registry' hpoints' k => ?_,
        fun hmem => absurd hmem hnoKeys⟩
      · obtain ⟨rfl, hknown, -⟩ := (hindex k).mp hk
        exact leadsTo_of_filled hfresh hpass hids (hid registry hpoints)
          ((knowsRegistry_iff hread).mp hknown)
      · rw [hpoints'.unique hpoints, hindex k, knowsRegistry_iff hread]
  | plain hpoints hfree hkeys' =>
      refine ⟨fun k hk => absurd hk (hfree.not_indexesRegistry k),
        fun registry hpoints' => absurd hpoints' (hpoints registry),
        fun hmem => ?_⟩
      have hsome : translationKey?.isSome = true := by
        rw [← hhas, ← hkeys, hkeys' hmem]
      obtain ⟨a, rfl⟩ := Option.isSome_iff_exists.mp hsome
      refine ⟨a, ?_, name_of_literalAlias? htranslation⟩
      rw [hdeclared]
      exact List.mem_append_left _ (List.mem_append_right _ List.mem_cons_self)

/-- A run with one registry, an empty one and a translation key. -/
def indexRun : Run :=
  { books := {}
    dispatchers := {}
    registries :=
      .obj [("minecraft:block", .arr [.str "stone"]), ("mod:item", .arr [])]
    translationKeys := [.str "a.b"] }

/-- What the run leaves to be looked up. -/
def indexEnvironment : Environment :=
  { registries := ⟨[("block", ["minecraft:stone"]), ("mod:item", [])]⟩
    hasTranslationKeys := true }

def idAttribute (registry : String) : Attribute :=
  .mk (.str "id") (.type (.literal (.str "string") (.str registry) []))

theorem eq_of_pointsInto_idAttribute {name registry : String}
    (h : PointsInto [idAttribute name] registry) :
    registry = name := by
  obtain ⟨found, hfound, -, hregistry⟩ := h
  cases hfound
  exact (Json.str.inj hregistry).symm

/-- The index has the registry with an entry, under its full identifier, and
not the empty one. -/
theorem registry_index_declared_indexRun :
    ∃ g', declareRegistries indexRun = (.ok ⟨⟩, g') ∧
      g'.books.env = indexEnvironment ∧
      (∃ t imports, (TextRole.value.compile indexEnvironment
        {} none [idAttribute "block"]).outcome =
          .ok (t, imports) ∧ t.IndexesRegistry "minecraft:block" ∧
            LeadsTo indexRun g' "minecraft:block") ∧
      (∃ t imports, (TextRole.key.compile indexEnvironment
        {} none [idAttribute "mod:item"]).outcome =
          .ok (t, imports) ∧ ∀ k, ¬ t.IndexesRegistry k) ∧
      ∃ t imports, (TextRole.value.compile indexEnvironment {} none
          [.mk (.str "translation_key") .absent]).outcome = .ok (t, imports) ∧
        translationKeyPath ∈ importedPaths imports ∧
        ∃ a ∈ g'.declaredIn registriesModule, a.name = "TranslationKey" := by
  have hfresh : indexRun.IsFresh := ⟨rfl, rfl, rfl, rfl, rfl⟩
  have hread :
      readRegistries indexRun.registries = .ok indexEnvironment.registries := by
    change Except.ok
      ((Table.empty.put "block" (sortedTexts ["minecraft:stone"])).put
      "mod:item" (sortedTexts [])) = _
    rw [sortedTexts, sortedTexts, List.mergeSort_singleton, List.mergeSort_nil]
    rfl
  have htranslation : literalAlias? "TranslationKey" indexRun.translationKeys =
      .ok (some { name := "TranslationKey", type := .text "a.b" }) := by
    have hordered :
        Json.orderedSet indexRun.translationKeys = .ok [.str "a.b"] := by
      simp [indexRun, Json.orderedSet, Json.ordered, Json.distinct,
        Json.areAlike]
    rw [literalAlias?, hordered]
    rfl
  have hpass :=
    (declareRegistries_eq_ok_iff Drafts.isOpen_empty hfresh.completed).mpr
    ⟨_, hread, _, htranslation, none, literalAlias?_nil _, rfl⟩
  have hids : ∀ entries, indexRun.registries.asEntries = .ok entries →
      ∀ e ∈ entries, IsRegistryId e.1 := by
    rintro entries ⟨⟩
    decide
  have hid : ∀ name, IsRegistryId name →
      ∀ registry, PointsInto [idAttribute name] registry →
      IsRegistryId registry :=
    fun name hname registry h => eq_of_pointsInto_idAttribute h ▸ hname
  have hnone : ∀ registry,
      ¬ PointsInto [.mk (.str "translation_key") .absent] registry := by
    rintro registry ⟨found, hfound, hname, -⟩
    cases hfound
    exact absurd (Json.str.inj hname) (by decide)
  have hblock : (TextRole.value.compile indexEnvironment
        {} none [idAttribute "block"]).outcome =
      .ok (.access (.named "Registry") (.text "minecraft:block"),
        some (.ofList [registriesModule ++ "::Registry"])) := rfl
  have hitem : (TextRole.key.compile indexEnvironment
        {} none [idAttribute "mod:item"]).outcome =
      .ok (.identifierText, none) := rfl
  have hkey : (TextRole.value.compile indexEnvironment
        {} none [.mk (.str "translation_key") .absent]).outcome =
      .ok (.reference "LiteralUnion" [.named "TranslationKey"],
        some (.ofList [libraryPath "LiteralUnion", translationKeyPath])) := rfl
  refine ⟨_, hpass, rfl, ⟨_, _, hblock, ?_⟩, ⟨_, _, hitem, ?_⟩,
    ⟨_, _, hkey, ?_⟩⟩
  · have hindex : (TypeExpr.access (.named "Registry")
          (.text "minecraft:block")).IndexesRegistry
        "minecraft:block" := ⟨[], rfl⟩
    have hall := registry_index_declared hfresh hpass hids
      rfl rfl (hid "block" (by decide)) hblock
    exact ⟨hindex, hall.1 _ hindex⟩
  · intro k hk
    have hall := registry_index_declared hfresh hpass hids
      rfl rfl (hid "mod:item" (by decide)) hitem
    obtain ⟨-, ⟨_, _, items, ⟨⟩, hlast, hwalk, hitems⟩, -⟩ :=
      (hall.2.1 "mod:item" ⟨idAttribute "mod:item", rfl, rfl, rfl⟩ k).mp hk
    have hentry : entryFor? "mod:item"
        [("minecraft:block", .arr [.str "stone"]), ("mod:item", .arr [])] =
        some ("mod:item", .arr []) := rfl
    cases hentry.symm.trans hlast
    cases hwalk
    exact hitems rfl
  · have hmem : translationKeyPath ∈ importedPaths
        (some (.ofList [libraryPath "LiteralUnion", translationKeyPath])) := by
      rw [importedPaths, ImportPaths.mem_ofList]
      decide
    have hall := registry_index_declared hfresh hpass hids rfl rfl
      (fun registry h => absurd h (hnone registry)) hkey
    exact ⟨hmem, hall.2.2 hmem⟩

end Run

end Typings
