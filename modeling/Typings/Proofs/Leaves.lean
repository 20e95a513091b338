import Typings.Proofs.Compilation
import Typings.Proofs.ImportPaths
import Typings.Proofs.Names
import Typings.Proofs.SymbolPath

/-!
Types without types inside them. Each compiles to an expression whose names are
exactly the last segments of what it imports, all from a fixed list, and it
leaves no request open.
-/

namespace Typings

/-- The paths that the types below are imported from. -/
def leafSources : List String :=
  ["NBTByte", "NBTShort", "NBTInt", "NBTLong", "NBTFloat",
    "NBTDouble", "NBTByteArray", "NBTIntArray", "NBTLongArray", "LiteralUnion",
    "ObjectiveClass", "arguments::ENTITY_SLOTS",
    "arguments::CRAFTING_INGREDIENT"].map libraryPath ++
  [registriesModule ++ "::Registry", registriesModule ++ "::TranslationKey"]

/-- The expression refers to what it imports and to nothing else. -/
structure Sourced (type : TypeExpr) (imports : Option ImportPaths) : Prop where
  normal : ImportsNormal imports
  known : ∀ path ∈ importedPaths imports, path ∈ leafSources
  names : ∀ hide n, n ∈ type.namesWith hide ↔
    ∃ path ∈ importedPaths imports, lastSegment path = n

theorem Sourced.nothing {type : TypeExpr}
    (h : ∀ hide, type.namesWith hide = []) :
    Sourced type none where
  normal := importsNormal_none
  known := by simp [importedPaths]
  names := by simp [importedPaths, h]

theorem Sourced.ofList {type : TypeExpr} {path : String} {rest : List String}
    (hknown : ∀ p ∈ path :: rest, p ∈ leafSources)
    (h : ∀ hide n, n ∈ type.namesWith hide ↔
      n ∈ (path :: rest).map lastSegment) :
    Sourced type (some (.ofList (path :: rest))) where
  normal := importsNormal_ofList
  known p hp := hknown p (ImportPaths.mem_ofList.mp hp)
  names hide n := by
    simp only [h, importedPaths, ImportPaths.mem_ofList, List.mem_map]

/-- A library type applied to arguments that name nothing. -/
theorem Sourced.library {name : String} {args : List TypeExpr}
    (hknown : libraryPath name ∈ leafSources)
    (hname : lastSegment (libraryPath name) = name)
    (hargs : ∀ hide, TypeExpr.namesWithAll hide args = []) :
    Sourced (.reference name args) (some (.ofList [libraryPath name])) :=
  .ofList (by simpa using hknown) (by simp [TypeExpr.namesWith, hargs, hname])

/-- The library types whose name is all of their path. -/
def libraryNames : List String :=
  ["NBTByte", "NBTShort", "NBTInt", "NBTLong", "NBTFloat",
    "NBTDouble", "NBTByteArray", "NBTIntArray",
    "NBTLongArray", "LiteralUnion", "ObjectiveClass"]

theorem source_of_mem_libraryNames : ∀ name ∈ libraryNames,
    libraryPath name ∈ leafSources ∧ lastSegment (libraryPath name) = name := by
  decide +kernel

theorem Range.namesWith_entryType {v : Json} {t : TypeExpr}
    (h : Range.entryType v = .ok t) (hide : Bool) : t.namesWith hide = [] := by
  rw [Range.entryType.eq_def] at h
  split at h
  · cases h
    rfl
  · obtain ⟨isWhole, -, h⟩ := bind_eq_ok_iff.mp h
    split at h
    · obtain ⟨n, -, h⟩ := bind_eq_ok_iff.mp h
      cases h
      rfl
    · cases h
      rfl

theorem Range.namesWith_objectOf {entries : List (String × Json)} {t : TypeExpr}
    (h : Range.objectOf entries = .ok t) (hide : Bool) :
    t.namesWith hide = [] := by
  obtain ⟨ps, hps, ht⟩ := bind_eq_ok_iff.mp h
  obtain rfl := pure_eq_ok_iff.mp ht
  rw [TypeExpr.namesWith, TypeExpr.namesWithProperties_eq,
    List.flatMap_eq_nil_iff]
  intro q hq
  obtain ⟨e, -, he⟩ := exists_of_mem_mapM hps hq
  obtain ⟨type, htype, hq⟩ := bind_eq_ok_iff.mp he
  obtain rfl := pure_eq_ok_iff.mp hq
  exact Range.namesWith_entryType htype hide

/-- Docs of a moved bound decide nothing that comes after them. -/
theorem exists_of_boundDocs {ε α : Type}
    {shows : Bool} {shown : Except ε String}
    {heading : String} {f : List String → Except ε α} {a : α}
    (h : (if shows then (do
        let text ← shown
        pure [heading ++ text] >>= f)
      else pure [] >>= f) = .ok a) :
    ∃ docs, f docs = .ok a := by
  split at h
  · obtain ⟨text, -, h⟩ := bind_eq_ok_iff.mp h
    exact ⟨_, h⟩
  · exact ⟨_, h⟩

/-- Docs of a range decide nothing that comes after them. -/
theorem exists_of_rangeDocs {α : Type} {range : Option Range} {heading : String}
    {f : List String → Except Fault α} {a : α}
    (h : (match range with
      | none => pure [] >>= f
      | some r => do
        let shown ← r.text
        pure [heading ++ shown] >>= f) = .ok a) :
    ∃ docs, f docs = .ok a := by
  split at h
  · exact ⟨_, h⟩
  · obtain ⟨shown, -, h⟩ := bind_eq_ok_iff.mp h
    exact ⟨_, h⟩

theorem Range.namesWith_wholeArgument {r : Range} {t : TypeExpr}
    {docs : List String} (h : r.wholeArgument = .ok (t, docs)) (hide : Bool) :
    t.namesWith hide = [] := by
  obtain ⟨shown, -, h⟩ := bind_eq_ok_iff.mp h
  obtain ⟨low, -, h⟩ := bind_eq_ok_iff.mp h
  obtain ⟨omitsLow, -, h⟩ := bind_eq_ok_iff.mp h
  obtain ⟨lowDocs, h⟩ := exists_of_boundDocs h
  obtain ⟨high, -, h⟩ := bind_eq_ok_iff.mp h
  obtain ⟨omitsHigh, -, h⟩ := bind_eq_ok_iff.mp h
  obtain ⟨highDocs, h⟩ := exists_of_boundDocs h
  obtain ⟨entries, -, h⟩ := bind_eq_ok_iff.mp h
  obtain ⟨type, htype, h⟩ := bind_eq_ok_iff.mp h
  cases h
  exact Range.namesWith_objectOf htype hide

theorem Range.namesWith_boundsArgument {r : Range}
    {heading : String} {t : TypeExpr} {docs : List String}
    (h : r.boundsArgument heading = .ok (t, docs)) (hide : Bool) :
    t.namesWith hide = [] := by
  simp only [Range.boundsArgument, bind_eq_ok_iff] at h
  obtain ⟨_, -, _, -, _, -, type, htype, h⟩ := h
  cases h
  exact Range.namesWith_objectOf htype hide

/-- The compiled type is an expression with nothing left open. -/
structure Compiled.IsClosed (c : Compiled) : Prop where
  isExpr : c.type = .expression c.expr
  sourced : Sourced c.expr c.imports
  requests : c.requests = []

theorem Compiled.isClosed_ofExpr
    {type : TypeExpr} {imports : Option ImportPaths}
    (h : Sourced type imports) : (Compiled.ofExpr type imports).IsClosed :=
  ⟨rfl, h, rfl⟩

variable {env : Environment} {scope : Scope} {c : Compiled}

theorem Plan.isClosed_fixed {type : TypeExpr}
    {source : Option String} {docs : List String}
    (h : Sourced type (source.map fun path => .ofList [path]))
    (hc : ((Plan.fixed type source docs).compile env scope).outcome =
      .ok c) : c.IsClosed := by
  rw [Plan.compile] at hc
  cases hc
  exact ⟨rfl, h, rfl⟩

theorem NumericKind.wholeName?_source {kind : NumericKind} {name : String}
    (h : kind.wholeName? = some name) :
    libraryPath name ∈ leafSources ∧ lastSegment (libraryPath name) = name := by
  cases kind <;> cases h <;> exact source_of_mem_libraryNames _ (by decide)

theorem ArrayKind.name_source (kind : ArrayKind) :
    libraryPath kind.name ∈ leafSources ∧
      lastSegment (libraryPath kind.name) = kind.name := by
  cases kind <;> exact source_of_mem_libraryNames _ (by decide)

theorem sourced_fractional {args : List TypeExpr} (isFloat : Bool)
    (hargs : ∀ hide, TypeExpr.namesWithAll hide args = []) :
    Sourced
      (if isFloat then .reference "NBTFloat" args
        else .union [.reference "NBTDouble" args, .numeric])
      (some (.ofList
        [libraryPath (if isFloat then "NBTFloat" else "NBTDouble")])) := by
  cases isFloat with
  | true =>
      obtain ⟨hknown, hlast⟩ :=
        source_of_mem_libraryNames "NBTFloat" (by decide)
      exact .library hknown hlast hargs
  | false =>
      refine .ofList (by simp [leafSources]) fun hide n => ?_
      simp only [Bool.false_eq_true, if_false, TypeExpr.namesWith,
        TypeExpr.namesWithAll, TypeExpr.numeric, hargs]
      exact Iff.of_eq rfl

theorem Plan.isClosed_ofNumeric {kind : NumericKind} {range : Option Range}
    {plan : Plan} (hplan : Plan.ofNumeric kind range = .ok plan)
    (hc : (plan.compile env scope).outcome = .ok c) : c.IsClosed := by
  rw [Plan.ofNumeric.eq_def] at hplan
  split at hplan
  · rename_i name hname
    obtain ⟨hknown, hlast⟩ := NumericKind.wholeName?_source hname
    split at hplan
    · cases hplan
      exact Plan.isClosed_fixed (.library hknown hlast fun _ => rfl) hc
    · obtain ⟨⟨generic, docs⟩, hgeneric, hplan⟩ := bind_eq_ok_iff.mp hplan
      cases hplan
      have hnames :=
        Range.namesWith_wholeArgument (liftMisuse_eq_ok_iff.mp hgeneric)
      exact Plan.isClosed_fixed
        (.library hknown hlast (by simp [TypeExpr.namesWithAll, hnames])) hc
  · have hfixed : ∃ args docs, (∀ hide, TypeExpr.namesWithAll hide args = []) ∧
        plan = .fixed
          (if kind = .float then .reference
            (if kind = .float then "NBTFloat" else "NBTDouble") args
            else .union [.reference (if kind = .float then "NBTFloat"
              else "NBTDouble") args, .numeric])
          (some (libraryPath (if kind = .float then "NBTFloat"
            else "NBTDouble"))) docs := by
      dsimp only at hplan
      split at hplan
      · cases hplan
        exact ⟨[], [], fun _ => rfl, rfl⟩
      · obtain ⟨⟨generic, docs⟩, hgeneric, hplan⟩ := bind_eq_ok_iff.mp hplan
        cases hplan
        have hnames :=
          Range.namesWith_boundsArgument (liftMisuse_eq_ok_iff.mp hgeneric)
        refine ⟨[.numeric, generic], docs, fun hide => ?_, rfl⟩
        simp [TypeExpr.namesWithAll, TypeExpr.numeric,
          TypeExpr.namesWith, hnames]
    obtain ⟨args, docs, hargs, rfl⟩ := hfixed
    refine Plan.isClosed_fixed ?_ hc
    have hsourced := sourced_fractional (decide (kind = .float)) hargs
    by_cases hkind : kind = .float <;> simpa [hkind] using hsourced

theorem Plan.isClosed_ofArray {kind : ArrayKind} {range length : Option Range}
    {plan : Plan} (hplan : Plan.ofArray kind range length = .ok plan)
    (hc : (plan.compile env scope).outcome = .ok c) : c.IsClosed := by
  obtain ⟨hknown, hlast⟩ := kind.name_source
  rw [Plan.ofArray.eq_def] at hplan
  obtain ⟨rangeDocs, hplan⟩ := exists_of_rangeDocs hplan
  dsimp only at hplan
  split at hplan
  · cases hplan
    exact Plan.isClosed_fixed (.library hknown hlast fun _ => rfl) hc
  · obtain ⟨⟨generic, docs⟩, hgeneric, hplan⟩ := bind_eq_ok_iff.mp hplan
    cases hplan
    have hnames :=
      Range.namesWith_boundsArgument (liftMisuse_eq_ok_iff.mp hgeneric)
    exact Plan.isClosed_fixed
      (.library hknown hlast (by simp [TypeExpr.namesWithAll, hnames])) hc

theorem sourced_literalExpr {kind value : Json} {type : TypeExpr}
    {source : Option String} (h : literalExpr kind value = .ok (type, source)) :
    Sourced type (source.map fun path => .ofList [path]) := by
  obtain ⟨word?, -, h⟩ := bind_eq_ok_iff.mp h
  split at h
  · cases h
  · cases h
    exact .nothing fun _ => rfl
  · cases h
    exact .nothing fun _ => rfl
  · cases h
    exact .nothing fun _ => rfl
  · cases h
    exact .nothing fun _ => rfl
  · obtain ⟨whole, -, h⟩ := bind_eq_ok_iff.mp h
    cases h
    obtain ⟨hknown, hlast⟩ := source_of_mem_libraryNames "NBTLong" (by decide)
    exact .library hknown hlast fun _ => rfl
  · split at h
    · rename_i word _ _ _ _ _ _ name hname
      cases h
      have hnames : ∀ e ∈ literalNames, e.2 ∈ libraryNames := by decide
      obtain ⟨hknown, hlast⟩ := source_of_mem_libraryNames name
        (hnames (word, name) (mem_of_lookup hname))
      exact .library hknown hlast fun _ => rfl
    · cases h

theorem sourced_identifiersOf {registry : Json}
    {type : TypeExpr} {imports : Option ImportPaths}
    (h : identifiersOf env registry = .ok (type, imports)) :
    Sourced type imports := by
  obtain ⟨name, -, h⟩ := bind_eq_ok_iff.mp h
  split at h
  · cases h
    exact .ofList (by simp [leafSources]) fun _ _ => Iff.of_eq rfl
  · cases h
    exact .nothing fun _ => rfl

theorem isClosed_compileIdentifier {registry tags : Json}
    (h : compileIdentifier env registry tags = .ok c) : c.IsClosed := by
  obtain ⟨⟨type, imports⟩, htype, h⟩ := bind_eq_ok_iff.mp h
  have hsourced := sourced_identifiersOf htype
  dsimp only at h
  split at h
  · cases h
    exact Compiled.isClosed_ofExpr (.nothing fun _ => rfl)
  · split at h
    · cases h
      refine Compiled.isClosed_ofExpr ⟨hsourced.normal, hsourced.known,
        fun hide n => ?_⟩
      rw [← hsourced.names hide n]
      simp [TypeExpr.namesWith, TypeExpr.namesWithAll, TypeExpr.namesWithSpans,
        TypeExpr.tagText, TypeExpr.string]
    · cases h
      exact Compiled.isClosed_ofExpr hsourced

theorem isClosed_translationKeyType : (translationKeyType env).IsClosed := by
  rw [translationKeyType]
  split
  · exact Compiled.isClosed_ofExpr
      (.ofList (by simp [leafSources]) fun _ _ => Iff.of_eq rfl)
  · exact Compiled.isClosed_ofExpr (.nothing fun _ => rfl)

/-- The types of plain strings name nothing. -/
theorem namesWith_plainText (isSome hide : Bool) :
    (if isSome then TypeExpr.someText else TypeExpr.string).namesWith hide =
      [] := by
  cases isSome <;> rfl

theorem Plan.isClosed_ofString {length : Option Range}
    {attributes : List Attribute} {plan : Plan}
    (hplan : Plan.ofString length attributes = .ok plan)
    (hc : (plan.compile env scope).outcome = .ok c) : c.IsClosed := by
  rw [Plan.ofString.eq_def] at hplan
  obtain ⟨docs, hplan⟩ := exists_of_rangeDocs hplan
  dsimp only at hplan
  split at hplan
  · obtain ⟨isSome, -, hplan⟩ := bind_eq_ok_iff.mp hplan
    cases hplan
    exact Plan.isClosed_fixed (.nothing (namesWith_plainText isSome)) hc
  · obtain ⟨name?, -, hplan⟩ := bind_eq_ok_iff.mp hplan
    split at hplan
    · split at hplan
      · cases hplan
        exact Plan.isClosed_fixed (.nothing fun _ => rfl) hc
      · cases hplan
        rw [Plan.compile] at hc
        exact isClosed_compileIdentifier hc
    · cases hplan
      rw [Plan.compile] at hc
      cases hc
      exact isClosed_translationKeyType
    · split at hplan
      · cases hplan
        exact Plan.isClosed_fixed (.nothing fun _ => rfl) hc
      · cases hplan

theorem sourced_compileCase {kind : Json} {case : EnumCase}
    {e : TypeExpr × Option String × List String}
    (h : compileCase kind case = .ok e) :
    Sourced e.1 (e.2.1.map fun path => .ofList [path]) := by
  obtain ⟨⟨type, source⟩, htype, h⟩ := bind_eq_ok_iff.mp h
  dsimp only at h
  split at h
  · obtain ⟨description, -, h⟩ := bind_eq_ok_iff.mp h
    cases h
    exact sourced_literalExpr htype
  · cases h
    exact sourced_literalExpr htype

theorem isClosed_compileEnum {kind : Json} {cases : List EnumCase}
    (h : compileEnum kind cases = .ok c) : c.IsClosed := by
  obtain ⟨compiled, hcompiled, h⟩ := bind_eq_ok_iff.mp h
  obtain rfl := pure_eq_ok_iff.mp h
  have hsourced :
      ∀ e ∈ compiled, Sourced e.1 (e.2.1.map fun path => .ofList [path]) := by
    intro e he
    obtain ⟨case, -, hcase⟩ := exists_of_mem_mapM hcompiled he
    exact sourced_compileCase hcase
  obtain ⟨hnormal, hmem⟩ :=
    importsNormal_none.foldl_includeImport (compiled.filterMap (·.2.1))
  have hpaths : ∀ q, q ∈ importedPaths
      ((compiled.filterMap (·.2.1)).foldl includeImport none) ↔
      ∃ e ∈ compiled, e.2.1 = some q := by
    simpa [importedPaths] using hmem
  refine ⟨rfl, ⟨hnormal, fun q hq => ?_, fun hide n => ?_⟩, rfl⟩
  · obtain ⟨e, he, hq⟩ := (hpaths q).mp hq
    exact (hsourced e he).known q (mem_importedPaths_source.mpr hq)
  · change n ∈ (TypeExpr.anyOf (compiled.map (·.1))).namesWith hide ↔ _
    rw [TypeExpr.mem_namesWith_anyOf]
    simp only [List.mem_map, exists_exists_and_eq_and, hpaths]
    constructor
    · rintro ⟨e, he, hn⟩
      obtain ⟨path, hpath, hlast⟩ := ((hsourced e he).names hide n).mp hn
      exact ⟨path, ⟨e, he, mem_importedPaths_source.mp hpath⟩, hlast⟩
    · rintro ⟨path, ⟨e, he, hpath⟩, hlast⟩
      exact ⟨e, he, ((hsourced e he).names hide n).mpr
        ⟨path, mem_importedPaths_source.mpr hpath, hlast⟩⟩

/-- A type without types inside it leaves nothing open. -/
theorem Compiles.isClosed_of_isLeaf {type : Schema} {plan : Plan}
    (hleaf : type.isLeaf = true) (hplan : Plan.ofBody type = .ok plan)
    (hc : (plan.compile env scope).outcome = .ok c) :
    c.IsClosed := by
  cases type with
  | any attributes =>
      cases hplan
      exact Plan.isClosed_fixed (.nothing fun _ => rfl) hc
  | unchecked attributes =>
      cases hplan
      exact Plan.isClosed_fixed (.nothing fun _ => rfl) hc
  | boolean attributes =>
      cases hplan
      exact Plan.isClosed_fixed (.nothing fun _ => rfl) hc
  | string length attributes =>
      rw [Plan.ofBody] at hplan
      exact Plan.isClosed_ofString hplan hc
  | numeric kind range attributes =>
      rw [Plan.ofBody] at hplan
      exact Plan.isClosed_ofNumeric hplan hc
  | array kind range length attributes =>
      rw [Plan.ofBody] at hplan
      exact Plan.isClosed_ofArray hplan hc
  | enum kind values attributes =>
      rw [Plan.ofBody, bind_eq_ok_iff] at hplan
      obtain ⟨cases, -, hplan⟩ := hplan
      cases hplan
      rw [Plan.compile] at hc
      exact isClosed_compileEnum hc
  | literal kind value attributes =>
      rw [Plan.ofBody, bind_eq_ok_iff] at hplan
      obtain ⟨⟨type, source⟩, htype, hplan⟩ := hplan
      cases hplan
      exact Plan.isClosed_fixed (sourced_literalExpr htype) hc
  | _ => cases hleaf

/-- The keys that a string stands for. -/
theorem sourced_compileKey_ofString {length : Option Range}
    {attributes : List Attribute}
    {plan : KeyPlan} {keys : TypeExpr} {imports : Option ImportPaths}
    (hplan : KeyPlan.ofString length attributes = .ok plan)
    (hc : (Plan.compileKey env scope plan).outcome = .ok (keys, imports)) :
    Sourced keys imports := by
  rw [KeyPlan.ofString.eq_def] at hplan
  split at hplan
  · obtain ⟨isSome, -, hplan⟩ := bind_eq_ok_iff.mp hplan
    cases hplan
    cases hc
    exact .nothing (namesWith_plainText isSome)
  · obtain ⟨name?, -, hplan⟩ := bind_eq_ok_iff.mp hplan
    split at hplan
    · dsimp only at hplan
      split at hplan
      · cases hplan
        cases hc
        exact .nothing fun _ => rfl
      · cases hplan
        exact sourced_identifiersOf hc
    · cases hplan
      cases hc
      refine .ofList (by simp [leafSources]) fun hide n => ?_
      have hlast : [libraryPath "arguments::ENTITY_SLOTS",
            libraryPath "LiteralUnion"].map
          lastSegment = ["ENTITY_SLOTS", "LiteralUnion"] := rfl
      rw [hlast]
      change n ∈ ["LiteralUnion", "ENTITY_SLOTS"] ↔
        n ∈ ["ENTITY_SLOTS", "LiteralUnion"]
      rw [List.mem_pair, List.mem_pair, or_comm]
    · cases hplan
      cases hc
      exact .ofList (by simp [leafSources]) fun _ _ => Iff.of_eq rfl
    · cases hplan
      cases hc
      exact .ofList (by simp [leafSources]) fun _ _ => Iff.of_eq rfl
    · split at hplan
      · cases hplan
        cases hc
        exact .nothing fun _ => rfl
      · cases hplan

end Typings
