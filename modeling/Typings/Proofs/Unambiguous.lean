import Typings.Proofs.Bounds
import Typings.Proofs.Leaves
import Typings.Proofs.Reading
import Typings.Proofs.Validation

/-!
The printer is unambiguous on what compiling gives. Away from the root a type
compiles to an expression in which every nesting can be told from its text, so
such expressions are read back from what they print as. This takes names that
are words and numbers that are finite, and nothing else: whatever docs, keys and
texts a type has, its expression stays apart from every other one.
-/

namespace Typings

/-- The kinds of literals that are printed as numbers. A long is
printed as a text. -/
def numberKinds : List String :=
  ["byte", "short", "int", "float", "double"]

/-- Is a literal of the kind printed as a number? -/
def Json.IsNumberKind (kind : Json) : Prop :=
  ∃ word ∈ numberKinds, kind = .str word

/-- The names that the type itself refers to can be printed as such, and the
numbers that it holds are finite. -/
def Schema.SpellsPlainly (env : Environment) (generics : List String) :
    Schema → Prop
  | .reference path _ => ∀ target, env.target generics path = .ok target →
      IsTypeName (lastSegment target)
  | .dispatcher registry _ _ => ∀ key info,
      env.dispatcher registry = .ok (key, info) → IsTypeName info.tableName
  | .literal kind value _ => kind.IsNumberKind → value.IsFiniteNumber
  | .enum kind values _ => kind.IsNumberKind →
      ∀ v ∈ values, Attribute.isGone v.attributes = false →
      v.value.IsFiniteNumber
  | _ => True

/-- The type and all that stands in it spell plainly. -/
def Schema.IsReadable (env : Environment) (generics : List String)
    (type : Schema) : Prop :=
  ∀ part, type.HasPart part → part.SpellsPlainly env generics

section Parts

variable {env : Environment} {generics : List String} {type : Schema}

theorem Schema.IsReadable.self (h : type.IsReadable env generics) :
    type.SpellsPlainly env generics :=
  h type .refl

theorem Schema.IsReadable.child (h : type.IsReadable env generics)
    {child : Schema} (hchild : type.HasChild child) :
    child.IsReadable env generics :=
  fun part hpart => h part (.head hchild hpart)

theorem Schema.isReadable_of_children (hself : type.SpellsPlainly env generics)
    (hchildren : ∀ child, type.HasChild child → child.IsReadable env generics) :
    type.IsReadable env generics := by
  intro part hpart
  rcases hpart.cases_head with rfl | ⟨child, hchild, hpart⟩
  · exact hself
  · exact hchildren child hchild part hpart

end Parts

namespace TypeExpr

theorem isReadable_ofValue (v : Json) : (ofValue v).IsReadable := by
  rw [ofValue.eq_def]
  split
  · exact .text _
  · exact .misfit _

theorem isReadable_named {name : String} (h : IsTypeName name) :
    (named name).IsReadable :=
  .reference h (by simp)

theorem isReadable_applied {name : String} {arg : TypeExpr}
    (hname : IsTypeName name) (harg : arg.IsReadable) :
    (TypeExpr.reference name [arg]).IsReadable :=
  .reference hname (by simpa using harg)

theorem isReadable_appliedPair {name : String} {t u : TypeExpr}
    (hname : IsTypeName name) (ht : t.IsReadable)
    (hu : u.IsReadable) : (TypeExpr.reference name [t, u]).IsReadable :=
  .reference hname
    (List.forall_mem_cons.mpr ⟨ht, List.forall_mem_singleton.mpr hu⟩)

theorem isReadable_string : string.IsReadable :=
  .keyword (by decide)

theorem isReadable_templates :
    someText.IsReadable ∧ identifierText.IsReadable ∧ tagText.IsReadable := by
  have hall : ∀ e ∈ templateTexts, e.1.IsReadable := fun e he => .template he
  simpa [templateTexts] using hall

theorem isReadable_noProperties : noProperties.IsReadable :=
  isReadable_appliedPair (by decide) isReadable_string (.keyword (by decide))

theorem isReadable_openRecord : openRecord.IsReadable :=
  isReadable_appliedPair (by decide) isReadable_string (.keyword (by decide))

theorem isReadable_pair {t u : TypeExpr} (ht : t.IsReadable)
    (hu : u.IsReadable) : (TypeExpr.union [t, u]).IsReadable :=
  .union (List.forall_mem_cons.mpr ⟨ht, List.forall_mem_singleton.mpr hu⟩)

theorem isReadable_anyOf {ts : List TypeExpr} (h : ∀ t ∈ ts, t.IsReadable) :
    (anyOf ts).IsReadable := by
  match ts, h with
  | [], _ => exact .keyword (by decide)
  | [t], h => exact h t List.mem_cons_self
  | _ :: _ :: _, h => exact .union h

theorem isReadable_allOf {ts : List TypeExpr} (hsome : ts ≠ [])
    (h : ∀ t ∈ ts, t.IsReadable) :
    (allOf ts).IsReadable := by
  match ts, hsome, h with
  | [t], _, h => exact h t List.mem_cons_self
  | _ :: _ :: _, _, h => exact .intersection h

end TypeExpr

section Access

variable {base table key : TypeExpr}

/-- Each step indexes into a named type or into the step before it. -/
theorem isReadable_guardedPath (hbase : base.IsReadable)
    (hopen : base.isOperator = false) (keys : List Json) :
    (guardedPath base keys).IsReadable := by
  induction keys generalizing base with
  | nil => exact hbase
  | cons key rest ih =>
      have hkey := TypeExpr.isReadable_ofValue key
      exact .conditional hkey (.keyof hbase) (ih (.access hbase hopen hkey) rfl)
        TypeExpr.isReadable_openRecord

theorem isReadable_guardedAccess (htable : table.IsReadable)
    (hopen : table.isOperator = false) (hkey : key.IsReadable)
    (keys : List Json) : (guardedAccess table key keys).IsReadable := by
  have hbody : (guardedPath (.access table key) keys).IsReadable :=
    isReadable_guardedPath (.access htable hopen hkey) rfl keys
  rw [guardedAccess]
  split
  · exact hbody
  · exact .conditional hkey (.keyof htable) hbody TypeExpr.isReadable_openRecord

theorem isReadable_discriminator : discriminator.IsReadable :=
  TypeExpr.isReadable_named (by decide)

theorem DispatcherHead.isReadable_fill {info : DispatcherHead}
    {args : List TypeExpr} (hargs : ∀ t ∈ args, t.IsReadable) :
    ∀ t ∈ info.fill args, t.IsReadable := by
  intro t ht
  rcases List.mem_append.mp ht with ht | ht
  · exact hargs t ht
  · rw [List.eq_of_mem_replicate ht]
    exact .keyword (by decide)

theorem DispatcherHead.isReadable_access {info : DispatcherHead}
    {args : List TypeExpr} (hname : IsTypeName info.tableName)
    (hargs : ∀ t ∈ args, t.IsReadable) (index : IndexForm) (isRoot : Bool)
    (keys : List Json) : (info.access index isRoot args keys).1.IsReadable := by
  have hfill : ∀ t ∈ info.fill args, t.IsReadable := isReadable_fill hargs
  have htable :
      (TypeExpr.reference info.tableName (info.fill args)).IsReadable :=
    .reference hname hfill
  have hcase (case : String) : (TypeExpr.reference info.tableName
      (info.fill args ++ [.text case])).IsReadable := by
    refine .reference hname fun t ht => ?_
    rcases List.mem_append.mp ht with ht | ht
    · exact hfill t ht
    · rw [List.mem_singleton.mp ht]
      exact .text case
  have hfallback := isReadable_guardedPath (hcase "%fallback") rfl keys
  rw [access.eq_def]
  dsimp only
  split
  · split
    · exact hfallback
    · have hfound :=
        isReadable_guardedAccess htable rfl isReadable_discriminator keys
      dsimp only
      split
      · exact .conditional isReadable_discriminator (.keyword (by decide))
          (hcase "%none") hfound
      · exact hfound
  · rename_i value
    split
    · exact hfallback
    · exact isReadable_guardedAccess htable
        rfl (TypeExpr.isReadable_ofValue value) keys
  · exact isReadable_guardedAccess htable
      rfl (TypeExpr.isReadable_named (by decide)) keys

end Access

/-- What the part adds to its struct is readable. -/
structure Part.IsReadable (p : Part) : Prop where
  inherited : ∀ t, p.inheritedType? = some t → t.IsReadable
  property : ∀ q, p.property? = some q → q.type.IsReadable

section Structs

variable {parts : List Part} {ps : List Property}

theorem isReadable_composeParts (hparts : ∀ p ∈ parts, p.IsReadable)
    (hps : ∀ q ∈ ps, q.type.IsReadable) :
    (composeParts parts ps).IsReadable := by
  have haround (t : TypeExpr) (ht : t ∈ Part.inherited parts ∨
      t ∈ Part.merged parts) : t.IsReadable := by
    obtain ⟨p, hp, hinherited⟩ := Part.mem_inherited_or_merged.mp ht
    exact (hparts p hp).inherited t hinherited
  have hown : ∀ t ∈ (if ps.isEmpty then [] else [TypeExpr.object ps]),
      t.IsReadable := by
    split
    · simp
    · exact List.forall_mem_singleton.mpr (.object hps)
  rw [composeParts.eq_def]
  dsimp only
  split
  · exact TypeExpr.isReadable_noProperties
  · rename_i types hsome
    refine TypeExpr.isReadable_allOf hsome fun t ht => ?_
    rcases List.mem_append.mp ht with ht | ht
    · rcases List.mem_append.mp ht with ht | ht
      · exact haround t (Or.inl ht)
      · exact hown t ht
    · exact haround t (Or.inr ht)

/-- A union over the values of a property indexes into a mapped type. -/
theorem isReadable_structBody (hparts : ∀ p ∈ parts, p.IsReadable)
    (selector? : Option String) :
    (structBody parts selector?).IsReadable := by
  have hproperties : ∀ q ∈ Part.properties parts, q.type.IsReadable := by
    intro q hq
    obtain ⟨p, hp, hq⟩ := List.mem_filterMap.mp hq
    exact (hparts p hp).property q hq
  rw [structBody]
  split
  · rename_i values ps' hselected
    obtain ⟨name, -, hselected⟩ := Option.bind_eq_some_iff.mp hselected
    obtain ⟨before, q, behind, hps, -, rfl, rfl, -⟩ :=
      selectProperty_eq_some hselected
    rw [hps] at hproperties
    have hvalues : q.type.IsReadable := hproperties q (by simp)
    refine .access (.mapped (by decide) hvalues
      (isReadable_composeParts hparts fun r hr => ?_)) rfl hvalues
    rcases List.mem_append.mp hr with hr | hr
    · exact hproperties r (List.mem_append_left _ hr)
    · rcases List.mem_cons.mp hr with rfl | hr
      · rw [Property.type_withType]
        exact isReadable_discriminator
      · exact hproperties r
          (List.mem_append_right _ (List.mem_cons_of_mem _ hr))
  · exact isReadable_composeParts hparts hproperties

end Structs

namespace Range

theorem isReadable_entryType {v : Json} {t : TypeExpr} (h : entryType v = .ok t)
    (hv : isWholeBound v = .ok false → v.IsFiniteNumber) : t.IsReadable := by
  rw [entryType.eq_def] at h
  split at h
  · cases h
    exact .truth _
  · obtain ⟨isWhole, hwhole, h⟩ := bind_eq_ok_iff.mp h
    cases isWhole with
    | true =>
        obtain ⟨n, -, h⟩ := bind_eq_ok_iff.mp h
        cases h
        exact .number trivial
    | false =>
        cases h
        exact .number (hv hwhole)

theorem isReadable_objectOf {entries : List (String × Json)}
    {t : TypeExpr} (h : objectOf entries = .ok t)
    (hentries : ∀ e ∈ entries, isWholeBound e.2 = .ok false →
      e.2.IsFiniteNumber) : t.IsReadable := by
  obtain ⟨ps, hps, h⟩ := bind_eq_ok_iff.mp h
  obtain rfl := pure_eq_ok_iff.mp h
  refine .object fun q hq => ?_
  obtain ⟨e, he, hq⟩ := exists_of_mem_mapM hps hq
  obtain ⟨type, htype, hq⟩ := bind_eq_ok_iff.mp hq
  obtain rfl := pure_eq_ok_iff.mp hq
  exact isReadable_entryType htype (hentries e he)

/-- A bound that is spelled out is whole, and every other one is replaced
by a whole number. -/
theorem isFiniteNumber_of_wholeEntries {low high : Json}
    {entries : List (String × Json)} (h : wholeEntries low high = .ok entries) :
    ∀ e ∈ entries, isWholeBound e.2 = .ok false → e.2.IsFiniteNumber := by
  obtain ⟨spelled, hspelled, h⟩ := bind_eq_ok_iff.mp h
  cases spelled with
  | true =>
      obtain ⟨hlow, hhigh⟩ := isWholeBound_of_isSpelledOut hspelled
      cases h
      simp [hlow, hhigh]
  | false =>
      obtain ⟨atLeast, -, h⟩ := bind_eq_ok_iff.mp h
      cases atLeast with
      | true =>
          obtain ⟨_, -, h⟩ := bind_eq_ok_iff.mp h
          cases h
          simp [Json.IsFiniteNumber]
      | false =>
          obtain ⟨atMost, -, h⟩ := bind_eq_ok_iff.mp h
          cases atMost with
          | true =>
              obtain ⟨_, -, h⟩ := bind_eq_ok_iff.mp h
              cases h
              simp [Json.IsFiniteNumber]
          | false =>
              cases h
              simp

/-- What two branches have in common is done with the result of one of them. -/
theorem exists_of_branches {ε α β : Type} {p : Prop} [Decidable p]
    {x y : Except ε α} {f : α → Except ε β} {b : β}
    (h : (if p then x >>= f else y >>= f) = .ok b) : ∃ a, f a = .ok b := by
  split at h
  · obtain ⟨a, -, h⟩ := bind_eq_ok_iff.mp h
    exact ⟨a, h⟩
  · obtain ⟨a, -, h⟩ := bind_eq_ok_iff.mp h
    exact ⟨a, h⟩

theorem isFiniteNumber_of_boundedEntries {r : Range}
    {entries : List (String × Json)} (h : r.boundedEntries = .ok entries) :
    ∀ e ∈ entries, isWholeBound e.2 = .ok false → e.2.IsFiniteNumber := by
  have hflag (b : Bool) : isWholeBound (.bool b) = .ok true := by
    cases b <;> decide +kernel
  obtain ⟨spelled, hspelled, h⟩ := bind_eq_ok_iff.mp h
  cases spelled with
  | true =>
      obtain ⟨hlow, hhigh⟩ := isWholeBound_of_isSpelledOut hspelled
      obtain ⟨_, -, h⟩ := bind_eq_ok_iff.mp h
      obtain ⟨_, -, h⟩ := bind_eq_ok_iff.mp h
      cases h
      simp [hlow, hhigh, hflag]
  | false =>
      obtain ⟨atLeast, -, h⟩ := bind_eq_ok_iff.mp h
      cases atLeast with
      | true =>
          obtain ⟨_, -, h⟩ := bind_eq_ok_iff.mp h
          obtain ⟨exclusive, h⟩ := exists_of_branches h
          cases h
          simp [hflag, Json.ofNumber, Json.IsFiniteNumber]
      | false =>
          obtain ⟨atMost, -, h⟩ := bind_eq_ok_iff.mp h
          cases atMost with
          | true =>
              obtain ⟨_, -, h⟩ := bind_eq_ok_iff.mp h
              obtain ⟨exclusive, h⟩ := exists_of_branches h
              cases h
              simp [hflag, Json.ofNumber, Json.IsFiniteNumber]
          | false =>
              cases h
              simp

theorem isReadable_wholeArgument {r : Range} {t : TypeExpr} {docs : List String}
    (h : r.wholeArgument = .ok (t, docs)) : t.IsReadable := by
  obtain ⟨shown, -, h⟩ := bind_eq_ok_iff.mp h
  obtain ⟨low, -, h⟩ := bind_eq_ok_iff.mp h
  obtain ⟨omitsLow, -, h⟩ := bind_eq_ok_iff.mp h
  obtain ⟨lowDocs, h⟩ := exists_of_boundDocs h
  obtain ⟨high, -, h⟩ := bind_eq_ok_iff.mp h
  obtain ⟨omitsHigh, -, h⟩ := bind_eq_ok_iff.mp h
  obtain ⟨highDocs, h⟩ := exists_of_boundDocs h
  obtain ⟨entries, hentries, h⟩ := bind_eq_ok_iff.mp h
  obtain ⟨type, htype, h⟩ := bind_eq_ok_iff.mp h
  cases h
  exact isReadable_objectOf htype (isFiniteNumber_of_wholeEntries hentries)

theorem isReadable_boundsArgument {r : Range}
    {heading : String} {t : TypeExpr} {docs : List String}
    (h : r.boundsArgument heading = .ok (t, docs)) : t.IsReadable := by
  simp only [boundsArgument, bind_eq_ok_iff] at h
  obtain ⟨_, -, _, -, entries, hentries, type, htype, h⟩ := h
  cases h
  exact isReadable_objectOf htype (isFiniteNumber_of_boundedEntries hentries)

end Range

theorem isTypeName_of_mem_libraryNames :
    ∀ name ∈ libraryNames, IsTypeName name := by
  decide +kernel

theorem NumericKind.isTypeName_wholeName? {kind : NumericKind} {name : String}
    (h : kind.wholeName? = some name) :
    IsTypeName name := by
  cases kind <;> cases h <;> exact isTypeName_of_mem_libraryNames _ (by decide)

theorem ArrayKind.isTypeName_name (kind : ArrayKind) :
    IsTypeName kind.name := by
  cases kind <;> exact isTypeName_of_mem_libraryNames _ (by decide)

section Leaves

variable {env : Environment} {scope : Scope} {c : Compiled}

theorem Plan.isReadable_fixed {type : TypeExpr} {source : Option String}
    {docs : List String} (h : type.IsReadable)
    (hc : ((Plan.fixed type source docs).compile env scope).outcome = .ok c) :
    c.expr.IsReadable := by
  rw [Plan.compile] at hc
  cases hc
  exact h

theorem isReadable_fractional {kind : NumericKind} {args : List TypeExpr}
    (hargs : ∀ t ∈ args, t.IsReadable) :
    (if kind = .float then TypeExpr.reference
      (if kind = .float then "NBTFloat" else "NBTDouble") args
      else .union [.reference (if kind = .float then "NBTFloat"
        else "NBTDouble") args, .numeric]).IsReadable := by
  by_cases hkind : kind = .float
  · rw [if_pos hkind, if_pos hkind]
    exact .reference (by decide) hargs
  · rw [if_neg hkind, if_neg hkind]
    exact TypeExpr.isReadable_pair (.reference (by decide) hargs)
      (.keyword (by decide))

theorem Plan.isReadable_ofNumeric {kind : NumericKind} {range : Option Range}
    {plan : Plan} (hplan : Plan.ofNumeric kind range = .ok plan)
    (hc : (plan.compile env scope).outcome = .ok c) :
    c.expr.IsReadable := by
  rw [Plan.ofNumeric.eq_def] at hplan
  split at hplan
  · rename_i name hname
    have hname := NumericKind.isTypeName_wholeName? hname
    split at hplan
    · cases hplan
      exact Plan.isReadable_fixed (TypeExpr.isReadable_named hname) hc
    · obtain ⟨⟨generic, docs⟩, hgeneric, hplan⟩ := bind_eq_ok_iff.mp hplan
      cases hplan
      have hgeneric :=
        Range.isReadable_wholeArgument (liftMisuse_eq_ok_iff.mp hgeneric)
      exact Plan.isReadable_fixed
        (TypeExpr.isReadable_applied hname hgeneric) hc
  · dsimp only at hplan
    split at hplan
    · cases hplan
      exact Plan.isReadable_fixed (isReadable_fractional (by simp)) hc
    · obtain ⟨⟨generic, docs⟩, hgeneric, hplan⟩ := bind_eq_ok_iff.mp hplan
      cases hplan
      have hgeneric :=
        Range.isReadable_boundsArgument (liftMisuse_eq_ok_iff.mp hgeneric)
      refine Plan.isReadable_fixed (isReadable_fractional ?_) hc
      exact List.forall_mem_cons.mpr ⟨.keyword (by decide),
        List.forall_mem_singleton.mpr hgeneric⟩

theorem Plan.isReadable_ofArray {kind : ArrayKind} {range length : Option Range}
    {plan : Plan} (hplan : Plan.ofArray kind range length = .ok plan)
    (hc : (plan.compile env scope).outcome = .ok c) :
    c.expr.IsReadable := by
  rw [Plan.ofArray.eq_def] at hplan
  obtain ⟨rangeDocs, hplan⟩ := exists_of_rangeDocs hplan
  dsimp only at hplan
  split at hplan
  · cases hplan
    exact Plan.isReadable_fixed
      (TypeExpr.isReadable_named kind.isTypeName_name) hc
  · obtain ⟨⟨generic, docs⟩, hgeneric, hplan⟩ := bind_eq_ok_iff.mp hplan
    cases hplan
    have hgeneric :=
      Range.isReadable_boundsArgument (liftMisuse_eq_ok_iff.mp hgeneric)
    exact Plan.isReadable_fixed
      (TypeExpr.isReadable_applied kind.isTypeName_name hgeneric) hc

theorem isReadable_literalExpr {kind value : Json} {type : TypeExpr}
    {source : Option String} (h : literalExpr kind value = .ok (type, source))
    (hnumber : kind.IsNumberKind → value.IsFiniteNumber) :
    type.IsReadable := by
  obtain ⟨word?, hword, h⟩ := bind_eq_ok_iff.mp h
  have hword := liftMisuse_eq_ok_iff.mp hword
  split at h
  · cases h
  · cases h
    exact .truth _
  · cases h
    exact .text _
  · cases h
    exact .number (hnumber ⟨"int", by decide, eq_str_of_asKey? hword⟩)
  · cases h
    exact .number (hnumber ⟨"double", by decide, eq_str_of_asKey? hword⟩)
  · obtain ⟨whole, -, h⟩ := bind_eq_ok_iff.mp h
    cases h
    exact TypeExpr.isReadable_applied
      (isTypeName_of_mem_libraryNames _ (by decide)) (.text _)
  · split at h
    · rename_i word _ _ _ _ _ _ _ name hname
      cases h
      have hnames : ∀ e ∈ literalNames, e.1 ∈ numberKinds ∧
          e.2 ∈ libraryNames := by decide
      obtain ⟨hkind, hlibrary⟩ := hnames (word, name) (mem_of_lookup hname)
      have hvalue := hnumber ⟨word, hkind, eq_str_of_asKey? hword⟩
      exact TypeExpr.isReadable_applied
        (isTypeName_of_mem_libraryNames name hlibrary) (.number hvalue)
    · cases h

theorem isReadable_identifiersOf {registry : Json}
    {type : TypeExpr} {imports : Option ImportPaths}
    (h : identifiersOf env registry = .ok (type, imports)) :
    type.IsReadable := by
  obtain ⟨name, -, h⟩ := bind_eq_ok_iff.mp h
  split at h
  · cases h
    exact .access (TypeExpr.isReadable_named (by decide)) rfl (.text _)
  · cases h
    exact TypeExpr.isReadable_templates.2.1

theorem isReadable_compileIdentifier {registry tags : Json}
    (h : compileIdentifier env registry tags = .ok c) :
    c.expr.IsReadable := by
  obtain ⟨⟨type, imports⟩, htype, h⟩ := bind_eq_ok_iff.mp h
  have htype := isReadable_identifiersOf htype
  have htag := TypeExpr.isReadable_templates.2.2
  dsimp only at h
  split at h
  · cases h
    exact htag
  · split at h
    · cases h
      exact TypeExpr.isReadable_pair htype htag
    · cases h
      exact htype

theorem isReadable_translationKeyType :
    (translationKeyType env).expr.IsReadable := by
  rw [translationKeyType]
  split
  · exact TypeExpr.isReadable_applied (by decide)
      (TypeExpr.isReadable_named (by decide))
  · exact TypeExpr.isReadable_string

theorem isReadable_plainText (isSome : Bool) :
    (if isSome then TypeExpr.someText else TypeExpr.string).IsReadable := by
  cases isSome with
  | true => exact TypeExpr.isReadable_templates.1
  | false => exact TypeExpr.isReadable_string

theorem Plan.isReadable_ofString {length : Option Range}
    {attributes : List Attribute} {plan : Plan}
    (hplan : Plan.ofString length attributes = .ok plan)
    (hc : (plan.compile env scope).outcome = .ok c) :
    c.expr.IsReadable := by
  rw [Plan.ofString.eq_def] at hplan
  obtain ⟨docs, hplan⟩ := exists_of_rangeDocs hplan
  dsimp only at hplan
  split at hplan
  · obtain ⟨isSome, -, hplan⟩ := bind_eq_ok_iff.mp hplan
    cases hplan
    exact Plan.isReadable_fixed (isReadable_plainText isSome) hc
  · obtain ⟨name?, -, hplan⟩ := bind_eq_ok_iff.mp hplan
    split at hplan
    · split at hplan
      · cases hplan
        exact Plan.isReadable_fixed TypeExpr.isReadable_templates.2.1 hc
      · cases hplan
        rw [Plan.compile] at hc
        exact isReadable_compileIdentifier hc
    · cases hplan
      rw [Plan.compile] at hc
      cases hc
      exact isReadable_translationKeyType
    · split at hplan
      · cases hplan
        exact Plan.isReadable_fixed TypeExpr.isReadable_string hc
      · cases hplan

/-- The keys that a string stands for. -/
theorem isReadable_compileKey_ofString {length : Option Range}
    {attributes : List Attribute} {plan : KeyPlan}
    {keys : TypeExpr} {imports : Option ImportPaths}
    (hplan : KeyPlan.ofString length attributes = .ok plan)
    (hc : (Plan.compileKey env scope plan).outcome = .ok (keys, imports)) :
    keys.IsReadable := by
  rw [KeyPlan.ofString.eq_def] at hplan
  split at hplan
  · obtain ⟨isSome, -, hplan⟩ := bind_eq_ok_iff.mp hplan
    cases hplan
    cases hc
    exact isReadable_plainText isSome
  · obtain ⟨name?, -, hplan⟩ := bind_eq_ok_iff.mp hplan
    split at hplan
    · dsimp only at hplan
      split at hplan
      · cases hplan
        cases hc
        exact TypeExpr.isReadable_templates.1
      · cases hplan
        exact isReadable_identifiersOf hc
    · cases hplan
      cases hc
      exact TypeExpr.isReadable_applied (by decide)
        (TypeExpr.isReadable_named (by decide))
    · cases hplan
      cases hc
      exact TypeExpr.isReadable_pair TypeExpr.isReadable_string
        (TypeExpr.isReadable_named (by decide))
    · cases hplan
      cases hc
      exact TypeExpr.isReadable_named (by decide)
    · split at hplan
      · cases hplan
        cases hc
        exact TypeExpr.isReadable_string
      · cases hplan

theorem exists_of_mem_enumCases {values : List EnumValue}
    {cases : List EnumCase} (h : enumCases values = .ok cases) :
    ∀ case ∈ cases, ∃ v ∈ values, Attribute.isGone v.attributes = false ∧
      case.value = v.value := by
  induction values generalizing cases with
  | nil =>
      cases h
      simp
  | cons v rest ih =>
      rw [enumCases, bind_eq_ok_iff] at h
      obtain ⟨-, -, h⟩ := h
      obtain ⟨others, hothers, h⟩ := bind_eq_ok_iff.mp h
      have hlater : ∀ case ∈ others, ∃ w ∈ v :: rest,
          Attribute.isGone w.attributes = false ∧ case.value = w.value := by
        intro case hcase
        obtain ⟨w, hw, hfound⟩ := ih hothers case hcase
        exact ⟨w, List.mem_cons_of_mem _ hw, hfound⟩
      split at h
      · cases h
        exact hlater
      · rename_i hlive
        cases h
        exact List.forall_mem_cons.mpr
          ⟨⟨v, List.mem_cons_self, Bool.of_not_eq_true hlive, rfl⟩, hlater⟩

theorem isReadable_compileEnum {kind : Json}
    {values : List EnumValue} {cases : List EnumCase}
    (hcases : enumCases values = .ok cases) (h : compileEnum kind cases = .ok c)
    (hvalues : kind.IsNumberKind → ∀ v ∈ values,
      Attribute.isGone v.attributes = false → v.value.IsFiniteNumber) :
    c.expr.IsReadable := by
  obtain ⟨compiled, hcompiled, h⟩ := bind_eq_ok_iff.mp h
  obtain rfl := pure_eq_ok_iff.mp h
  refine TypeExpr.isReadable_anyOf (List.forall_mem_map.mpr fun e he => ?_)
  obtain ⟨case, hcase, he⟩ := exists_of_mem_mapM hcompiled he
  obtain ⟨v, hv, hlive, hvalue⟩ := exists_of_mem_enumCases hcases case hcase
  obtain ⟨⟨type, source⟩, htype, he⟩ := bind_eq_ok_iff.mp he
  have htype :=
    isReadable_literalExpr htype fun hkind => hvalue ▸ hvalues hkind v hv hlive
  dsimp only at he
  split at he
  · obtain ⟨description, -, he⟩ := bind_eq_ok_iff.mp he
    cases he
    exact htype
  · cases he
    exact htype

theorem Compiles.isReadable_of_isLeaf {type : Schema} {plan : Plan}
    (hleaf : type.isLeaf = true) (hplan : Plan.ofBody type = .ok plan)
    (hc : (plan.compile env scope).outcome = .ok c)
    (hplain : type.SpellsPlainly env scope.generics) : c.expr.IsReadable := by
  cases type with
  | any attributes =>
      cases hplan
      exact Plan.isReadable_fixed (.keyword (by decide)) hc
  | unchecked attributes =>
      cases hplan
      exact Plan.isReadable_fixed (.keyword (by decide)) hc
  | boolean attributes =>
      cases hplan
      exact Plan.isReadable_fixed (.keyword (by decide)) hc
  | string length attributes =>
      rw [Plan.ofBody] at hplan
      exact Plan.isReadable_ofString hplan hc
  | numeric kind range attributes =>
      rw [Plan.ofBody] at hplan
      exact Plan.isReadable_ofNumeric hplan hc
  | array kind range length attributes =>
      rw [Plan.ofBody] at hplan
      exact Plan.isReadable_ofArray hplan hc
  | enum kind values attributes =>
      rw [Plan.ofBody, bind_eq_ok_iff] at hplan
      obtain ⟨cases, hcases, hplan⟩ := hplan
      cases hplan
      rw [Plan.compile] at hc
      exact isReadable_compileEnum hcases hc hplain
  | literal kind value attributes =>
      rw [Plan.ofBody, bind_eq_ok_iff] at hplan
      obtain ⟨⟨type, source⟩, htype, hplan⟩ := hplan
      cases hplan
      exact Plan.isReadable_fixed (isReadable_literalExpr htype hplain) hc
  | _ => cases hleaf

end Leaves

section Run

variable {env : Environment} {scope : Scope} {c : Compiled}

theorem isReadable_compileReference {path : Json} {attributes : List Attribute}
    (h : compileReference env scope path = .ok c)
    (hplain : (Schema.reference path attributes).SpellsPlainly env
      scope.generics)
    (hargs : ∀ t ∈ scope.args, t.IsReadable) : c.expr.IsReadable := by
  obtain ⟨target, htarget, rfl⟩ := compileReference_eq_ok h
  exact .reference (hplain target htarget) hargs

theorem isReadable_compileDispatcher {registry : Json} {indices : List Index}
    {attributes : List Attribute} {index : IndexForm} {keys : List Json}
    (h : (compileDispatcher env scope registry index keys).outcome = .ok c)
    (hplain : (Schema.dispatcher registry indices attributes).SpellsPlainly env
      scope.generics)
    (hargs : ∀ t ∈ scope.args, t.IsReadable) : c.expr.IsReadable := by
  obtain ⟨key, info, hinfo, rfl⟩ := compileDispatcher_eq_ok h
  exact info.isReadable_access (hplain key info hinfo) hargs index
    scope.isRoot keys

theorem isReadable_compileList {item : Compiled}
    {length : Option Range} (hitem : item.expr.IsReadable)
    (h : compileList scope item length = .ok c) : c.expr.IsReadable := by
  obtain ⟨-, -, ⟨htype, -⟩ | ⟨range, generic, docs, hgeneric, htype, -⟩⟩ :=
    compileList_eq_ok h
  · rw [Compiled.expr, htype]
    exact TypeExpr.isReadable_applied (by decide) hitem
  · rw [Compiled.expr, htype]
    exact TypeExpr.isReadable_appliedPair (by decide) hitem
      (Range.isReadable_boundsArgument hgeneric)

theorem isReadable_compileUnion {cs : List Compiled}
    (h : ∀ c ∈ cs, c.expr.IsReadable) :
    (compileUnion cs).expr.IsReadable := by
  match cs, h with
  | [], _ => exact .keyword (by decide)
  | [one], h => exact h one List.mem_cons_self
  | _ :: _ :: _, h => exact .union (List.forall_mem_map.mpr h)

mutual

/-- Away from the root a type compiles to an expression that
can be read back. -/
theorem Compiles.isReadable : ∀ {scope : Scope} {type : Schema} {c : Compiled},
    Compiles env scope type c →
    scope.isRoot = false → (∀ t ∈ scope.args, t.IsReadable) →
    type.IsReadable env scope.generics → c.expr.IsReadable
  | _, _, _, .leaf hleaf hplan hc, _, _, hplain =>
      Compiles.isReadable_of_isLeaf hleaf hplan hc hplain.self
  | _, _, _, .reference hc, _, hargs, hplain =>
      isReadable_compileReference hc hplain.self hargs
  | _, _, _, .concrete hmembers hc, _, _, hplain => by
      have hall := CompilesAll.isReadable hmembers rfl rfl fun arg harg =>
        hplain.child (.argument harg)
      have hchild := isReadable_compileReference hc (hplain.child .generic).self
        (List.forall_mem_map.mpr hall)
      exact hchild
  | _, _, _, .template hroot' _ _ _, hroot, _, _ => by
      rw [hroot] at hroot'
      cases hroot'
  | _, _, _, .list hitem hc, _, _, hplain => by
      have hinner := Compiles.isReadable hitem rfl (by simp [Scope.nested])
        (hplain.child .item)
      exact isReadable_compileList hinner hc
  | _, _, _, .union hmembers, _, _, hplain =>
      isReadable_compileUnion
        (CompilesAll.isReadable hmembers rfl rfl fun member hmember =>
        hplain.child (.member (List.mem_of_mem_filter hmember)
          (List.of_mem_filter hmember)))
  | _, _, _, .tuple hitems, _, _, hplain =>
      .tuple (List.forall_mem_map.mpr (CompilesAll.isReadable hitems rfl rfl
        fun item hitem =>
        hplain.child
          (.element (List.mem_of_mem_filter hitem) (List.of_mem_filter hitem))))
  | _, _, _, .struct hfields hc, _, _, hplain => by
      obtain ⟨⟨selector?, -, hbody⟩, -⟩ := composeStruct_eq_ok hc
      rw [hbody]
      exact isReadable_structBody
        (CompilesFields.isReadable hfields fun field hfield hlive =>
        ⟨hplain.child (.fieldType hfield hlive),
          fun key hkey => hplain.child (.fieldKey hfield hlive hkey)⟩) selector?
  | _, _, _, .dispatcher _ hc, _, hargs, hplain =>
      isReadable_compileDispatcher hc hplain.self hargs
  | _, _, _, .indexed _ _ hc, _, hargs, hplain =>
      isReadable_compileDispatcher hc (hplain.child .accessed).self hargs

theorem CompilesAll.isReadable :
    ∀ {scope : Scope} {types : List Schema} {cs : List Compiled},
    CompilesAll env scope types cs → scope.isRoot = false → scope.args = [] →
      (∀ type ∈ types, type.IsReadable env scope.generics) →
      ∀ c ∈ cs, c.expr.IsReadable
  | _, _, _, .nil, _, _, _ => by simp
  | _, _, _, .cons htype hrest, hroot, hargs, hplain => by
      rw [List.forall_mem_cons] at hplain
      have hhead := Compiles.isReadable htype hroot (by simp [hargs]) hplain.1
      exact List.forall_mem_cons.mpr ⟨hhead,
        CompilesAll.isReadable hrest hroot hargs hplain.2⟩

theorem CompilesFields.isReadable :
    ∀ {scope : Scope} {fields : List Field} {parts : List Part},
    CompilesFields env scope fields parts →
      (∀ field ∈ fields, field.isLive = true →
        field.type.IsReadable env scope.generics ∧
        ∀ key, field.keyType? = some key → key.IsReadable env scope.generics) →
      ∀ p ∈ parts, p.IsReadable
  | _, _, _, .nil, _ => by simp
  | _, _, _, .gone _ hrest, hplain =>
      CompilesFields.isReadable hrest (List.forall_mem_cons.mp hplain).2
  | _, _, _, .own hlive hvalue _ hrest, hplain => by
      rw [List.forall_mem_cons] at hplain
      have hhead := Compiles.isReadable hvalue rfl (by simp [Scope.nested])
        (hplain.1 hlive).1
      refine List.forall_mem_cons.mpr ⟨⟨?_, ?_⟩,
        CompilesFields.isReadable hrest hplain.2⟩
      · rintro _ ⟨⟩
      · rintro _ ⟨⟩
        exact hhead
  | _, _, _, .mapped hlive hkey hvalue hrest, hplain => by
      rw [List.forall_mem_cons] at hplain
      have hhead := Compiles.isReadable hvalue rfl (by simp [Scope.nested])
        (hplain.1 hlive).1
      have hkeys := CompilesKey.isReadable hkey ((hplain.1 hlive).2 _ rfl)
      refine List.forall_mem_cons.mpr ⟨⟨?_, ?_⟩,
        CompilesFields.isReadable hrest hplain.2⟩
      · rintro _ ⟨⟩
        exact .mapped (by decide) hkeys hhead
      · rintro _ ⟨⟩
  | _, _, _, .spread hlive hvalue hrest, hplain => by
      rw [List.forall_mem_cons] at hplain
      have hhead := Compiles.isReadable hvalue rfl (by simp [Scope.nested])
        (hplain.1 hlive).1
      refine List.forall_mem_cons.mpr ⟨⟨?_, ?_⟩,
        CompilesFields.isReadable hrest hplain.2⟩
      · rintro _ ⟨⟩
        exact hhead
      · rintro _ ⟨⟩

theorem CompilesKey.isReadable : ∀ {scope : Scope} {type : Schema}
    {keys : TypeExpr} {imports : Option ImportPaths},
    CompilesKey env scope type keys imports →
      type.IsReadable env scope.generics → keys.IsReadable
  | _, _, _, _, .string hplan hc, _ => isReadable_compileKey_ofString hplan hc
  | _, _, _, _, .computed htype, hplain =>
      Compiles.isReadable htype rfl (by simp [Scope.nested]) hplain

end

end Run

/-- The expression comes from compiling a type away from the root: a type whose
names are words without a meaning of their own and whose numbers are finite,
applied to type arguments that come from compiling such types too. -/
inductive TypeExpr.IsProduced : TypeExpr → Prop where
  | intro {env : Environment} {scope : Scope} {type : Schema} {c : Compiled}
      (hroot : scope.isRoot = false) (hargs : ∀ t ∈ scope.args, t.IsProduced)
      (hplain : type.IsReadable env scope.generics)
      (hc : (type.compile env scope).outcome = .ok c) : IsProduced c.expr

theorem TypeExpr.IsProduced.isReadable {t : TypeExpr} (h : t.IsProduced) :
    t.IsReadable := by
  induction h with
  | intro hroot _ hplain hc ih =>
      exact (Schema.compile_sound hc).isReadable hroot ih hplain

/-- Two expressions that print alike are alike. They may differ in their docs,
and in whether a whole number is held as such or as a fraction, but in nothing
else: no union and no intersection of a single member is ever produced. -/
theorem TypeExpr.bare_eq_of_print_eq {t u : TypeExpr}
    {text : String} (ht : t.IsProduced) (hu : u.IsProduced)
    (htext : t.print = .ok text) (hutext : u.print = .ok text) :
    t.bare = u.bare :=
  ht.isReadable.bare_eq hu.isReadable htext hutext

/-- A list of threes and a generic type that is applied to the
number print alike. -/
theorem TypeExpr.bare_eq_of_print_eq_array :
    let list : Schema := .list (.literal (.str "int") (.int 3) []) none []
    let generic : Schema :=
      .concrete (.reference (.str "::java::util::Array") [])
      [.literal (.str "double")
        (.double (.finite false 6755399441055744 (-51))) []] []
    ∃ c c', (list.compile {} {}).outcome = .ok c ∧
      (generic.compile {} {}).outcome = .ok c' ∧
      c.expr.print = .ok "Array<3>" ∧ c'.expr.print = .ok "Array<3>" ∧
      c.expr.bare = c'.expr.bare := by
  intro list generic
  have hlist : list.IsReadable {} [] := by
    change (Schema.list _ _ _).IsReadable {} []
    refine Schema.isReadable_of_children trivial fun child hchild => ?_
    cases hchild
    refine Schema.isReadable_of_children (fun _ => trivial)
      fun child hchild => ?_
    cases hchild
  have hgeneric : generic.IsReadable {} [] := by
    change (Schema.concrete (.reference _ _) [_] _).IsReadable {} []
    refine Schema.isReadable_of_children trivial fun child hchild => ?_
    cases hchild with
    | generic =>
        refine Schema.isReadable_of_children ?_ fun child hchild => ?_
        · rintro target ⟨⟩
          decide +kernel
        · cases hchild
    | argument hmem =>
        obtain rfl := List.mem_singleton.mp hmem
        refine Schema.isReadable_of_children (fun _ => ?_)
          fun child hchild => ?_
        · change Binary64.Fits _ _
          decide +kernel
        · cases hchild
  obtain ⟨c, hc, hprint⟩ : ∃ c, (list.compile {} {}).outcome = .ok c ∧
      c.expr.print = .ok "Array<3>" :=
    ⟨_, rfl, by decide +kernel⟩
  obtain ⟨c', hc', hprint'⟩ : ∃ c, (generic.compile {} {}).outcome = .ok c ∧
      c.expr.print = .ok "Array<3>" :=
    ⟨_, rfl, by decide +kernel⟩
  refine ⟨c, c', hc, hc', hprint, hprint', ?_⟩
  exact bare_eq_of_print_eq (.intro rfl (by simp) hlist hc)
    (.intro rfl (by simp) hgeneric hc') hprint hprint'

end Typings
