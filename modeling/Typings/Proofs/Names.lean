import Typings.Compiled.Struct
import Mathlib.Data.List.Basic

/-!
The names that a type expression refers to. A mapped type `[S in Keys]: Value`
binds its key in the value and nowhere else; counted with `hide`, a name that is
bound like this is left out.
-/

namespace Typings

/-- The names that are left of those in the value of a mapped type. -/
def outsideKey (hide : Bool) (key : String) (names : List String) :
    List String :=
  if hide then names.filter (· != key) else names

mutual

/-- The names of the references in a type expression, with or
without the bound ones. -/
def TypeExpr.namesWith (hide : Bool) : TypeExpr → List String
  | .keyword _ => []
  | .reference name args => name :: namesWithAll hide args
  | .text _ => []
  | .misfit _ => []
  | .number _ => []
  | .truth _ => []
  | .union members => namesWithAll hide members
  | .intersection members => namesWithAll hide members
  | .object members => namesWithProperties hide members
  | .mapped key keys value _ none =>
    keys.namesWith hide ++ outsideKey hide key (value.namesWith hide)
  | .mapped key keys value _ (some name) =>
    keys.namesWith hide ++ outsideKey hide key (value.namesWith hide) ++
      name.namesWith hide
  | .access base index => base.namesWith hide ++ index.namesWith hide
  | .conditional check bound yes no _ =>
    check.namesWith hide ++ bound.namesWith hide ++ yes.namesWith hide ++
      no.namesWith hide
  | .operator _ operand => operand.namesWith hide
  | .template _ spans => namesWithSpans hide spans
  | .optional element => element.namesWith hide
  | .tuple elements => namesWithAll hide elements

def TypeExpr.namesWithAll (hide : Bool) : List TypeExpr → List String
  | [] => []
  | t :: rest => t.namesWith hide ++ namesWithAll hide rest

def TypeExpr.namesWithProperties (hide : Bool) : List Property → List String
  | [] => []
  | .mk _ type _ _ :: rest =>
      type.namesWith hide ++ namesWithProperties hide rest

/-- The names inside a template literal. -/
def TypeExpr.namesWithSpans (hide : Bool) : List Span → List String
  | [] => []
  | .mk type _ :: rest => type.namesWith hide ++ namesWithSpans hide rest

end

-- The equations of so many constructors take a while. Made here, they are there
-- for all lemmas below.
attribute [local simp] TypeExpr.namesWith TypeExpr.namesWithAll

namespace TypeExpr

/-- Every name that the expression refers to. -/
abbrev names (t : TypeExpr) : List String :=
  t.namesWith false

/-- The names that no mapped type around them binds. -/
abbrev freeNames (t : TypeExpr) : List String :=
  t.namesWith true

variable {hide : Bool} {n : String}

theorem namesWithAll_eq (ts : List TypeExpr) :
    namesWithAll hide ts = ts.flatMap (namesWith hide) := by
  induction ts with
  | nil => rfl
  | cons t rest ih => rw [namesWithAll, ih, List.flatMap_cons]

theorem namesWithProperties_eq (ps : List Property) :
    namesWithProperties hide ps = ps.flatMap fun p =>
      p.type.namesWith hide := by
  induction ps with
  | nil => rfl
  | cons p rest ih =>
      cases p
      rw [namesWithProperties, ih, List.flatMap_cons, Property.type]

theorem mem_outsideKey {key : String} {names : List String} :
    n ∈ outsideKey hide key names ↔ n ∈ names ∧ (hide = true → n ≠ key) := by
  rw [outsideKey]
  cases hide <;> simp

@[simp] theorem namesWith_named (name : String) :
    (named name).namesWith hide = [name] := rfl

@[simp] theorem namesWith_ofValue (v : Json) :
    (ofValue v).namesWith hide = [] := by
  cases v <;> rfl

@[simp] theorem namesWith_openRecord :
    openRecord.namesWith hide = ["Record"] := rfl

@[simp] theorem namesWith_keyof (t : TypeExpr) :
    t.keyof.namesWith hide = t.namesWith hide := rfl

theorem mem_namesWith_reference {name : String} {args : List TypeExpr} :
    n ∈ (reference name args).namesWith hide ↔
      n = name ∨ ∃ t ∈ args, n ∈ t.namesWith hide := by
  rw [namesWith, namesWithAll_eq, List.mem_cons, List.mem_flatMap]

theorem mem_namesWith_anyOf {ts : List TypeExpr} :
    n ∈ (anyOf ts).namesWith hide ↔ ∃ t ∈ ts, n ∈ t.namesWith hide := by
  match ts with
  | [] => simp [anyOf, never]
  | [t] => simp [anyOf]
  | t :: u :: rest =>
      change n ∈ (TypeExpr.union (t :: u :: rest)).namesWith hide ↔ _
      rw [namesWith, namesWithAll_eq, List.mem_flatMap]

theorem mem_namesWith_allOf {ts : List TypeExpr} :
    n ∈ (allOf ts).namesWith hide ↔ ∃ t ∈ ts, n ∈ t.namesWith hide := by
  match ts with
  | [] => simp [allOf]
  | [t] => simp [allOf]
  | t :: u :: rest =>
      change n ∈ (TypeExpr.intersection (t :: u :: rest)).namesWith hide ↔ _
      rw [namesWith, namesWithAll_eq, List.mem_flatMap]

theorem mem_namesWith_guardedPath {base : TypeExpr} {keys : List Json} :
    n ∈ (guardedPath base keys).namesWith hide ↔
      n ∈ base.namesWith hide ∨ n = "Record" ∧ keys ≠ [] := by
  induction keys generalizing base with
  | nil => simp [guardedPath]
  | cons key rest ih =>
      simp only [guardedPath, namesWith, namesWith_ofValue, namesWith_keyof,
        namesWith_openRecord, List.nil_append, List.append_nil,
        List.mem_append, ih,
        List.mem_singleton]
      tauto

theorem mem_namesWith_guardedAccess {table key : TypeExpr} {keys : List Json} :
    n ∈ (guardedAccess table key keys).namesWith hide ↔
      n ∈ table.namesWith hide ∨ n ∈ key.namesWith hide ∨
        n = "Record" ∧ (keys ≠ [] ∨ key.isLiteral = false) := by
  rw [guardedAccess]
  split
  · rename_i hliteral
    simp only [mem_namesWith_guardedPath, namesWith, List.mem_append, hliteral]
    tauto
  · rename_i hliteral
    simp only [namesWith, namesWith_keyof, namesWith_openRecord,
      List.mem_append, mem_namesWith_guardedPath, List.mem_singleton, hliteral]
    tauto

theorem namesWith_fill (info : DispatcherHead) :
    namesWithAll hide (info.fill []) = [] := by
  simp [DispatcherHead.fill, namesWithAll_eq, List.flatMap_replicate, unknown]

theorem namesWithAll_append {ts us : List TypeExpr} :
    namesWithAll hide (ts ++ us) =
      namesWithAll hide ts ++ namesWithAll hide us := by
  simp only [namesWithAll_eq, List.flatMap_append]

/-- An index without type arguments names the table, and the key
that it looks up. -/
theorem mem_namesWith_access {info : DispatcherHead} {index : IndexForm}
    {isRoot : Bool} {keys : List Json} (hn : n ≠ "Record") :
    n ∈ (info.access index isRoot [] keys).1.namesWith hide ↔
      n = info.tableName ∨
        n = "S" ∧ isRoot = false ∧
          (∃ parents property, index = .dynamic parents property) ∨
          n = "Key" ∧ index = .mapKey := by
  cases index with
  | dynamic parents property =>
      cases isRoot with
      | true =>
          simp [DispatcherHead.access, mem_namesWith_guardedPath,
            namesWithAll_append, namesWith_fill, fallbackCase, hn]
      | false =>
          by_cases habsent : info.hasAbsent = true
          · simp [DispatcherHead.access,
              mem_namesWith_guardedAccess, namesWithAll_append,
              namesWith_fill, noneCase, discriminator, undefined, hn, habsent]
            tauto
          · simp [DispatcherHead.access, mem_namesWith_guardedAccess,
              namesWith_fill, discriminator, hn, habsent]
  | static value =>
      cases hfallback : value.isText "%fallback" <;>
        simp [DispatcherHead.access,
          mem_namesWith_guardedPath, mem_namesWith_guardedAccess,
          namesWithAll_append, namesWith_fill, fallbackCase, hn, hfallback]
  | mapKey =>
      simp [DispatcherHead.access, mem_namesWith_guardedAccess,
        namesWith_fill, hn]

end TypeExpr

namespace Part

variable {hide : Bool} {n : String}

/-- The names in what a part adds to its struct. -/
def namesWith (hide : Bool) : Part → List String
  | own _ _ _ v => v.expr.namesWith hide
  | mapped keys _ v =>
      keys.namesWith hide ++ outsideKey hide "Key" (v.expr.namesWith hide)
  | spread v => v.expr.namesWith hide

theorem namesWith_of_inheritedType? {p : Part} {t : TypeExpr}
    (h : p.inheritedType? = some t) :
    p.namesWith hide = t.namesWith hide := by
  cases p <;> cases h <;> rfl

theorem namesWith_of_property? {p : Part} {q : Property}
    (h : p.property? = some q) :
    p.namesWith hide = q.type.namesWith hide := by
  cases p <;> cases h
  rfl

theorem inheritedType?_or_property? (p : Part) :
    (∃ t, p.inheritedType? = some t) ∨ ∃ q, p.property? = some q := by
  cases p with
  | own key optional docs v => exact Or.inr ⟨_, rfl⟩
  | mapped keys imports v => exact Or.inl ⟨_, rfl⟩
  | spread v => exact Or.inl ⟨_, rfl⟩

/-- Every dynamic field and every spread has its place before or
behind the fixed keys. -/
theorem mem_inherited_or_merged {parts : List Part} {t : TypeExpr} :
    t ∈ inherited parts ∨ t ∈ merged parts ↔
      ∃ p ∈ parts, p.inheritedType? = some t := by
  have hsplit : ∀ p : Part, p.inheritedType? = some t ↔
      p.mappedType? = some t ∨ p.spreadType? = some t := by
    intro p
    cases p <;> simp [inheritedType?, mappedType?, spreadType?]
  have hparts : parts = front parts ++ back parts :=
    List.takeWhile_append_dropWhile.symm
  rw [inherited, merged, List.mem_append, List.mem_filterMap,
    List.mem_filterMap, List.mem_filterMap]
  constructor
  · rintro ((⟨p, hp, ht⟩ | ⟨p, hp, ht⟩) | ⟨p, hp, ht⟩)
    · exact ⟨p, hparts ▸ List.mem_append_left _ hp, ht⟩
    · exact ⟨p, hparts ▸ List.mem_append_right _ hp, (hsplit p).mpr (Or.inl ht)⟩
    · exact ⟨p, hparts ▸ List.mem_append_right _ hp, (hsplit p).mpr (Or.inr ht)⟩
  · rintro ⟨p, hp, ht⟩
    rw [hparts, List.mem_append] at hp
    rcases hp with hfront | hback
    · exact Or.inl (Or.inl ⟨p, hfront, ht⟩)
    · rcases (hsplit p).mp ht with hmapped | hspread
      · exact Or.inl (Or.inr ⟨p, hback, hmapped⟩)
      · exact Or.inr ⟨p, hback, hspread⟩

end Part

section Structs

variable {hide : Bool} {n : String} {parts : List Part} {ps : List Property}

/-- The object of the fixed keys, if there are any. -/
theorem mem_namesWith_own :
    (∃ t ∈ (if ps.isEmpty then [] else [TypeExpr.object ps]),
        n ∈ t.namesWith hide) ↔
      ∃ q ∈ ps, n ∈ q.type.namesWith hide := by
  cases ps with
  | nil => simp
  | cons q rest => simp [TypeExpr.namesWithProperties_eq]

theorem mem_namesWith_composeParts :
    n ∈ (composeParts parts ps).namesWith hide ↔
      (∃ p ∈ parts, ∃ t, p.inheritedType? = some t ∧ n ∈ t.namesWith hide) ∨
        (∃ q ∈ ps, n ∈ q.type.namesWith hide) ∨
          n = "Record" ∧ (∀ p ∈ parts, p.inheritedType? = none) ∧ ps = [] := by
  have haround :
      (∃ p ∈ parts, ∃ t, p.inheritedType? = some t ∧ n ∈ t.namesWith hide) ↔
      (∃ t ∈ Part.inherited parts, n ∈ t.namesWith hide) ∨
        ∃ t ∈ Part.merged parts, n ∈ t.namesWith hide := by
    constructor
    · rintro ⟨p, hp, t, ht, hn⟩
      rcases Part.mem_inherited_or_merged.mpr ⟨p, hp, ht⟩ with hmem | hmem
      · exact Or.inl ⟨t, hmem, hn⟩
      · exact Or.inr ⟨t, hmem, hn⟩
    · rintro (⟨t, hmem, hn⟩ | ⟨t, hmem, hn⟩)
      · obtain ⟨p, hp, ht⟩ := Part.mem_inherited_or_merged.mp (Or.inl hmem)
        exact ⟨p, hp, t, ht, hn⟩
      · obtain ⟨p, hp, ht⟩ := Part.mem_inherited_or_merged.mp (Or.inr hmem)
        exact ⟨p, hp, t, ht, hn⟩
  rw [haround, ← mem_namesWith_own, composeParts]
  split
  · rename_i hnil
    obtain ⟨⟨hinherited, hown⟩, hmerged⟩ : (Part.inherited parts = [] ∧
        (if ps.isEmpty then [] else [TypeExpr.object ps]) = []) ∧
        Part.merged parts = [] := by
      simpa only [List.append_eq_nil_iff] using hnil
    have hparts : ∀ p ∈ parts, p.inheritedType? = none := by
      intro p hp
      cases ht : p.inheritedType? with
      | none => rfl
      | some t =>
          have hmem := Part.mem_inherited_or_merged.mpr ⟨p, hp, ht⟩
          simp [hinherited, hmerged] at hmem
    have hps : ps = [] := by
      cases ps with
      | nil => rfl
      | cons q rest => simp at hown
    simp only [hinherited, hmerged, hps, TypeExpr.noProperties,
      TypeExpr.namesWith, TypeExpr.namesWithAll, TypeExpr.string,
      TypeExpr.never, List.append_nil, List.mem_singleton]
    simpa using fun _ => hparts
  · rename_i hne
    have hnot : ¬ (n = "Record" ∧ (∀ p ∈ parts, p.inheritedType? = none) ∧
        ps = []) := by
      rintro ⟨-, hparts, rfl⟩
      have hnone :
          ∀ t, ¬ (t ∈ Part.inherited parts ∨ t ∈ Part.merged parts) := by
        intro t hmem
        obtain ⟨p, hp, ht⟩ := Part.mem_inherited_or_merged.mp hmem
        rw [hparts p hp] at ht
        cases ht
      apply hne
      simp only [not_or, ← List.eq_nil_iff_forall_not_mem, forall_and] at hnone
      simp [hnone.1, hnone.2]
    rw [TypeExpr.mem_namesWith_allOf]
    simp only [List.mem_append, or_and_right, exists_or, hnot, or_false]
    exact or_right_comm

theorem exists_mem_properties {P : Property → Prop} :
    (∃ q ∈ Part.properties parts, P q) ↔
      ∃ p ∈ parts, ∃ q, p.property? = some q ∧ P q := by
  simp only [Part.properties, List.mem_filterMap]
  constructor
  · rintro ⟨q, ⟨p, hp, hq⟩, hP⟩
    exact ⟨p, hp, q, hq, hP⟩
  · rintro ⟨p, hp, q, hq, hP⟩
    exact ⟨q, ⟨p, hp, hq⟩, hP⟩

theorem exists_mem_namesWith_iff :
    (∃ p ∈ parts, n ∈ p.namesWith hide) ↔
      (∃ p ∈ parts, ∃ t, p.inheritedType? = some t ∧ n ∈ t.namesWith hide) ∨
        ∃ q ∈ Part.properties parts, n ∈ q.type.namesWith hide := by
  rw [exists_mem_properties]
  constructor
  · rintro ⟨p, hp, hn⟩
    rcases p.inheritedType?_or_property? with ⟨t, ht⟩ | ⟨q, hq⟩
    · exact Or.inl ⟨p, hp, t, ht, Part.namesWith_of_inheritedType? ht ▸ hn⟩
    · exact Or.inr ⟨p, hp, q, hq, Part.namesWith_of_property? hq ▸ hn⟩
  · rintro (⟨p, hp, t, ht, hn⟩ | ⟨p, hp, q, hq, hn⟩)
    · exact ⟨p, hp, Part.namesWith_of_inheritedType? ht ▸ hn⟩
    · exact ⟨p, hp, Part.namesWith_of_property? hq ▸ hn⟩

/-- Without a selector, a struct has the names of its parts. -/
theorem mem_namesWith_structBody_none :
    n ∈ (structBody parts none).namesWith hide ↔
      (∃ p ∈ parts, n ∈ p.namesWith hide) ∨ n = "Record" ∧ parts = [] := by
  have hempty :
      ((∀ p ∈ parts, p.inheritedType? = none) ∧ Part.properties parts = []) ↔
      parts = [] := by
    constructor
    · rintro ⟨hnone, hproperties⟩
      rw [List.eq_nil_iff_forall_not_mem]
      intro p hp
      rcases p.inheritedType?_or_property? with ⟨t, ht⟩ | ⟨q, hq⟩
      · rw [hnone p hp] at ht
        cases ht
      · have hmem : q ∈ Part.properties parts :=
          List.mem_filterMap.mpr ⟨p, hp, hq⟩
        rw [hproperties] at hmem
        cases hmem
    · rintro rfl
      exact ⟨fun p hp => absurd hp List.not_mem_nil, rfl⟩
  change n ∈ (composeParts parts (Part.properties parts)).namesWith hide ↔ _
  rw [mem_namesWith_composeParts, hempty, exists_mem_namesWith_iff, or_assoc]

theorem selectProperty_eq_none_iff {name : String} :
    selectProperty name ps = none ↔ ∀ q ∈ ps, q.name ≠ name := by
  induction ps with
  | nil => simp [selectProperty]
  | cons q rest ih =>
      rw [selectProperty]
      split
      · rename_i hsome
        have hrest : ¬ ∀ r ∈ rest, r.name ≠ name := by
          rw [← ih, hsome]
          exact Option.some_ne_none _
        simp only [List.forall_mem_cons, hrest, and_false]
        simp
      · rename_i hnone
        by_cases hname : q.name = name
        · simp [hname]
        · simpa [hname] using ih.mp hnone

/-- The selected property is the last one of its name. -/
theorem selectProperty_eq_some {name : String} {values : TypeExpr}
    {ps' : List Property} (h : selectProperty name ps = some (values, ps')) :
    ∃ before q behind, ps = before ++ q :: behind ∧ q.name = name ∧
      values = q.type ∧
      ps' = before ++ q.withType discriminator :: behind ∧
      ∀ r ∈ behind, r.name ≠ name := by
  induction ps generalizing ps' with
  | nil => cases h
  | cons p rest ih =>
      rw [selectProperty] at h
      split at h
      · rename_i type rest' hrest
        cases h
        obtain ⟨before, q, behind, rfl, hname, hvalues, rfl,
          hbehind⟩ := ih hrest
        exact ⟨p :: before, q, behind, rfl, hname, hvalues, rfl, hbehind⟩
      · rename_i hnone
        split at h
        · rename_i hname
          cases h
          exact ⟨[], p, rest, rfl, by simpa using hname, rfl, rfl,
            selectProperty_eq_none_iff.mp hnone⟩
        · cases h

@[simp] theorem Property.type_withType (q : Property) (t : TypeExpr) :
    (q.withType t).type = t := by
  cases q
  rfl

/-- Selecting moves the names of one property out and puts the
discriminator in its place. -/
theorem mem_names_selectProperty {name : String} {values : TypeExpr}
    {ps' : List Property} (h : selectProperty name ps = some (values, ps')) :
    n ∈ values.namesWith hide ∨ (∃ q ∈ ps', n ∈ q.type.namesWith hide) ↔
      n = "S" ∨ ∃ q ∈ ps, n ∈ q.type.namesWith hide := by
  obtain ⟨before, q, behind, rfl, -, rfl, rfl, -⟩ := selectProperty_eq_some h
  simp only [List.mem_append, List.mem_cons, or_and_right,
    exists_or, exists_eq_left, Property.type_withType, discriminator,
    TypeExpr.namesWith_named, List.not_mem_nil, or_false]
  exact Iff.of_eq (by ac_rfl)

/-- A struct over the values of a property has the names of its parts and
the discriminator. -/
theorem mem_names_structBody_some {name : String}
    {values : TypeExpr} {ps' : List Property}
    (h : selectProperty name (Part.properties parts) = some (values, ps')) :
    n ∈ (structBody parts (some name)).names ↔
      n = "S" ∨ ∃ p ∈ parts, n ∈ p.namesWith false := by
  have hne : ps' ≠ [] := by
    obtain ⟨before, q, behind, -, -, -, rfl, -⟩ := selectProperty_eq_some h
    simp
  have hselect := @mem_names_selectProperty false n _ _ _ _ h
  simp only [structBody, Option.bind_some, h, distribute, TypeExpr.namesWith,
    List.mem_append, mem_namesWith_composeParts, outsideKey, Bool.false_eq_true,
    if_false, hne, and_false, or_false]
  rw [exists_mem_namesWith_iff, or_left_comm, or_assoc, or_right_comm,
    or_self, hselect]
  exact or_left_comm

theorem structBody_of_selectProperty_eq_none {name : String}
    (h : selectProperty name (Part.properties parts) = none) :
    structBody parts (some name) = structBody parts none := by
  simp only [structBody, Option.bind_some, Option.bind_none, h]

/-- However a struct is put together, the names of its parts are
there, and few others. -/
theorem mem_names_structBody (selector? : Option String) :
    ((∃ p ∈ parts, n ∈ p.namesWith false) →
        n ∈ (structBody parts selector?).names) ∧
      (n ∈ (structBody parts selector?).names →
        (∃ p ∈ parts, n ∈ p.namesWith false) ∨ n = "S" ∨ n = "Record") := by
  have hnone : (n ∈ (structBody parts none).names ↔ _) :=
    mem_namesWith_structBody_none
  cases selector? with
  | none =>
      rw [hnone]
      exact ⟨Or.inl, Or.imp_right fun h => Or.inr h.1⟩
  | some name =>
      cases hselect : selectProperty name (Part.properties parts) with
      | none =>
          rw [structBody_of_selectProperty_eq_none hselect, hnone]
          exact ⟨Or.inl, Or.imp_right fun h => Or.inr h.1⟩
      | some found =>
          rw [mem_names_structBody_some hselect]
          exact ⟨Or.inr, fun h => h.symm.imp_right Or.inl⟩

/-- The discriminator is bound in the struct and free in the values that
it is taken from. -/
theorem discriminator_mem_freeNames_structBody {name : String}
    {values : TypeExpr} {ps' : List Property}
    (h : selectProperty name (Part.properties parts) = some (values, ps')) :
    "S" ∈ (structBody parts (some name)).freeNames ↔
      "S" ∈ values.freeNames := by
  simp only [structBody, Option.bind_some, h, distribute, TypeExpr.namesWith,
    List.mem_append, TypeExpr.mem_outsideKey, ne_eq, not_true_eq_false,
    imp_false, and_false, or_false, or_self]

end Structs

end Typings
