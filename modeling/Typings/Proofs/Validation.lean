import Typings.Proofs.Composition
import Mathlib.Logic.Relation

/-!
No misused attribute slips through. A type is validated before it is compiled
anywhere, and every attribute written on a part of it that is still there has
been checked by then. So have the attributes of fields, enum values, members and
items that are gone, but not what these hold.
-/

namespace Typings

def Field.type : Field → Schema
  | .pair _ type _ _ _ _ => type
  | .spread type _ => type

/-- The type of the keys of a field, unless its key is fixed. -/
def Field.keyType? : Field → Option Schema
  | .pair (.type key) _ _ _ _ _ => some key
  | _ => none

/-- The second type stands in the first one, and is still there in
the latest version. -/
inductive Schema.HasChild : Schema → Schema → Prop where
  | item {item : Schema} {length : Option Range} {attributes : List Attribute} :
      HasChild (.list item length attributes) item
  | element {element : Schema}
      {elements : List Schema} {attributes : List Attribute}
      (hmem : element ∈ elements) (hlive : element.isLive = true) :
      HasChild (.tuple elements attributes) element
  | member {member : Schema}
      {members : List Schema} {attributes : List Attribute}
      (hmem : member ∈ members) (hlive : member.isLive = true) :
      HasChild (.union members attributes) member
  | fieldType {field : Field}
      {fields : List Field} {attributes : List Attribute}
      (hmem : field ∈ fields) (hlive : field.isLive = true) :
      HasChild (.struct fields attributes) field.type
  | fieldKey {field : Field} {key : Schema} {fields : List Field}
      {attributes : List Attribute} (hmem : field ∈ fields)
      (hlive : field.isLive = true) (hkey : field.keyType? = some key) :
      HasChild (.struct fields attributes) key
  | generic {child : Schema} {args : List Schema}
      {attributes : List Attribute} :
      HasChild (.concrete child args attributes) child
  | argument {arg child : Schema} {args : List Schema}
      {attributes : List Attribute} (hmem : arg ∈ args) :
      HasChild (.concrete child args attributes) arg
  | templateBody {child : Schema} {params : List Json}
      {attributes : List Attribute} :
      HasChild (.template child params attributes) child
  | accessed {child : Schema} {indices : List Index}
      {attributes : List Attribute} :
      HasChild (.indexed child indices attributes) child

/-- The second type is the first one, or stands in it at any depth. -/
def Schema.HasPart : Schema → Schema → Prop :=
  Relation.ReflTransGen Schema.HasChild

/-- The attributes that are written on a type, and on its fields, values,
members and items, also on those that are gone. -/
def Schema.written : Schema → List Attribute
  | .struct fields attributes => attributes ++ fields.flatMap (·.attributes)
  | .enum _ values attributes => attributes ++ values.flatMap (·.attributes)
  | .union members attributes => attributes ++ members.flatMap (·.attributes)
  | .tuple items attributes => attributes ++ items.flatMap (·.attributes)
  | type => type.attributes

theorem checkAttributes_eq_ok_iff {attributes : List Attribute} :
    checkAttributes attributes = .ok ⟨⟩ ↔ ∀ a ∈ attributes, a.check = .ok ⟨⟩ :=
  forM_eq_ok_iff

namespace Plan

theorem ofSchema_eq_ok_iff {type : Schema} {plan : Plan} :
    ofSchema type = .ok plan ↔
      checkAttributes type.attributes = .ok ⟨⟩ ∧ ofBody type = .ok plan := by
  rw [ofSchema, bind_eq_ok_iff]
  constructor
  · rintro ⟨⟨⟩, hattributes, hplan⟩
    exact ⟨hattributes, hplan⟩
  · rintro ⟨hattributes, hplan⟩
    exact ⟨⟨⟩, hattributes, hplan⟩

/-- The type has been validated: as any type is, or as a string that stands for
the keys of a field. -/
def Accepts (type : Schema) : Prop :=
  (∃ plan, ofSchema type = .ok plan) ∨
    ∃ length attributes, type = .string length attributes ∧
      checkAttributes attributes = .ok ⟨⟩

theorem accepts_of_ofBody {type : Schema} {plan : Plan}
    (hattributes : checkAttributes type.attributes = .ok ⟨⟩)
    (hplan : ofBody type = .ok plan) : Accepts type :=
  Or.inl ⟨plan, ofSchema_eq_ok_iff.mpr ⟨hattributes, hplan⟩⟩

theorem checkAttributes_of_accepts {type : Schema} (h : Accepts type) :
    checkAttributes type.attributes = .ok ⟨⟩ := by
  rcases h with ⟨plan, hplan⟩ | ⟨length, attributes, rfl, hattributes⟩
  · exact (ofSchema_eq_ok_iff.mp hplan).1
  · exact hattributes

theorem accepts_of_ofAll {types : List Schema} {plans : List Plan}
    (h : ofAll types = .ok plans) :
    ∀ type ∈ types, Accepts type := by
  induction types generalizing plans with
  | nil => simp
  | cons type rest ih =>
      rw [ofAll, bind_eq_ok_iff] at h
      obtain ⟨⟨⟩, hattributes, h⟩ := h
      obtain ⟨plan, hplan, h⟩ := bind_eq_ok_iff.mp h
      obtain ⟨others, hothers, -⟩ := bind_eq_ok_iff.mp h
      exact List.forall_mem_cons.mpr ⟨accepts_of_ofBody hattributes hplan,
        ih hothers⟩

/-- Of members and items the attributes are checked before, and the rest if they
are still there. -/
theorem accepts_of_ofLive {types : List Schema} {plans : List Plan}
    (hchecked : ∀ type ∈ types, checkAttributes type.attributes = .ok ⟨⟩)
    (h : ofLive types = .ok plans) :
    ∀ type ∈ types, type.isLive = true → Accepts type := by
  induction types generalizing plans with
  | nil => simp
  | cons type rest ih =>
      rw [List.forall_mem_cons] at hchecked
      rw [ofLive] at h
      split at h
      · rename_i hgone
        refine List.forall_mem_cons.mpr ⟨fun hlive => ?_, ih hchecked.2 h⟩
        rw [Schema.isLive, hgone] at hlive
        cases hlive
      · obtain ⟨plan, hplan, h⟩ := bind_eq_ok_iff.mp h
        obtain ⟨others, hothers, -⟩ := bind_eq_ok_iff.mp h
        exact List.forall_mem_cons.mpr
          ⟨fun _ => accepts_of_ofBody hchecked.1 hplan, ih hchecked.2 hothers⟩

theorem checkAttributes_of_enumCases {values : List EnumValue}
    {cases : List EnumCase} (h : enumCases values = .ok cases) :
    ∀ v ∈ values, checkAttributes v.attributes = .ok ⟨⟩ := by
  induction values generalizing cases with
  | nil => simp
  | cons v rest ih =>
      rw [enumCases, bind_eq_ok_iff] at h
      obtain ⟨⟨⟩, hattributes, h⟩ := h
      obtain ⟨others, hothers, -⟩ := bind_eq_ok_iff.mp h
      exact List.forall_mem_cons.mpr ⟨hattributes, ih hothers⟩

/-- A field has its attributes checked whether it is still there or not. -/
theorem entry_of_ofFields {fields : List Field} {entries : List Entry}
    (h : ofFields fields = .ok entries) :
    ∀ field ∈ fields, checkAttributes field.attributes = .ok ⟨⟩ ∧
      (field.isLive = true → ∃ entry, field.entry = .ok entry) := by
  induction fields generalizing entries with
  | nil => simp
  | cons field rest ih =>
      rw [ofFields_cons, bind_eq_ok_iff] at h
      obtain ⟨⟨⟩, hattributes, h⟩ := h
      split at h
      · obtain ⟨entry, hentry, h⟩ := bind_eq_ok_iff.mp h
        obtain ⟨others, hothers, -⟩ := bind_eq_ok_iff.mp h
        exact List.forall_mem_cons.mpr ⟨⟨hattributes, fun _ => ⟨entry, hentry⟩⟩,
          ih hothers⟩
      · rename_i hgone
        exact List.forall_mem_cons.mpr
          ⟨⟨hattributes, fun hlive => absurd hlive hgone⟩, ih h⟩

/-- Members and items are all checked before any of them is
validated further. -/
theorem checked_of_live {types : List Schema} {wrap : List Plan → Plan}
    {plan : Plan} (h : (do
      types.forM fun t => checkAttributes t.attributes
      return wrap (← ofLive types)) = .ok plan) :
    (∀ t ∈ types, checkAttributes t.attributes = .ok ⟨⟩) ∧
      ∃ plans, ofLive types = .ok plans := by
  obtain ⟨⟨⟩, hchecked, h⟩ := bind_eq_ok_iff.mp h
  obtain ⟨plans, hplans, -⟩ := bind_eq_ok_iff.mp h
  exact ⟨forM_eq_ok_iff.mp hchecked, plans, hplans⟩

/-- A generic type is a reference, and its arguments are
validated one by one. -/
theorem of_ofBody_concrete {child : Schema} {args : List Schema}
    {attributes : List Attribute} {plan : Plan}
    (h : ofBody (.concrete child args attributes) = .ok plan) :
    Accepts child ∧ ∀ arg ∈ args, Accepts arg := by
  rw [ofBody.eq_def] at h
  dsimp only at h
  split at h
  · rename_i path childAttributes
    obtain ⟨⟨⟩, hchecked, h⟩ := bind_eq_ok_iff.mp h
    split at h
    · cases h
    · rename_i hpath
      obtain ⟨plans, hplans, -⟩ := bind_eq_ok_iff.mp h
      refine ⟨@accepts_of_ofBody _ (.reference path) hchecked ?_,
        accepts_of_ofAll hplans⟩
      rw [ofBody, ofPath, if_neg hpath]
  · cases h

theorem of_ofBody_indexed {child : Schema} {indices : List Index}
    {attributes : List Attribute} {plan : Plan}
    (h : ofBody (.indexed child indices attributes) = .ok plan) :
    Accepts child := by
  rw [ofBody.eq_def] at h
  dsimp only at h
  split at h
  · rename_i registry inner childAttributes
    obtain ⟨keys, -, h⟩ := bind_eq_ok_iff.mp h
    obtain ⟨⟨⟩, hchecked, h⟩ := bind_eq_ok_iff.mp h
    obtain ⟨index, hindex, -⟩ := bind_eq_ok_iff.mp h
    refine @accepts_of_ofBody _ (.dispatcher registry index none) hchecked ?_
    rw [ofBody, hindex]
    rfl
  · cases h

/-- Keys are validated as types are, but for strings. -/
theorem accepts_of_ofKey {type : Schema} {plan : KeyPlan}
    (h : ofKey type = .ok plan) : Accepts type := by
  rw [ofKey.eq_def] at h
  cases type with
  | string length attributes =>
      obtain ⟨⟨⟩, hchecked, -⟩ := bind_eq_ok_iff.mp h
      exact Or.inr ⟨length, attributes, rfl, hchecked⟩
  | reference path attributes =>
      obtain ⟨⟨⟩, hchecked, h⟩ := bind_eq_ok_iff.mp h
      split at h
      · cases h
      · rename_i hpath
        refine @accepts_of_ofBody _ (.reference path) hchecked ?_
        rw [ofBody, ofPath, if_neg hpath]
  | concrete child args attributes =>
      obtain ⟨⟨⟩, hchecked, h⟩ := bind_eq_ok_iff.mp h
      split at h
      · rename_i path childAttributes _
        split at h
        · cases h
        · rename_i hpath
          obtain ⟨⟨⟩, hchild, h⟩ := bind_eq_ok_iff.mp h
          obtain ⟨plans, hplans, -⟩ := bind_eq_ok_iff.mp h
          refine @accepts_of_ofBody _ (.concrete path plans) hchecked ?_
          rw [ofBody, hchild, if_neg hpath, hplans]
          rfl
      · cases h
  | union members attributes =>
      obtain ⟨⟨⟩, hchecked, h⟩ := bind_eq_ok_iff.mp h
      obtain ⟨⟨⟩, hmembers, h⟩ := bind_eq_ok_iff.mp h
      obtain ⟨plans, hplans, -⟩ := bind_eq_ok_iff.mp h
      refine @accepts_of_ofBody _ (.union plans) hchecked ?_
      rw [ofBody, hmembers, hplans]
      rfl
  | _ =>
      obtain ⟨-, -, h⟩ := bind_eq_ok_iff.mp h
      cases h

end Plan

theorem Field.accepts_of_entry {field : Field} {entry : Entry}
    (h : field.entry = .ok entry) :
    Plan.Accepts field.type ∧ ∀ key, field.keyType? = some key →
      Plan.Accepts key := by
  cases field with
  | pair key type optional deprecated description attributes =>
      cases key with
      | name name =>
          obtain ⟨plan, hplan, -⟩ := bind_eq_ok_iff.mp h
          exact ⟨Or.inl ⟨plan, hplan⟩, by rintro _ ⟨⟩⟩
      | type key =>
          obtain ⟨keyPlan, hkey, h⟩ := bind_eq_ok_iff.mp h
          obtain ⟨plan, hplan, -⟩ := bind_eq_ok_iff.mp h
          refine ⟨Or.inl ⟨plan, hplan⟩, ?_⟩
          rintro _ ⟨⟩
          exact Plan.accepts_of_ofKey hkey
  | spread type attributes =>
      rw [Field.entry] at h
      split at h
      · cases h
      · obtain ⟨plan, hplan, -⟩ := bind_eq_ok_iff.mp h
        exact ⟨Or.inl ⟨plan, hplan⟩, by rintro _ ⟨⟩⟩

namespace Schema

variable {type part : Schema}

/-- Validating a type validates every type that stands in it
and is still there. -/
theorem HasChild.accepts (hchild : type.HasChild part) (h : Plan.Accepts type) :
    Plan.Accepts part := by
  rcases h with ⟨plan, hplan⟩ | ⟨length, attributes, rfl, -⟩
  · obtain ⟨-, hbody⟩ := Plan.ofSchema_eq_ok_iff.mp hplan
    cases hchild with
    | item =>
        rw [Plan.ofBody, bind_eq_ok_iff] at hbody
        obtain ⟨⟨⟩, hchecked, hbody⟩ := hbody
        obtain ⟨itemPlan, hitem, -⟩ := bind_eq_ok_iff.mp hbody
        exact Plan.accepts_of_ofBody hchecked hitem
    | element hmem hlive =>
        rw [Plan.ofBody] at hbody
        obtain ⟨hchecked, plans, hplans⟩ := Plan.checked_of_live hbody
        exact Plan.accepts_of_ofLive hchecked hplans _ hmem hlive
    | member hmem hlive =>
        rw [Plan.ofBody] at hbody
        obtain ⟨hchecked, plans, hplans⟩ := Plan.checked_of_live hbody
        exact Plan.accepts_of_ofLive hchecked hplans _ hmem hlive
    | fieldType hmem hlive =>
        rw [Plan.ofBody, bind_eq_ok_iff] at hbody
        obtain ⟨entries, hentries, -⟩ := hbody
        obtain ⟨entry, hentry⟩ :=
          (Plan.entry_of_ofFields hentries _ hmem).2 hlive
        exact (Field.accepts_of_entry hentry).1
    | fieldKey hmem hlive hkey =>
        rw [Plan.ofBody, bind_eq_ok_iff] at hbody
        obtain ⟨entries, hentries, -⟩ := hbody
        obtain ⟨entry, hentry⟩ :=
          (Plan.entry_of_ofFields hentries _ hmem).2 hlive
        exact (Field.accepts_of_entry hentry).2 _ hkey
    | generic => exact (Plan.of_ofBody_concrete hbody).1
    | argument hmem => exact (Plan.of_ofBody_concrete hbody).2 _ hmem
    | templateBody =>
        rw [Plan.ofBody, bind_eq_ok_iff] at hbody
        obtain ⟨⟨⟩, hchecked, hbody⟩ := hbody
        obtain ⟨body, hbody, -⟩ := bind_eq_ok_iff.mp hbody
        exact Plan.accepts_of_ofBody hchecked hbody
    | accessed => exact Plan.of_ofBody_indexed hbody
  -- A string has no parts.
  · cases hchild

/-- What is validated at the top is validated at every depth. -/
theorem HasPart.accepts (hpart : type.HasPart part) (h : Plan.Accepts type) :
    Plan.Accepts part := by
  induction hpart with
  | refl => exact h
  | tail _ hchild ih => exact hchild.accepts ih

theorem check_of_mem_flatMap {α : Type}
    {xs : List α} {attributes : α → List Attribute}
    (h : ∀ x ∈ xs, checkAttributes (attributes x) = .ok ⟨⟩) :
    ∀ a ∈ xs.flatMap attributes, a.check = .ok ⟨⟩ := by
  intro a ha
  obtain ⟨x, hx, hmem⟩ := List.mem_flatMap.mp ha
  exact checkAttributes_eq_ok_iff.mp (h x hx) a hmem

/-- Every attribute written on a validated type has been checked. -/
theorem check_of_mem_written (h : Plan.Accepts type) :
    ∀ a ∈ type.written, a.check = .ok ⟨⟩ := by
  have hown := checkAttributes_eq_ok_iff.mp (Plan.checkAttributes_of_accepts h)
  rcases h with ⟨plan, hplan⟩ | ⟨length, attributes, rfl, -⟩
  · obtain ⟨-, hbody⟩ := Plan.ofSchema_eq_ok_iff.mp hplan
    cases type with
    | struct fields attributes =>
        rw [Plan.ofBody, bind_eq_ok_iff] at hbody
        obtain ⟨entries, hentries, -⟩ := hbody
        have hfields := check_of_mem_flatMap fun f hf =>
          (Plan.entry_of_ofFields hentries f hf).1
        exact List.forall_mem_append.mpr ⟨hown, hfields⟩
    | enum kind values attributes =>
        rw [Plan.ofBody, bind_eq_ok_iff] at hbody
        obtain ⟨cases, hcases, -⟩ := hbody
        have hvalues :=
          check_of_mem_flatMap (Plan.checkAttributes_of_enumCases hcases)
        exact List.forall_mem_append.mpr ⟨hown, hvalues⟩
    | union members attributes =>
        rw [Plan.ofBody] at hbody
        have hmembers := check_of_mem_flatMap (Plan.checked_of_live hbody).1
        exact List.forall_mem_append.mpr ⟨hown, hmembers⟩
    | tuple items attributes =>
        rw [Plan.ofBody] at hbody
        have hitems := check_of_mem_flatMap (Plan.checked_of_live hbody).1
        exact List.forall_mem_append.mpr ⟨hown, hitems⟩
    | _ => exact hown
  · exact hown

/-- If a type is validated, every attribute is accepted that is written on the
type or on any part of it that is still there, and on the fields, enum values,
members and items of these, also on those that are gone. -/
theorem written_accepted {plan : Plan} (h : Plan.ofSchema type = .ok plan) :
    ∀ part, type.HasPart part → ∀ a ∈ part.written, a.check = .ok ⟨⟩ := by
  intro part hpart
  apply check_of_mem_written
  exact hpart.accepts (Or.inl ⟨plan, h⟩)

/-- A member that is gone has its attribute checked, below a list under a
dynamic key; a field that is gone holds a type with an unknown attribute, and
that one is not. -/
theorem written_accepted_gone :
    let gone : Attribute :=
      .mk (.str "until") (.type (.literal (.str "string") (.str "1.20") []))
    let unknown : Attribute := .mk (.str "bogus") .absent
    let members : Schema := .union [.boolean [], .any [gone]] []
    let type : Schema := .struct
      [.pair (.name "old") (.any [unknown]) false false .null [gone],
        .pair (.type (.string none [])) (.list members none []) false false
          .null []] []
    (∃ plan, Plan.ofSchema type = .ok plan) ∧ type.HasPart members ∧
      gone ∈ members.written ∧
      gone.check = .ok ⟨⟩ ∧ unknown.check ≠ .ok ⟨⟩ := by
  intro gone unknown members type
  obtain ⟨plan, hplan⟩ : ∃ plan, Plan.ofSchema type = .ok plan := ⟨_, rfl⟩
  have hpart : type.HasPart members :=
    .head (.fieldType (List.mem_cons_of_mem _ List.mem_cons_self) rfl)
      (.single .item)
  have hmem : gone ∈ members.written := List.mem_cons_self
  refine ⟨⟨plan, hplan⟩, hpart, hmem,
    written_accepted hplan members hpart gone hmem, ?_⟩
  intro hcheck
  cases hcheck

end Schema

end Typings
