import Typings.Schema.Loader
import Typings.Proofs.Outcome

/-!
How types are written as JSON, and that loading reads them back. An entry may
stand anywhere in its object, and one that has its default value may be left
out. What is written for a type, in any of these ways, loads as that type and no
other, with everything in the same order.
-/

namespace Typings

abbrev Entries := List (String × Json)

/-- The entry is there, or left out because it has its default value. -/
def Entries.Gives (e : Entries) (key : String) (value fallback : Json) : Prop :=
  Json.get? e key = some value ∨ value = fallback ∧ Json.get? e key = none

/-- How a range is written under a key. -/
inductive Range.Under (e : Entries) (key : String) : Option Range → Prop where
  | omitted (h : e.Gives key .null .null) : Under e key none
  | given {r : Range} {bounds : Entries}
      (h : Json.get? e key = some (.obj bounds))
      (hkind : bounds.Gives "kind" r.kind (.int 0))
      (hlow : bounds.Gives "min" r.low .null)
      (hhigh : bounds.Gives "max" r.high .null) : Under e key (some r)

/-- How a step of a dynamic index is written. -/
inductive Accessor.Written : Accessor → Json → Prop where
  | property (name : String) : Written (.property name) (.str name)
  | keyword {word : Json} {e : Entries}
      (h : Json.get? e "keyword" = some word) : Written (.keyword word) (.obj e)

inductive Index.Written : Index → Json → Prop where
  | static {value : Json} {e : Entries}
      (hkind : Json.get? e "kind" = some (.str "static"))
      (hvalue : Json.get? e "value" = some value) :
      Written (.static value) (.obj e)
  | dynamic {steps : List Accessor} {e : Entries} {vs : List Json}
      (hkind : Json.get? e "kind" = some (.str "dynamic"))
      (haccessor : Json.get? e "accessor" = some (.arr vs))
      (hsteps : List.Forall₂ Accessor.Written steps vs) :
      Written (.dynamic steps) (.obj e)

inductive Index.Under (e : Entries) (indices : List Index) : Prop where
  | given {vs : List Json} (h : Json.get? e "parallelIndices" = some (.arr vs))
      (hindices : List.Forall₂ Index.Written indices vs) : Under e indices

/-- How a parameter of a template is written: as an object with its path. -/
inductive Param.Written : Json → Json → Prop where
  | mk {path : Json} {e : Entries} (h : Json.get? e "path" = some path) :
      Written path (.obj e)

/-- How the parameters of a template are written; none perhaps not at all. -/
inductive ParamsUnder (e : Entries) : List Json → Prop where
  | omitted (h : Json.get? e "typeParams" = none) : ParamsUnder e []
  | given {params vs : List Json}
      (h : Json.get? e "typeParams" = some (.arr vs))
      (hparams : List.Forall₂ Param.Written params vs) : ParamsUnder e params

mutual

/-- How a type is written: an object with its kind, its attributes and what
the kind asks for. -/
inductive Schema.Written : Schema → Json → Prop where
  | mk {t : Schema} {e : Entries}
      (hkind : Json.get? e "kind" = some (.str t.kind))
      (hattributes : AttributesUnder e t.attributes) (hbody : Schema.Body t e) :
      Schema.Written t (.obj e)

/-- The entries that each kind of type has of its own. -/
inductive Schema.Body : Schema → Entries → Prop where
  | any {attributes : List Attribute} {e : Entries} :
      Schema.Body (.any attributes) e
  | unchecked {attributes : List Attribute} {e : Entries} :
      Schema.Body (.unchecked attributes) e
  | boolean {attributes : List Attribute} {e : Entries} :
      Schema.Body (.boolean attributes) e
  | string {length : Option Range} {attributes : List Attribute} {e : Entries}
      (hlength : Range.Under e "lengthRange" length) :
      Schema.Body (.string length attributes) e
  | numeric {kind : NumericKind} {range : Option Range}
      {attributes : List Attribute} {e : Entries}
      (hrange : Range.Under e "valueRange" range) :
      Schema.Body (.numeric kind range attributes) e
  | array {kind : ArrayKind} {range length : Option Range}
      {attributes : List Attribute} {e : Entries}
      (hrange : Range.Under e "valueRange" range)
      (hlength : Range.Under e "lengthRange" length) :
      Schema.Body (.array kind range length attributes) e
  | list {item : Schema} {length : Option Range}
      {attributes : List Attribute} {e : Entries} {v : Json}
      (hentry : Json.get? e "item" = some v) (hitem : Schema.Written item v)
      (hlength : Range.Under e "lengthRange" length) :
      Schema.Body (.list item length attributes) e
  | tuple {items : List Schema} {attributes : List Attribute} {e : Entries}
      {vs : List Json} (hentry : Json.get? e "items" = some (.arr vs))
      (hitems : Schema.WrittenAll items vs) :
      Schema.Body (.tuple items attributes) e
  | enum {kind : Json} {values : List EnumValue}
      {attributes : List Attribute} {e : Entries} {vs : List Json}
      (hkind : e.Gives "enumKind" kind (.str "string"))
      (hentry : Json.get? e "values" = some (.arr vs))
      (hvalues : EnumValue.WrittenAll values vs) :
      Schema.Body (.enum kind values attributes) e
  | literal {kind value : Json} {attributes : List Attribute}
      {e literal : Entries} (hentry : Json.get? e "value" = some (.obj literal))
      (hkind : Json.get? literal "kind" = some kind)
      (hvalue : Json.get? literal "value" = some value) :
      Schema.Body (.literal kind value attributes) e
  | struct {fields : List Field} {attributes : List Attribute} {e : Entries}
      {vs : List Json} (hentry : Json.get? e "fields" = some (.arr vs))
      (hfields : Field.WrittenAll fields vs) :
      Schema.Body (.struct fields attributes) e
  | reference {path : Json} {attributes : List Attribute} {e : Entries}
      (hpath : e.Gives "path" path .null) :
      Schema.Body (.reference path attributes) e
  | concrete {child : Schema} {args : List Schema} {attributes : List Attribute}
      {e : Entries} {v : Json} (hentry : Json.get? e "child" = some v)
      (hchild : Schema.Written child v) (hargs : ArgsUnder e args) :
      Schema.Body (.concrete child args attributes) e
  | template {child : Schema} {params : List Json} {attributes : List Attribute}
      {e : Entries} {v : Json} (hentry : Json.get? e "child" = some v)
      (hchild : Schema.Written child v) (hparams : ParamsUnder e params) :
      Schema.Body (.template child params attributes) e
  | dispatcher {registry : Json} {indices : List Index}
      {attributes : List Attribute} {e : Entries}
      (hregistry : Json.get? e "registry" = some registry)
      (hindices : Index.Under e indices) :
      Schema.Body (.dispatcher registry indices attributes) e
  | indexed {child : Schema} {indices : List Index}
      {attributes : List Attribute} {e : Entries} {v : Json}
      (hentry : Json.get? e "child" = some v) (hchild : Schema.Written child v)
      (hindices : Index.Under e indices) :
      Schema.Body (.indexed child indices attributes) e
  | union {members : List Schema} {attributes : List Attribute} {e : Entries}
      {vs : List Json} (hentry : Json.get? e "members" = some (.arr vs))
      (hmembers : Schema.WrittenAll members vs) :
      Schema.Body (.union members attributes) e

/-- How types are written one after another. -/
inductive Schema.WrittenAll : List Schema → List Json → Prop where
  | nil : Schema.WrittenAll [] []
  | cons {t : Schema} {v : Json} {rest : List Schema} {vs : List Json}
      (ht : Schema.Written t v) (hrest : Schema.WrittenAll rest vs) :
      Schema.WrittenAll (t :: rest) (v :: vs)

/-- How type arguments are written; none perhaps not at all. -/
inductive ArgsUnder : Entries → List Schema → Prop where
  | omitted {e : Entries} (h : Json.get? e "typeArgs" = none) : ArgsUnder e []
  | given {e : Entries} {args : List Schema} {vs : List Json}
      (h : Json.get? e "typeArgs" = some (.arr vs))
      (hargs : Schema.WrittenAll args vs) : ArgsUnder e args

/-- How attributes are written; none perhaps not at all. -/
inductive AttributesUnder : Entries → List Attribute → Prop where
  | omitted {e : Entries} (h : Json.get? e "attributes" = none) :
      AttributesUnder e []
  | given {e : Entries} {attributes : List Attribute} {vs : List Json}
      (h : Json.get? e "attributes" = some (.arr vs))
      (hattributes : Attribute.WrittenAll attributes vs) :
      AttributesUnder e attributes

/-- How attributes are written one after another. An absent value
may be left out. -/
inductive Attribute.WrittenAll : List Attribute → List Json → Prop where
  | nil : Attribute.WrittenAll [] []
  | bare {name : Json} {e : Entries} {rest : List Attribute} {vs : List Json}
      (hname : Json.get? e "name" = some name)
      (hvalue : Json.get? e "value" = none)
      (hrest : Attribute.WrittenAll rest vs) :
      Attribute.WrittenAll (.mk name .absent :: rest) (.obj e :: vs)
  | cons {name : Json} {value : AttributeValue} {e : Entries} {v : Json}
      {rest : List Attribute} {vs : List Json}
      (hname : Json.get? e "name" = some name)
      (hentry : Json.get? e "value" = some v)
      (hvalue : AttributeValue.Written value v)
      (hrest : Attribute.WrittenAll rest vs) :
      Attribute.WrittenAll (.mk name value :: rest) (.obj e :: vs)

inductive AttributeValue.Written : AttributeValue → Json → Prop where
  | absent : AttributeValue.Written .absent .null
  | type {t : Schema} {v : Json} (ht : Schema.Written t v) :
      AttributeValue.Written (.type t) v
  | empty {e : Entries} (hkind : Json.get? e "kind" = some (.str "tree"))
      (hvalues : Json.get? e "values" = none) :
      AttributeValue.Written (.tree []) (.obj e)
  | tree {e values : Entries} {arguments : List (String × AttributeValue)}
      (hkind : Json.get? e "kind" = some (.str "tree"))
      (hvalues : Json.get? e "values" = some (.obj values))
      (harguments : AttributeValue.WrittenAll arguments values) :
      AttributeValue.Written (.tree arguments) (.obj e)

/-- How named arguments are written: each under its name. -/
inductive AttributeValue.WrittenAll :
    List (String × AttributeValue) → Entries → Prop where
  | nil : AttributeValue.WrittenAll [] []
  | cons {name : String} {value : AttributeValue} {v : Json}
      {rest : List (String × AttributeValue)} {vs : Entries}
      (hvalue : AttributeValue.Written value v)
      (hrest : AttributeValue.WrittenAll rest vs) :
      AttributeValue.WrittenAll ((name, value) :: rest) ((name, v) :: vs)

/-- How the values of an enum are written. -/
inductive EnumValue.WrittenAll : List EnumValue → List Json → Prop where
  | nil : EnumValue.WrittenAll [] []
  | cons {identifier value description : Json} {attributes : List Attribute}
      {e : Entries} {rest : List EnumValue} {vs : List Json}
      (hidentifier : Json.get? e "identifier" = some identifier)
      (hvalue : Json.get? e "value" = some value)
      (hdescription : e.Gives "desc" description .null)
      (hattributes : AttributesUnder e attributes)
      (hrest : EnumValue.WrittenAll rest vs) :
      EnumValue.WrittenAll (.mk identifier value description attributes :: rest)
        (.obj e :: vs)

inductive FieldKey.Written : FieldKey → Json → Prop where
  | name (name : String) : FieldKey.Written (.name name) (.str name)
  | type {t : Schema} {v : Json} (ht : Schema.Written t v) :
      FieldKey.Written (.type t) v

/-- How the fields of a struct are written. -/
inductive Field.WrittenAll : List Field → List Json → Prop where
  | nil : Field.WrittenAll [] []
  | pair {key : FieldKey} {type : Schema} {optional deprecated : Bool}
      {description : Json} {attributes : List Attribute} {e : Entries}
      {k v : Json} {rest : List Field} {vs : List Json}
      (hkind : Json.get? e "kind" = some (.str "pair"))
      (hkeyEntry : Json.get? e "key" = some k)
      (hkey : FieldKey.Written key k) (htypeEntry : Json.get? e "type" = some v)
      (htype : Schema.Written type v)
      (hoptional : e.Gives "optional" (.bool optional) (.bool false))
      (hdeprecated : e.Gives "deprecated" (.bool deprecated) (.bool false))
      (hdescription : e.Gives "desc" description .null)
      (hattributes : AttributesUnder e attributes)
      (hrest : Field.WrittenAll rest vs) :
      Field.WrittenAll (.pair key type optional deprecated description
        attributes :: rest) (.obj e :: vs)
  | spread {type : Schema} {attributes : List Attribute}
      {e : Entries} {v : Json} {rest : List Field}
      {vs : List Json} (hkind : Json.get? e "kind" = some (.str "spread"))
      (htypeEntry : Json.get? e "type" = some v) (htype : Schema.Written type v)
      (hattributes : AttributesUnder e attributes)
      (hrest : Field.WrittenAll rest vs) :
      Field.WrittenAll (.spread type attributes :: rest) (.obj e :: vs)

end

theorem Json.depth_le_of_get? {e : Entries} {key : String} {v : Json}
    (h : Json.get? e key = some v) :
    v.depth ≤ Json.entriesDepth e := by
  induction e with
  | nil => cases h
  | cons entry rest ih =>
      obtain ⟨name, w⟩ := entry
      rw [Json.entriesDepth]
      rw [Json.get?, List.lookup_cons] at h
      split at h
      · cases h
        exact Nat.le_max_left _ _
      · exact Nat.le_trans (ih h) (Nat.le_max_right _ _)

theorem Json.itemsDepth_cons_le {v : Json} {vs : List Json} {n : Nat} :
    Json.itemsDepth (v :: vs) ≤ n ↔ v.depth ≤ n ∧ Json.itemsDepth vs ≤ n := by
  rw [Json.itemsDepth, Nat.max_le]

theorem Json.entriesDepth_lt {e : Entries} {n : Nat} :
    Json.entriesDepth e < n ↔ (Json.obj e).depth ≤ n := by
  rw [Json.depth]
  rfl

theorem Entries.Gives.getD_eq {e : Entries} {key : String}
    {value fallback : Json} (h : e.Gives key value fallback) :
    (Json.get? e key).getD fallback = value := by
  rcases h with h | ⟨rfl, h⟩
  · rw [h]
    rfl
  · rw [h]
    rfl

theorem Entries.Gives.entry_eq {e : Entries} {key : String} {value : Json}
    (h : e.Gives key value .null) :
    Json.getD e key = value :=
  h.getD_eq

theorem Entries.Gives.isSet_eq {e : Entries} {key : String} {b : Bool}
    (h : e.Gives key (.bool b) (.bool false)) :
    (Json.getD e key).isSet = b := by
  rcases h with h | ⟨hb, h⟩
  · rw [Json.getD, h]
    rfl
  · cases hb
    rw [Json.getD, h]
    rfl

theorem Range.Under.read {e : Entries} {key : String} {range : Option Range}
    (h : Range.Under e key range) :
    Range.read (Json.getD e key) = .ok range := by
  cases h with
  | omitted h => rw [h.entry_eq, Range.read]
  | given h hkind hlow hhigh =>
      rw [Json.getD, h, Option.getD_some, Range.read, hkind.getD_eq,
        hlow.entry_eq, hhigh.entry_eq]

section

variable {path : Option String}

theorem ok_bind {α β : Type} {a : α} {f : α → Except Fault β} :
    (Except.ok a >>= f) = f a :=
  rfl

theorem liftM_walk {vs : List Json} :
    (liftM (Json.arr vs).walk : Except Fault (List Json)) = .ok vs :=
  rfl

theorem liftM_asEntries {e : Entries} :
    (liftM (Json.obj e).asEntries : Except Fault Entries) = .ok e :=
  rfl

theorem needed_obj {e : Entries} {key : String} {v : Json}
    (h : Json.get? e key = some v) (kind : String) :
    needed kind path (.obj e) key = .ok v := by
  rw [needed, h]

theorem Accessor.Written.read {step : Accessor} {v : Json}
    (h : Accessor.Written step v) :
    Accessor.read path v = .ok step := by
  cases h with
  | property name => rfl
  | keyword h =>
      rw [Accessor.read]
      · simp only [needed, h]
        rfl
      · exact fun name h => nomatch h

theorem Index.Written.read {index : Index} {v : Json}
    (h : Index.Written index v) :
    Index.read path v = .ok index := by
  cases h with
  | @static value e hkind hvalue =>
      have hword : Json.getD e "kind" = .str "static" := by
        rw [Json.getD, hkind, Option.getD_some]
      rw [Index.read]
      change (if (Json.getD e "kind").isText "static" = true then _ else _) = _
      rw [hword, if_pos (by decide), needed, hvalue]
      rfl
  | @dynamic steps e vs hkind haccessor hsteps =>
      have hword : Json.getD e "kind" = .str "dynamic" := by
        rw [Json.getD, hkind, Option.getD_some]
      have hread : vs.mapM (Accessor.read path) = .ok steps :=
        mapM_eq_ok_iff.mpr (hsteps.flip.imp fun _ _ h => h.read)
      rw [Index.read]
      change (if (Json.getD e "kind").isText "static" = true then _ else _) = _
      rw [hword, if_neg (by decide), if_pos (by decide), needed, haccessor]
      change (do return Index.dynamic (← vs.mapM (Accessor.read path)) :
        Except Fault Index) = _
      rw [hread]
      rfl

theorem Index.Under.read {e : Entries} {indices : List Index}
    (h : Index.Under e indices) (kind : String) :
    Index.readAll kind path (.obj e) = .ok indices := by
  cases h with
  | @given vs h hindices =>
      rw [Index.readAll, needed, h]
      change vs.mapM (Index.read path) = _
      exact mapM_eq_ok_iff.mpr (hindices.flip.imp fun _ _ h => h.read)

theorem ParamsUnder.read {e : Entries} {params : List Json}
    (h : ParamsUnder e params) :
    (do
      (← ((Json.get? e "typeParams").getD (.arr [])).walk).mapM
        (needed "template" path · "path") :
      Except Fault (List Json)) = .ok params := by
  cases h with
  | omitted h =>
      rw [h]
      rfl
  | @given _ vs h hparams =>
      rw [h]
      change vs.mapM (needed "template" path · "path") = _
      refine mapM_eq_ok_iff.mpr (hparams.flip.imp ?_)
      rintro _ _ ⟨hpath⟩
      exact needed_obj hpath _

namespace Schema

def readAttribute (fuel : Nat) (path : Option String) (item : Json) :
    Except Fault Attribute := do
  let name ← needed "attribute" path item "name"
  return .mk name (← readAttributeValue fuel path (item.entry "value"))

def readArgument (fuel : Nat) (path : Option String) (a : String × Json) :
    Except Fault (String × AttributeValue) := do
  return (a.1, ← readAttributeValue fuel path a.2)

def readEnumValue (fuel : Nat) (path : Option String) (v : Json) :
    Except Fault EnumValue := do
  let identifier ← needed "enum" path v "identifier"
  let value ← needed "enum" path v "value"
  let attributes ← readAttributes fuel path (v.entry "attributes")
  return .mk identifier value (v.entry "desc") attributes

def readKey (fuel : Nat) (path : Option String) : Json → Except Fault FieldKey
  | .str name => pure (.name name)
  | key => FieldKey.type <$> readWith fuel path key

variable {fuel : Nat}

theorem readAttributes_null : readAttributes fuel path .null = .ok [] := by
  cases fuel <;> rfl

theorem readAttributes_arr (vs : List Json) :
    readAttributes (fuel + 1) path (.arr vs) =
      vs.mapM (readAttribute fuel path) := by
  cases vs <;> rfl

theorem readAttributeValue_tree {e : Entries}
    (hkind : Json.get? e "kind" = some (.str "tree")) :
    readAttributeValue (fuel + 1) path (.obj e) = do
      let arguments ← ((Json.get? e "values").getD (.obj [])).asEntries
      return .tree (← arguments.mapM (readArgument fuel path)) := by
  have hword : Json.entry (.obj e) "kind" = .str "tree" :=
    congrArg (Option.getD · Json.null) hkind
  rw [readAttributeValue, hword]
  rfl

theorem readAttributeValue_type {e : Entries} {kind : String}
    (hkind : Json.get? e "kind" = some (.str kind)) (hother : kind ≠ "tree") :
    readAttributeValue (fuel + 1) path (.obj e) =
      do return .type (← readWith fuel path (.obj e)) := by
  have hword : Json.entry (.obj e) "kind" = .str kind :=
    congrArg (Option.getD · Json.null) hkind
  have htext : ¬ (Json.str kind).isText "tree" := by
    simpa [Json.isText] using hother
  rw [readAttributeValue, hword]
  exact if_neg htext

theorem readAttribute_obj {e : Entries} {name : Json}
    (hname : Json.get? e "name" = some name) :
    readAttribute fuel path (.obj e) = do
      return .mk name
        (← readAttributeValue fuel path (Json.getD e "value")) := by
  rw [readAttribute, needed_obj hname]
  rfl

theorem readEnumValue_obj {e : Entries}
    {identifier value : Json} {attributes : List Attribute}
    (hidentifier : Json.get? e "identifier" = some identifier)
    (hvalue : Json.get? e "value" = some value)
    (hattributes : readAttributes fuel path (Json.getD e "attributes") =
      .ok attributes) :
    readEnumValue fuel path (.obj e) =
      .ok (.mk identifier value (Json.getD e "desc") attributes) := by
  rw [readEnumValue, needed_obj hidentifier, needed_obj hvalue]
  change (do
    return EnumValue.mk _ _ _
      (← readAttributes fuel path (Json.getD e "attributes")) :
    Except Fault EnumValue) = _
  rw [hattributes]
  rfl

theorem readField_pair {e : Entries}
    {key type : Json} {attributes : List Attribute}
    (hkind : Json.get? e "kind" = some (.str "pair"))
    (hkey : Json.get? e "key" = some key)
    (htype : Json.get? e "type" = some type)
    (hattributes : readAttributes fuel path (Json.getD e "attributes") =
      .ok attributes) :
    readField (fuel + 1) path (.obj e) = do
      let key ← readKey fuel path key
      let type ← readWith fuel path type
      return .pair key type (Json.getD e "optional").isSet
        (Json.getD e "deprecated").isSet (Json.getD e "desc") attributes := by
  have hword : Json.getD e "kind" = .str "pair" := by
    rw [Json.getD, hkind, Option.getD_some]
  rw [readField]
  simp only [liftM_asEntries, ok_bind, hattributes, hword, needed_obj hkey,
    needed_obj htype]
  cases key <;> rfl

theorem readField_spread {e : Entries}
    {type : Json} {attributes : List Attribute}
    (hkind : Json.get? e "kind" = some (.str "spread"))
    (htype : Json.get? e "type" = some type)
    (hattributes : readAttributes fuel path (Json.getD e "attributes") =
      .ok attributes) :
    readField (fuel + 1) path (.obj e) = do
      return .spread (← readWith fuel path type) attributes := by
  have hword : Json.getD e "kind" = .str "spread" := by
    rw [Json.getD, hkind, Option.getD_some]
  rw [readField]
  simp only [liftM_asEntries, ok_bind, hattributes, hword, needed_obj htype]
  rfl

theorem readAttributeValue_null :
    readAttributeValue fuel path .null = .ok .absent := by
  cases fuel <;> rfl

-- The equation is large. Made here, it is there for all the kinds below, which
-- say what each asks for once the attributes are read.
attribute [local simp] readWith

section

variable {e : Entries} {attributes : List Attribute}
  (hattributes : readAttributes fuel path (Json.getD e "attributes") =
    .ok attributes)

include hattributes

theorem readWith_any (hkind : Json.get? e "kind" = some (.str "any")) :
    readWith (fuel + 1) path (.obj e) = .ok (.any attributes) := by
  rw [readWith]
  simp only [hkind, hattributes]
  rfl

theorem readWith_unchecked (hkind : Json.get? e "kind" = some (.str "unsafe")) :
    readWith (fuel + 1) path (.obj e) = .ok (.unchecked attributes) := by
  rw [readWith]
  simp only [hkind, hattributes]
  rfl

theorem readWith_boolean (hkind : Json.get? e "kind" = some (.str "boolean")) :
    readWith (fuel + 1) path (.obj e) = .ok (.boolean attributes) := by
  rw [readWith]
  simp only [hkind, hattributes]
  rfl

theorem readWith_string {length : Option Range}
    (hkind : Json.get? e "kind" = some (.str "string"))
    (hlength : Range.read (Json.getD e "lengthRange") = .ok length) :
    readWith (fuel + 1) path (.obj e) = .ok (.string length attributes) := by
  rw [readWith]
  simp only [hkind, hattributes, hlength]
  rfl

theorem readWith_numeric {kind : NumericKind} {range : Option Range}
    (hkind : Json.get? e "kind" = some (.str kind.word))
    (hrange : Range.read (Json.getD e "valueRange") = .ok range) :
    readWith (fuel + 1) path (.obj e) =
      .ok (.numeric kind range attributes) := by
  rw [readWith]
  cases kind <;>
    simp only [hkind, hattributes, NumericKind.word, hrange] <;> rfl

theorem readWith_array {kind : ArrayKind} {range length : Option Range}
    (hkind : Json.get? e "kind" = some (.str kind.word))
    (hrange : Range.read (Json.getD e "valueRange") = .ok range)
    (hlength : Range.read (Json.getD e "lengthRange") = .ok length) :
    readWith (fuel + 1) path (.obj e) =
      .ok (.array kind range length attributes) := by
  rw [readWith]
  cases kind <;>
    simp only [hkind, hattributes, ArrayKind.word, hrange, hlength] <;> rfl

theorem readWith_list {item : Schema} {length : Option Range} {v : Json}
    (hkind : Json.get? e "kind" = some (.str "list"))
    (hentry : Json.get? e "item" = some v)
    (hitem : readWith fuel path v = .ok item)
    (hlength : Range.read (Json.getD e "lengthRange") = .ok length) :
    readWith (fuel + 1) path (.obj e) = .ok (.list item length attributes) := by
  rw [readWith]
  simp only [hkind, hattributes, needed_obj hentry, ok_bind, hitem, hlength]
  rfl

theorem readWith_tuple {items : List Schema} {vs : List Json}
    (hkind : Json.get? e "kind" = some (.str "tuple"))
    (hentry : Json.get? e "items" = some (.arr vs))
    (hitems : vs.mapM (readWith fuel path) = .ok items) :
    readWith (fuel + 1) path (.obj e) = .ok (.tuple items attributes) := by
  rw [readWith]
  simp only [hkind, hattributes, needed_obj hentry, ok_bind, liftM_walk, hitems]
  rfl

theorem readWith_enum {kind : Json} {values : List EnumValue} {vs : List Json}
    (hkind : Json.get? e "kind" = some (.str "enum"))
    (hword : (Json.get? e "enumKind").getD (.str "string") = kind)
    (hentry : Json.get? e "values" = some (.arr vs))
    (hvalues : vs.mapM (readEnumValue fuel path) = .ok values) :
    readWith (fuel + 1) path (.obj e) = .ok (.enum kind values attributes) := by
  rw [readWith]
  simp only [hkind, hattributes, needed_obj hentry, ok_bind, liftM_walk, hword]
  change (do
    return Schema.enum kind (← vs.mapM (readEnumValue fuel path)) attributes :
    Except Fault Schema) = _
  rw [hvalues]
  rfl

theorem readWith_literal {kind value : Json} {literal : Entries}
    (hkind : Json.get? e "kind" = some (.str "literal"))
    (hentry : Json.get? e "value" = some (.obj literal))
    (hword : Json.get? literal "kind" = some kind)
    (hvalue : Json.get? literal "value" = some value) :
    readWith (fuel + 1) path (.obj e) =
      .ok (.literal kind value attributes) := by
  rw [readWith]
  simp only [hkind, hattributes, needed_obj hentry, ok_bind, needed_obj hword,
    needed_obj hvalue]
  rfl

theorem readWith_struct {fields : List Field} {vs : List Json}
    (hkind : Json.get? e "kind" = some (.str "struct"))
    (hentry : Json.get? e "fields" = some (.arr vs))
    (hfields : vs.mapM (readField fuel path) = .ok fields) :
    readWith (fuel + 1) path (.obj e) = .ok (.struct fields attributes) := by
  rw [readWith]
  simp only [hkind, hattributes, needed_obj hentry, ok_bind,
    liftM_walk, hfields]
  rfl

theorem readWith_reference {target : Json}
    (hkind : Json.get? e "kind" = some (.str "reference"))
    (htarget : Json.getD e "path" = target) :
    readWith (fuel + 1) path (.obj e) = .ok (.reference target attributes) := by
  rw [readWith]
  simp only [hkind, hattributes, htarget]
  rfl

theorem readWith_concrete {child : Schema} {args : List Schema} {v : Json}
    (hkind : Json.get? e "kind" = some (.str "concrete"))
    (hentry : Json.get? e "child" = some v)
    (hchild : readWith fuel path v = .ok child)
    (hargs : (do
      (← ((Json.get? e "typeArgs").getD (.arr [])).walk).mapM
        (readWith fuel path) :
      Except Fault (List Schema)) = .ok args) :
    readWith (fuel + 1) path (.obj e) =
      .ok (.concrete child args attributes) := by
  rw [readWith]
  simp only [hkind, hattributes, needed_obj hentry, ok_bind, hchild]
  rw [← bind_assoc, hargs]
  rfl

theorem readWith_template {child : Schema} {params : List Json} {v : Json}
    (hkind : Json.get? e "kind" = some (.str "template"))
    (hentry : Json.get? e "child" = some v)
    (hchild : readWith fuel path v = .ok child)
    (hparams : (do
      (← ((Json.get? e "typeParams").getD (.arr [])).walk).mapM
        (needed "template" path · "path") :
      Except Fault (List Json)) = .ok params) :
    readWith (fuel + 1) path (.obj e) =
      .ok (.template child params attributes) := by
  rw [readWith]
  simp only [hkind, hattributes, needed_obj hentry, ok_bind, hchild]
  rw [← bind_assoc, hparams]
  rfl

theorem readWith_dispatcher {registry : Json} {indices : List Index}
    (hkind : Json.get? e "kind" = some (.str "dispatcher"))
    (hregistry : Json.get? e "registry" = some registry)
    (hindices : Index.readAll "dispatcher" path (.obj e) = .ok indices) :
    readWith (fuel + 1) path (.obj e) =
      .ok (.dispatcher registry indices attributes) := by
  rw [readWith]
  simp only [hkind, hattributes, needed_obj hregistry, ok_bind, hindices]
  rfl

theorem readWith_indexed {child : Schema} {indices : List Index} {v : Json}
    (hkind : Json.get? e "kind" = some (.str "indexed"))
    (hentry : Json.get? e "child" = some v)
    (hchild : readWith fuel path v = .ok child)
    (hindices : Index.readAll "indexed" path (.obj e) = .ok indices) :
    readWith (fuel + 1) path (.obj e) =
      .ok (.indexed child indices attributes) := by
  rw [readWith]
  simp only [hkind, hattributes, needed_obj hentry, ok_bind, hchild, hindices]
  rfl

theorem readWith_union {members : List Schema} {vs : List Json}
    (hkind : Json.get? e "kind" = some (.str "union"))
    (hentry : Json.get? e "members" = some (.arr vs))
    (hmembers : vs.mapM (readWith fuel path) = .ok members) :
    readWith (fuel + 1) path (.obj e) = .ok (.union members attributes) := by
  rw [readWith]
  simp only [hkind, hattributes, needed_obj hentry, ok_bind,
    liftM_walk, hmembers]
  rfl

end

end Schema

theorem Schema.Written.exists_entries {t : Schema} {v : Json}
    (h : Schema.Written t v) :
    ∃ e, v = .obj e ∧ Json.get? e "kind" = some (.str t.kind) := by
  cases h with
  | mk hkind _ _ => exact ⟨_, rfl, hkind⟩

theorem Schema.kind_ne_tree (t : Schema) : t.kind ≠ "tree" := by
  cases t with
  | numeric kind range attributes =>
      rw [Schema.kind]
      cases kind <;> decide
  | array kind range length attributes =>
      rw [Schema.kind]
      cases kind <;> decide
  | _ =>
      rw [Schema.kind]
      decide

theorem exists_fuel {e : Entries} {fuel : Nat} (h : (Json.obj e).depth ≤ fuel) :
    ∃ f, fuel = f + 1 ∧ Json.entriesDepth e ≤ f := by
  rw [Json.depth] at h
  exact ⟨fuel - 1, by omega, by omega⟩

theorem depth_le_of_entry {e : Entries} {key : String} {v : Json} {fuel : Nat}
    (h : Json.get? e key = some v) (hfuel : Json.entriesDepth e ≤ fuel) :
    v.depth ≤ fuel :=
  Nat.le_trans (Json.depth_le_of_get? h) hfuel

theorem itemsDepth_lt_of_entry {e : Entries} {key : String}
    {vs : List Json} {fuel : Nat} (h : Json.get? e key = some (.arr vs))
    (hfuel : Json.entriesDepth e ≤ fuel) :
    Json.itemsDepth vs < fuel := by
  have hdepth := depth_le_of_entry h hfuel
  rw [Json.depth] at hdepth
  omega

theorem itemsDepth_le_of_entry {e : Entries} {key : String}
    {vs : List Json} {fuel : Nat} (h : Json.get? e key = some (.arr vs))
    (hfuel : Json.entriesDepth e ≤ fuel) :
    Json.itemsDepth vs ≤ fuel :=
  Nat.le_of_lt (itemsDepth_lt_of_entry h hfuel)

-- The recursion is on how the type is written. The fuel only has to cover the
-- document.
mutual

theorem Schema.Written.read_eq :
    ∀ {t : Schema} {v : Json}, Schema.Written t v → ∀ {fuel : Nat},
    v.depth ≤ fuel → Schema.readWith fuel path v = .ok t
  | _, _, .mk hkind hattributes hbody, _, hdepth => by
      obtain ⟨f, rfl, hf⟩ := exists_fuel hdepth
      exact hbody.read_eq hf hkind (hattributes.read_eq hf)

/-- Loading finds the kind, and then what the kind asks for. -/
theorem Schema.Body.read_eq :
    ∀ {t : Schema} {e : Entries}, Schema.Body t e → ∀ {f : Nat},
    Json.entriesDepth e ≤ f → Json.get? e "kind" = some (.str t.kind) →
    Schema.readAttributes f path (Json.getD e "attributes") = .ok t.attributes →
      Schema.readWith (f + 1) path (.obj e) = .ok t
  | _, _, .any, _, _, hkind, hattributes =>
      Schema.readWith_any hattributes hkind
  | _, _, .unchecked, _, _, hkind, hattributes =>
      Schema.readWith_unchecked hattributes hkind
  | _, _, .boolean, _, _, hkind, hattributes =>
      Schema.readWith_boolean hattributes hkind
  | _, _, .string hlength, _, _, hkind, hattributes =>
      Schema.readWith_string hattributes hkind hlength.read
  | _, _, .numeric hrange, _, _, hkind, hattributes =>
      Schema.readWith_numeric hattributes hkind hrange.read
  | _, _, .array hrange hlength, _, _, hkind, hattributes =>
      Schema.readWith_array hattributes hkind hrange.read hlength.read
  | _, _, .list hentry hitem hlength, _, hf, hkind, hattributes =>
      Schema.readWith_list hattributes hkind hentry
        (hitem.read_eq (depth_le_of_entry hentry hf)) hlength.read
  | _, _, .tuple hentry hitems, _, hf, hkind, hattributes =>
      Schema.readWith_tuple hattributes hkind hentry
        (hitems.read_eq (itemsDepth_le_of_entry hentry hf))
  | _, _, .enum hword hentry hvalues, _, hf, hkind, hattributes =>
      Schema.readWith_enum hattributes hkind hword.getD_eq hentry
        (hvalues.read_eq (itemsDepth_le_of_entry hentry hf))
  | _, _, .literal hentry hword hvalue, _, _, hkind, hattributes =>
      Schema.readWith_literal hattributes hkind hentry hword hvalue
  | _, _, .struct hentry hfields, _, hf, hkind, hattributes =>
      Schema.readWith_struct hattributes hkind hentry
        (hfields.read_eq (itemsDepth_le_of_entry hentry hf))
  | _, _, .reference hpath, _, _, hkind, hattributes =>
      Schema.readWith_reference hattributes hkind hpath.entry_eq
  | _, _, .concrete hentry hchild hargs, _, hf, hkind, hattributes =>
      Schema.readWith_concrete hattributes hkind hentry
        (hchild.read_eq (depth_le_of_entry hentry hf)) (hargs.read_eq hf)
  | _, _, .template hentry hchild hparams, _, hf, hkind, hattributes =>
      Schema.readWith_template hattributes hkind hentry
        (hchild.read_eq (depth_le_of_entry hentry hf)) hparams.read
  | _, _, .dispatcher hregistry hindices, _, _, hkind, hattributes =>
      Schema.readWith_dispatcher hattributes hkind hregistry (hindices.read _)
  | _, _, .indexed hentry hchild hindices, _, hf, hkind, hattributes =>
      Schema.readWith_indexed hattributes hkind hentry
        (hchild.read_eq (depth_le_of_entry hentry hf)) (hindices.read _)
  | _, _, .union hentry hmembers, _, hf, hkind, hattributes =>
      Schema.readWith_union hattributes hkind hentry
        (hmembers.read_eq (itemsDepth_le_of_entry hentry hf))

theorem Schema.WrittenAll.read_eq :
    ∀ {ts : List Schema} {vs : List Json}, Schema.WrittenAll ts vs →
    ∀ {fuel : Nat}, Json.itemsDepth vs ≤ fuel →
    vs.mapM (Schema.readWith fuel path) = .ok ts
  | _, _, .nil, _, _ => rfl
  | _, _, .cons ht hrest, _, hdepth => by
      obtain ⟨hhead, htail⟩ := Json.itemsDepth_cons_le.mp hdepth
      rw [List.mapM_cons, ht.read_eq hhead, hrest.read_eq htail]
      rfl

theorem ArgsUnder.read_eq : ∀ {e : Entries} {args : List Schema},
    ArgsUnder e args → ∀ {f : Nat}, Json.entriesDepth e ≤ f →
      (do
        (← ((Json.get? e "typeArgs").getD (.arr [])).walk).mapM
          (Schema.readWith f path) :
        Except Fault (List Schema)) = .ok args
  | _, _, .omitted h, _, _ => by
      rw [h]
      rfl
  | _, _, .given h hargs, _, hf => by
      rw [h, Option.getD_some]
      exact hargs.read_eq (itemsDepth_le_of_entry h hf)

theorem AttributesUnder.read_eq : ∀ {e : Entries} {attributes : List Attribute},
    AttributesUnder e attributes →
    ∀ {f : Nat}, Json.entriesDepth e ≤ f →
      Schema.readAttributes f path (Json.getD e "attributes") = .ok attributes
  | _, _, .omitted h, _, _ => by
      rw [Json.getD, h]
      exact Schema.readAttributes_null
  | _, _, .given h hattributes, f, hf => by
      have hdepth := itemsDepth_lt_of_entry h hf
      obtain ⟨f, rfl⟩ : ∃ f', f = f' + 1 := ⟨f - 1, by omega⟩
      rw [Json.getD, h, Option.getD_some, Schema.readAttributes_arr,
        hattributes.read_eq (by omega)]

theorem Attribute.WrittenAll.read_eq :
    ∀ {attributes : List Attribute} {vs : List Json},
    Attribute.WrittenAll attributes vs →
      ∀ {fuel : Nat}, Json.itemsDepth vs ≤ fuel →
      vs.mapM (Schema.readAttribute fuel path) = .ok attributes
  | _, _, .nil, _, _ => rfl
  | _, _, .bare hname hvalue hrest, _, hdepth => by
      obtain ⟨-, htail⟩ := Json.itemsDepth_cons_le.mp hdepth
      rw [List.mapM_cons, Schema.readAttribute_obj hname, Json.getD, hvalue,
        Option.getD_none, Schema.readAttributeValue_null, hrest.read_eq htail]
      rfl
  | _, _, .cons hname hentry hvalue hrest, _, hdepth => by
      obtain ⟨hhead, htail⟩ := Json.itemsDepth_cons_le.mp hdepth
      have hdeep := Nat.lt_of_le_of_lt (Json.depth_le_of_get? hentry)
        (Json.entriesDepth_lt.mpr hhead)
      have hread := hvalue.read_eq hdeep
      rw [List.mapM_cons, Schema.readAttribute_obj hname, Json.getD, hentry,
        Option.getD_some, hread, hrest.read_eq htail]
      rfl

theorem AttributeValue.Written.read_eq :
    ∀ {value : AttributeValue} {v : Json}, AttributeValue.Written value v →
    ∀ {fuel : Nat}, v.depth < fuel →
    Schema.readAttributeValue fuel path v = .ok value
  | _, _, .absent, _, _ => Schema.readAttributeValue_null
  | .type t, _, .type ht, fuel, hdepth => by
      obtain ⟨f, rfl⟩ : ∃ f, fuel = f + 1 := ⟨fuel - 1, by omega⟩
      have hread := ht.read_eq (Nat.le_of_lt_succ hdepth)
      obtain ⟨e, rfl, hkind⟩ := ht.exists_entries
      rw [Schema.readAttributeValue_type hkind t.kind_ne_tree, hread]
      rfl
  | _, _, .empty hkind hvalues, fuel, hdepth => by
      obtain ⟨f, rfl⟩ : ∃ f, fuel = f + 1 := ⟨fuel - 1, by omega⟩
      rw [Schema.readAttributeValue_tree hkind, hvalues]
      rfl
  | _, _, .tree hkind hvalues harguments, fuel, hdepth => by
      have hv := Json.depth_le_of_get? hvalues
      rw [Json.depth] at hdepth hv
      obtain ⟨f, rfl⟩ : ∃ f, fuel = f + 1 := ⟨fuel - 1, by omega⟩
      rw [Schema.readAttributeValue_tree hkind, hvalues, Option.getD_some,
        liftM_asEntries, ok_bind, harguments.read_eq (by omega)]
      rfl

theorem AttributeValue.WrittenAll.read_eq :
    ∀ {arguments : List (String × AttributeValue)} {values : Entries},
    AttributeValue.WrittenAll arguments values →
      ∀ {fuel : Nat}, Json.entriesDepth values < fuel →
      values.mapM (Schema.readArgument fuel path) = .ok arguments
  | _, _, .nil, _, _ => rfl
  | _, _, .cons hvalue hrest, _, hdepth => by
      rw [Json.entriesDepth] at hdepth
      rw [List.mapM_cons, hrest.read_eq (by omega), Schema.readArgument,
        hvalue.read_eq (by omega)]
      rfl

theorem EnumValue.WrittenAll.read_eq :
    ∀ {values : List EnumValue} {vs : List Json},
    EnumValue.WrittenAll values vs → ∀ {fuel : Nat}, Json.itemsDepth vs ≤ fuel →
      vs.mapM (Schema.readEnumValue fuel path) = .ok values
  | _, _, .nil, _, _ => rfl
  | _, _, .cons hidentifier hvalue hdescription hattributes hrest, _,
      hdepth => by
      obtain ⟨hhead, htail⟩ := Json.itemsDepth_cons_le.mp hdepth
      have hread :=
        hattributes.read_eq (Nat.le_of_lt (Json.entriesDepth_lt.mpr hhead))
      rw [List.mapM_cons, Schema.readEnumValue_obj hidentifier hvalue hread,
        hdescription.entry_eq, hrest.read_eq htail]
      rfl

theorem FieldKey.Written.read_eq :
    ∀ {key : FieldKey} {k : Json}, FieldKey.Written key k → ∀ {fuel : Nat},
    k.depth ≤ fuel → Schema.readKey fuel path k = .ok key
  | _, _, .name _, _, _ => rfl
  | _, _, .type ht, _, hdepth => by
      have hread := ht.read_eq hdepth
      obtain ⟨e, rfl, -⟩ := ht.exists_entries
      rw [Schema.readKey, hread]
      · rfl
      · exact fun name h => nomatch h

theorem Field.WrittenAll.read_eq :
    ∀ {fields : List Field} {vs : List Json}, Field.WrittenAll fields vs →
    ∀ {fuel : Nat}, Json.itemsDepth vs ≤ fuel →
    vs.mapM (Schema.readField fuel path) = .ok fields
  | _, _, .nil, _, _ => rfl
  | _, _, .pair hkind hkeyEntry hkey htypeEntry htype hoptional hdeprecated
      hdescription hattributes hrest, _, hdepth => by
      obtain ⟨hhead, htail⟩ := Json.itemsDepth_cons_le.mp hdepth
      rw [List.mapM_cons, hrest.read_eq htail]
      obtain ⟨f, rfl, hf⟩ := exists_fuel hhead
      rw [Schema.readField_pair hkind hkeyEntry htypeEntry
        (hattributes.read_eq hf), hkey.read_eq (depth_le_of_entry hkeyEntry hf),
        htype.read_eq (depth_le_of_entry htypeEntry hf),
        hoptional.isSet_eq, hdeprecated.isSet_eq, hdescription.entry_eq]
      rfl
  | _, _, .spread hkind htypeEntry htype hattributes hrest, _, hdepth => by
      obtain ⟨hhead, htail⟩ := Json.itemsDepth_cons_le.mp hdepth
      rw [List.mapM_cons, hrest.read_eq htail]
      obtain ⟨f, rfl, hf⟩ := exists_fuel hhead
      rw [Schema.readField_spread hkind htypeEntry (hattributes.read_eq hf),
        htype.read_eq (depth_le_of_entry htypeEntry hf)]
      rfl

end

end

def Range.write : Option Range → Json
  | none => .null
  | some r => .obj [("kind", r.kind), ("min", r.low), ("max", r.high)]

theorem Range.under_of_write {e : Entries} {key : String} {range : Option Range}
    (h : Json.get? e key = some (Range.write range)) :
    Range.Under e key range := by
  cases range with
  | none => exact .omitted (.inl h)
  | some r => exact .given h (.inl rfl) (.inl rfl) (.inl rfl)

theorem Accessor.exists_written (step : Accessor) :
    ∃ v, Accessor.Written step v := by
  cases step with
  | property name => exact ⟨_, .property name⟩
  | keyword word => exact ⟨.obj [("keyword", word)], .keyword rfl⟩

theorem exists_forall₂ {α β : Type} {R : α → β → Prop} (h : ∀ a, ∃ b, R a b)
    (as : List α) :
    ∃ bs, List.Forall₂ R as bs := by
  induction as with
  | nil => exact ⟨[], .nil⟩
  | cons a rest ih =>
      obtain ⟨b, hb⟩ := h a
      obtain ⟨bs, hbs⟩ := ih
      exact ⟨b :: bs, .cons hb hbs⟩

theorem Param.exists_written (path : Json) : ∃ v, Param.Written path v :=
  ⟨.obj [("path", path)], .mk rfl⟩

theorem Index.exists_written (index : Index) : ∃ v, Index.Written index v := by
  cases index with
  | static value =>
      exact ⟨.obj [("kind", .str "static"), ("value", value)], .static rfl rfl⟩
  | dynamic steps =>
      obtain ⟨vs, hvs⟩ := exists_forall₂ Accessor.exists_written steps
      exact ⟨.obj [("kind", .str "dynamic"), ("accessor", .arr vs)],
        .dynamic rfl rfl hvs⟩

/-- A type is written once its attributes are, with the kind and the
attributes first. -/
theorem Schema.Written.of_own {t : Schema} {as : List Json} (own : Entries)
    (has : Attribute.WrittenAll t.attributes as)
    (hbody : Schema.Body t
      (("kind", .str t.kind) :: ("attributes", .arr as) :: own)) :
    Schema.Written t
      (.obj (("kind", .str t.kind) :: ("attributes", .arr as) :: own)) :=
  .mk rfl (.given rfl has) hbody

mutual

theorem Schema.exists_written : ∀ t : Schema, ∃ v, Schema.Written t v
  | .any attributes =>
      have ⟨_, has⟩ := Attribute.exists_writtenAll attributes
      ⟨_, .of_own [] has .any⟩
  | .unchecked attributes =>
      have ⟨_, has⟩ := Attribute.exists_writtenAll attributes
      ⟨_, .of_own [] has .unchecked⟩
  | .boolean attributes =>
      have ⟨_, has⟩ := Attribute.exists_writtenAll attributes
      ⟨_, .of_own [] has .boolean⟩
  | .string length attributes =>
      have ⟨_, has⟩ := Attribute.exists_writtenAll attributes
      ⟨_, .of_own [("lengthRange", Range.write length)] has
        (.string (Range.under_of_write rfl))⟩
  | .numeric _ range attributes =>
      have ⟨_, has⟩ := Attribute.exists_writtenAll attributes
      ⟨_, .of_own [("valueRange", Range.write range)] has
        (.numeric (Range.under_of_write rfl))⟩
  | .array _ range length attributes =>
      have ⟨_, has⟩ := Attribute.exists_writtenAll attributes
      ⟨_, .of_own [("valueRange", Range.write range),
          ("lengthRange", Range.write length)] has
        (.array (Range.under_of_write rfl) (Range.under_of_write rfl))⟩
  | .list item length attributes =>
      have ⟨_, has⟩ := Attribute.exists_writtenAll attributes
      have ⟨v, hv⟩ := Schema.exists_written item
      ⟨_, .of_own [("item", v), ("lengthRange", Range.write length)] has
        (.list rfl hv (Range.under_of_write rfl))⟩
  | .tuple items attributes =>
      have ⟨_, has⟩ := Attribute.exists_writtenAll attributes
      have ⟨vs, hvs⟩ := Schema.exists_writtenAll items
      ⟨_, .of_own [("items", .arr vs)] has (.tuple rfl hvs)⟩
  | .enum kind values attributes =>
      have ⟨_, has⟩ := Attribute.exists_writtenAll attributes
      have ⟨vs, hvs⟩ := EnumValue.exists_writtenAll values
      ⟨_, .of_own [("enumKind", kind),
        ("values", .arr vs)] has (.enum (.inl rfl) rfl hvs)⟩
  | .literal kind value attributes =>
      have ⟨_, has⟩ := Attribute.exists_writtenAll attributes
      ⟨_, .of_own [("value", .obj [("kind", kind), ("value", value)])] has
        (.literal rfl rfl rfl)⟩
  | .struct fields attributes =>
      have ⟨_, has⟩ := Attribute.exists_writtenAll attributes
      have ⟨vs, hvs⟩ := Field.exists_writtenAll fields
      ⟨_, .of_own [("fields", .arr vs)] has (.struct rfl hvs)⟩
  | .reference path attributes =>
      have ⟨_, has⟩ := Attribute.exists_writtenAll attributes
      ⟨_, .of_own [("path", path)] has (.reference (.inl rfl))⟩
  | .concrete child args attributes =>
      have ⟨_, has⟩ := Attribute.exists_writtenAll attributes
      have ⟨v, hv⟩ := Schema.exists_written child
      have ⟨vs, hvs⟩ := Schema.exists_writtenAll args
      ⟨_, .of_own [("child", v),
        ("typeArgs", .arr vs)] has (.concrete rfl hv (.given rfl hvs))⟩
  | .template child params attributes =>
      have ⟨_, has⟩ := Attribute.exists_writtenAll attributes
      have ⟨v, hv⟩ := Schema.exists_written child
      have ⟨vs, hvs⟩ := exists_forall₂ Param.exists_written params
      ⟨_, .of_own [("child", v),
        ("typeParams", .arr vs)] has (.template rfl hv (.given rfl hvs))⟩
  | .dispatcher registry indices attributes =>
      have ⟨_, has⟩ := Attribute.exists_writtenAll attributes
      have ⟨vs, hvs⟩ := exists_forall₂ Index.exists_written indices
      ⟨_, .of_own [("registry", registry),
        ("parallelIndices", .arr vs)] has (.dispatcher rfl (.given rfl hvs))⟩
  | .indexed child indices attributes =>
      have ⟨_, has⟩ := Attribute.exists_writtenAll attributes
      have ⟨v, hv⟩ := Schema.exists_written child
      have ⟨vs, hvs⟩ := exists_forall₂ Index.exists_written indices
      ⟨_, .of_own [("child", v),
        ("parallelIndices", .arr vs)] has (.indexed rfl hv (.given rfl hvs))⟩
  | .union members attributes =>
      have ⟨_, has⟩ := Attribute.exists_writtenAll attributes
      have ⟨vs, hvs⟩ := Schema.exists_writtenAll members
      ⟨_, .of_own [("members", .arr vs)] has (.union rfl hvs)⟩

theorem Schema.exists_writtenAll :
    ∀ ts : List Schema, ∃ vs, Schema.WrittenAll ts vs
  | [] => ⟨[], .nil⟩
  | t :: rest =>
      have ⟨v, hv⟩ := Schema.exists_written t
      have ⟨vs, hvs⟩ := Schema.exists_writtenAll rest
      ⟨v :: vs, .cons hv hvs⟩

theorem Attribute.exists_writtenAll :
    ∀ attributes : List Attribute, ∃ vs, Attribute.WrittenAll attributes vs
  | [] => ⟨[], .nil⟩
  | .mk name value :: rest =>
      have ⟨v, hv⟩ := AttributeValue.exists_written value
      have ⟨vs, hvs⟩ := Attribute.exists_writtenAll rest
      ⟨.obj [("name", name), ("value", v)] :: vs, .cons rfl rfl hv hvs⟩

theorem AttributeValue.exists_written :
    ∀ value : AttributeValue, ∃ v, AttributeValue.Written value v
  | .absent => ⟨.null, .absent⟩
  | .type t =>
      have ⟨v, hv⟩ := Schema.exists_written t
      ⟨v, .type hv⟩
  | .tree arguments =>
      have ⟨vs, hvs⟩ := AttributeValue.exists_writtenAll arguments
      ⟨.obj [("kind", .str "tree"), ("values", .obj vs)], .tree rfl rfl hvs⟩

theorem AttributeValue.exists_writtenAll :
    ∀ arguments : List (String × AttributeValue), ∃ vs,
      AttributeValue.WrittenAll arguments vs
  | [] => ⟨[], .nil⟩
  | (name, value) :: rest =>
      have ⟨v, hv⟩ := AttributeValue.exists_written value
      have ⟨vs, hvs⟩ := AttributeValue.exists_writtenAll rest
      ⟨(name, v) :: vs, .cons hv hvs⟩

theorem EnumValue.exists_writtenAll :
    ∀ values : List EnumValue, ∃ vs, EnumValue.WrittenAll values vs
  | [] => ⟨[], .nil⟩
  | .mk identifier value description attributes :: rest =>
      have ⟨as, has⟩ := Attribute.exists_writtenAll attributes
      have ⟨vs, hvs⟩ := EnumValue.exists_writtenAll rest
      ⟨.obj [("identifier", identifier), ("value", value),
          ("desc", description), ("attributes", .arr as)] :: vs,
        .cons rfl rfl (.inl rfl) (.given rfl has) hvs⟩

theorem FieldKey.exists_written : ∀ key : FieldKey, ∃ k, FieldKey.Written key k
  | .name name => ⟨.str name, .name name⟩
  | .type t =>
      have ⟨v, hv⟩ := Schema.exists_written t
      ⟨v, .type hv⟩

theorem Field.exists_writtenAll :
    ∀ fields : List Field, ∃ vs, Field.WrittenAll fields vs
  | [] => ⟨[], .nil⟩
  | .pair key type optional deprecated description attributes :: rest =>
      have ⟨k, hk⟩ := FieldKey.exists_written key
      have ⟨v, hv⟩ := Schema.exists_written type
      have ⟨as, has⟩ := Attribute.exists_writtenAll attributes
      have ⟨vs, hvs⟩ := Field.exists_writtenAll rest
      ⟨.obj [("kind", .str "pair"), ("key", k), ("type", v),
        ("optional", .bool optional), ("deprecated", .bool deprecated),
          ("desc", description), ("attributes", .arr as)] :: vs,
        .pair rfl rfl hk rfl hv (.inl rfl) (.inl rfl) (.inl rfl)
          (.given rfl has) hvs⟩
  | .spread type attributes :: rest =>
      have ⟨v, hv⟩ := Schema.exists_written type
      have ⟨as, has⟩ := Attribute.exists_writtenAll attributes
      have ⟨vs, hvs⟩ := Field.exists_writtenAll rest
      ⟨.obj [("kind", .str "spread"), ("type", v),
        ("attributes", .arr as)] :: vs, .spread rfl rfl hv (.given rfl has) hvs⟩

end

/-- Every type can be written, and each way to write it loads as that type,
wherever it is loaded from. -/
theorem Schema.read_written (t : Schema) :
    (∃ v, Schema.Written t v) ∧ ∀ v, Schema.Written t v →
      ∀ path, Schema.read path v = .ok t := by
  refine ⟨Schema.exists_written t, fun v hv path => ?_⟩
  rw [Schema.read]
  exact hv.read_eq (Nat.le_refl _)

namespace Entity

def tags : Schema :=
  .list (.string none []) (some ⟨.int 0, .int 1, .null⟩) []

def tagsJson : Json :=
  .obj [("kind", .str "list"), ("lengthRange", .obj [("min", .int 1)]),
    ("item", .obj [("kind", .str "string"), ("lengthRange", .null)])]

/-- Two named arguments, the first without a value. -/
def versions : AttributeValue :=
  .tree [("to", .absent),
    ("from", .type (.literal (.str "string") (.str "1.20") []))]

def versionsJson : Json :=
  .obj [("kind", .str "tree"), ("values", .obj [("to", .null),
    ("from", .obj [("kind", .str "literal"),
      ("value", .obj [("kind", .str "string"), ("value", .str "1.20")])])])]

def own : Schema :=
  .dispatcher (.str "minecraft:entity")
    [.dynamic [.keyword (.str "parent"), .property "id"]] []

def ownJson : Json :=
  .obj [("kind", .str "dispatcher"), ("registry", .str "minecraft:entity"),
    ("parallelIndices", .arr [.obj [("kind", .str "dynamic"),
      ("accessor", .arr [.obj [("keyword", .str "parent")], .str "id"])]])]

def schema : Schema :=
  .struct [.pair (.name "Tags") tags true false .null
    [.mk (.str "since") versions], .spread own []] []

/-- The kind stands last, and most of what has its default is left out. -/
def json : Json :=
  .obj [
    ("fields", .arr [
      .obj [("optional", .bool true), ("key", .str "Tags"),
        ("kind", .str "pair"), ("type", tagsJson), ("attributes",
          .arr [.obj [("name", .str "since"), ("value", versionsJson)]])],
      .obj [("kind", .str "spread"), ("attributes", .arr []),
        ("type", ownJson)]]),
    ("kind", .str "struct")]

theorem written_tagsJson : Schema.Written tags tagsJson :=
  .mk rfl (.omitted rfl)
    (.list rfl (.mk rfl (.omitted rfl) (.string (.omitted (.inl rfl))))
    (.given rfl (.inr ⟨rfl, rfl⟩) (.inl rfl) (.inr ⟨rfl, rfl⟩)))

theorem written_versionsJson : AttributeValue.Written versions versionsJson :=
  .tree rfl rfl (.cons .absent
    (.cons (.type (.mk rfl (.omitted rfl) (.literal rfl rfl rfl))) .nil))

theorem written_ownJson : Schema.Written own ownJson :=
  .mk rfl (.omitted rfl) (.dispatcher rfl (.given rfl
    (.cons (.dynamic rfl rfl (.cons (.keyword rfl)
      (.cons (.property "id") .nil))) .nil)))

theorem written_json : Schema.Written schema json :=
  .mk rfl (.omitted rfl) (.struct rfl
    (.pair rfl rfl (.name "Tags") rfl written_tagsJson (.inl rfl)
      (.inr ⟨rfl, rfl⟩) (.inr ⟨rfl, rfl⟩)
      (.given rfl (.cons rfl rfl written_versionsJson .nil))
      (.spread rfl rfl written_ownJson (.given rfl .nil) .nil)))

end Entity

theorem Schema.read_written_entity :
    Schema.Written Entity.schema Entity.json ∧
      Schema.read none Entity.json = .ok Entity.schema :=
  ⟨Entity.written_json,
    (Schema.read_written Entity.schema).2 Entity.json Entity.written_json none⟩

end Typings
