import Typings.Proofs.Outcome
import Typings.Proofs.SymbolPath
import Typings.Proofs.Tables
import Typings.Schema.AttributeShape

/-!
What the grammar of attributes accepts. A value conforms to a shape by rules
that do not say how it is checked and do not mention the order of arguments. The
check accepts exactly what conforms, and a fault names the first attribute that
does not conform, with the arguments that lead to the place.
-/

namespace Typings

theorem Json.isText_iff {v : Json} {s : String} :
    v.isText s = true ↔ v = .str s := by
  cases v <;> simp [isText]

namespace AttributeValue

def HasValue (arguments : List (String × AttributeValue))
    (key : String) : Prop :=
  ∃ value, (key, value) ∈ arguments ∧ value.isPresent = true

/-- No tree in the value has two arguments of one name. -/
inductive IsDistinct : AttributeValue → Prop where
  | absent : IsDistinct .absent
  | type {type : Schema} : IsDistinct (.type type)
  | tree {arguments : List (String × AttributeValue)}
      (hnames : (arguments.map (·.1)).Nodup)
      (hvalues : ∀ a ∈ arguments, a.2.IsDistinct) : IsDistinct (.tree arguments)

/-- The names of arguments lead into the value, from the outermost tree on. -/
inductive Leads : AttributeValue → List String → Prop where
  | here {value : AttributeValue} : Leads value []
  | into {arguments : List (String × AttributeValue)} {key : String}
      {value : AttributeValue} {keys : List String}
      (hmem : (key, value) ∈ arguments) (hrest : Leads value keys) :
      Leads (.tree arguments) (key :: keys)

/-- The same value with the arguments of its trees in another order. -/
inductive Reordered : AttributeValue → AttributeValue → Prop where
  | refl {value : AttributeValue} : Reordered value value
  | perm {arguments arguments' : List (String × AttributeValue)}
      (hperm : arguments.Perm arguments') :
      Reordered (.tree arguments) (.tree arguments')
  | inside {before after : List (String × AttributeValue)} {key : String}
      {value value' : AttributeValue} (h : Reordered value value') :
      Reordered (.tree (before ++ (key, value) :: after))
        (.tree (before ++ (key, value') :: after))
  | trans {first second third : AttributeValue} (h : Reordered first second)
      (h' : Reordered second third) :
      Reordered first third

end AttributeValue

/-- The names of a tree's arguments fit: each is declared, of the single ones
exactly one has a value, if there are any, and so has every required one. -/
structure NamesFit (fields required single : List String)
    (arguments : List (String × AttributeValue)) : Prop where
  declared : ∀ a ∈ arguments, a.1 ∈ fields
  one : single ≠ [] → ∃! key, key ∈ single ∧
    AttributeValue.HasValue arguments key
  present : ∀ key ∈ required, AttributeValue.HasValue arguments key

namespace AttributeShape

open AttributeValue

inductive Conforms : AttributeShape → AttributeValue → Prop where
  | absent : Conforms .absent .absent
  | anyText {value : Json} {attributes : List Attribute} :
      Conforms (.text none) (.type (.literal (.str "string") value attributes))
  | choice {choices : List String} {word : String} {attributes : List Attribute}
      (hmem : word ∈ choices) :
      Conforms (.text (some choices))
        (.type (.literal (.str "string") (.str word) attributes))
  | number {kind : NumericKind} {value : Json} {attributes : List Attribute} :
      Conforms .number (.type (.literal (.str kind.word) value attributes))
  | boolean {value : Json} {attributes : List Attribute} :
      Conforms .boolean (.type (.literal (.str "boolean") value attributes))
  | type {type : Schema} : Conforms .type (.type type)
  | nothing {shape : AttributeShape} : Conforms (.maybe shape) .absent
  | something {shape : AttributeShape} {value : AttributeValue}
      (h : Conforms shape value) :
      Conforms (.maybe shape) value
  | oneOf {shapes : List AttributeShape} {shape : AttributeShape}
      {value : AttributeValue} (hmem : shape ∈ shapes)
      (h : Conforms shape value) : Conforms (.oneOf shapes) value
  | tree {fields : List (String × AttributeShape)}
      {required single : List String}
      {arguments : List (String × AttributeValue)}
      (hnames : NamesFit (fields.map (·.1)) required single arguments)
      (hvalues : ∀ a ∈ arguments, ∀ shape, fields.lookup a.1 = some shape →
        Conforms shape a.2) :
      Conforms (.tree fields required single) (.tree arguments)

/-- The name of an attribute with the arguments that lead to a
place in its value. -/
def placeName (name : String) (keys : List String) : String :=
  keys.foldl (fun front key => front ++ "." ++ key) name

/-- The check is passed if the value fits; if it does not, the fault names the
attribute and a place in its value. -/
def Decides (outcome : Except AttributeFault Unit) (name : String)
    (value : AttributeValue) (fits : Prop) : Prop :=
  (outcome = .ok ⟨⟩ ∧ fits) ∨
    ∃ fault keys, outcome = .error fault ∧ value.Leads keys ∧
      fault.name = placeName name keys ∧ ¬ fits

theorem Decides.eq_ok_iff {outcome : Except AttributeFault Unit}
    {name : String} {value : AttributeValue} {fits : Prop}
    (h : Decides outcome name value fits) : outcome = .ok ⟨⟩ ↔ fits := by
  rcases h with ⟨rfl, hfits⟩ | ⟨fault, keys, rfl, -, -, hnot⟩
  · exact ⟨fun _ => hfits, fun _ => rfl⟩
  · exact iff_of_false (fun h => by cases h) hnot

theorem decides_refuse {shape : AttributeShape} {name : String}
    {value : AttributeValue} {accepts : Bool} {fits : Prop}
    (h : accepts = true ↔ fits) :
    Decides (if accepts then .ok () else shape.refuse name value) name value
      fits := by
  cases accepts with
  | true => exact Or.inl ⟨rfl, h.mp rfl⟩
  | false =>
      exact Or.inr ⟨_, [], rfl, .here, rfl,
        fun hfits => absurd (h.mpr hfits) (by decide)⟩

section Literals

variable {value : AttributeValue}

theorem literal?_eq_some_iff {kind v : Json} :
    value.literal? = some (kind, v) ↔
      ∃ attributes, value = .type (.literal kind v attributes) := by
  constructor
  · intro h
    rw [literal?.eq_def] at h
    split at h
    · cases h
      exact ⟨_, rfl⟩
    · cases h
  · rintro ⟨attributes, rfl⟩
    rfl

theorem isLiteralOf_iff {kinds : List String} : isLiteralOf kinds value = true ↔
    ∃ kind ∈ kinds, ∃ v attributes,
      value = .type (.literal (.str kind) v attributes) := by
  rw [isLiteralOf]
  split
  · rename_i kind v hliteral
    obtain ⟨attributes, rfl⟩ := literal?_eq_some_iff.mp hliteral
    simp [Json.isText_iff]
  · rename_i hnone
    refine iff_of_false (by decide) ?_
    rintro ⟨kind, -, v, attributes, rfl⟩
    cases hnone

theorem isTextOf_iff {choices : Option (List String)} :
    isTextOf choices value = true ↔ Conforms (.text choices) value := by
  rw [isTextOf]
  split
  · rename_i kind v hliteral
    obtain ⟨attributes, rfl⟩ := literal?_eq_some_iff.mp hliteral
    rw [Bool.and_eq_true, Json.isText_iff]
    constructor
    · rintro ⟨rfl, hchoices⟩
      cases choices with
      | none => exact .anyText
      | some words =>
          obtain ⟨word, hmem, hword⟩ := List.any_eq_true.mp hchoices
          obtain rfl := Json.isText_iff.mp hword
          exact .choice hmem
    · intro h
      cases h with
      | anyText => exact ⟨rfl, rfl⟩
      | choice hmem =>
          exact ⟨rfl, List.any_eq_true.mpr ⟨_, hmem, Json.isText_iff.mpr rfl⟩⟩
  · rename_i hnone
    refine iff_of_false (by decide) fun h => ?_
    cases h <;> cases hnone

theorem conforms_number_iff :
    isLiteralOf numberKinds value = true ↔ Conforms .number value := by
  rw [isLiteralOf_iff]
  constructor
  · rintro ⟨word, hmem, v, attributes, rfl⟩
    obtain ⟨kind, -, rfl⟩ := List.mem_map.mp hmem
    exact .number
  · intro h
    cases h with
    | number =>
        rename_i kind _ _
        have hall : kind ∈ NumericKind.all := by cases kind <;> decide
        exact ⟨_, List.mem_map_of_mem hall, _, _, rfl⟩

theorem conforms_boolean_iff :
    isLiteralOf ["boolean"] value = true ↔ Conforms .boolean value := by
  rw [isLiteralOf_iff]
  constructor
  · rintro ⟨word, hmem, v, attributes, rfl⟩
    rw [List.mem_singleton.mp hmem]
    exact .boolean
  · intro h
    cases h
    exact ⟨_, List.mem_singleton_self _, _, _, rfl⟩

theorem conforms_type_iff : isType value = true ↔ Conforms .type value := by
  constructor
  · intro h
    cases value with
    | type t => exact .type
    | absent => cases h
    | tree arguments => cases h
  · intro h
    cases h
    rfl

end Literals

section Names

variable {fields required single : List String} {name : String}
  {arguments : List (String × AttributeValue)}

theorem isSome_argument?_iff (hdistinct : (arguments.map (·.1)).Nodup)
    {key : String} :
    (argument? arguments key).isSome = true ↔ HasValue arguments key := by
  have hlookup (value : AttributeValue) : arguments.lookup key = some value ↔
      (key, value) ∈ arguments :=
    Table.get?_eq_some_iff (t := ⟨arguments⟩) hdistinct
  rw [argument?, Option.isSome_iff_exists]
  simp only [Option.filter_eq_some_iff, hlookup, HasValue]

/-- Of different names exactly one passes a test if one name is left when the
others are dropped. -/
theorem length_filter_eq_one_iff {p : String → Bool} (hnodup : single.Nodup) :
    (single.filter p).length = 1 ↔ ∃! key, key ∈ single ∧ p key = true := by
  rw [List.length_eq_one_iff]
  constructor
  · rintro ⟨key, hkey⟩
    have hmem (other : String) : other ∈ single ∧ p other = true ↔
        other = key := by
      rw [← List.mem_filter, hkey, List.mem_singleton]
    exact ⟨key, (hmem key).mpr rfl, fun other h => (hmem other).mp h⟩
  · rintro ⟨key, hkey, honly⟩
    refine ⟨key, List.perm_singleton.mp ?_⟩
    refine (List.perm_ext_iff_of_nodup (hnodup.filter p)
      (List.nodup_singleton key)).mpr fun other => ?_
    rw [List.mem_filter, List.mem_singleton]
    exact ⟨honly other, fun h => h ▸ hkey⟩

theorem decides_checkNames (hdistinct : (arguments.map (·.1)).Nodup)
    (hsingle : single.Nodup) :
    Decides (checkNames fields required single name arguments) name
      (.tree arguments) (NamesFit fields required single arguments) := by
  have hvalue (key : String) : (argument? arguments key).isSome = true ↔
      HasValue arguments key :=
    isSome_argument?_iff hdistinct
  have hone :
      (single.filter fun key => (argument? arguments key).isSome).length = 1 ↔
      ∃! key, key ∈ single ∧ HasValue arguments key := by
    simp only [length_filter_eq_one_iff hsingle, hvalue]
  have hrefused {fault : AttributeFault} (hname : fault.name = name)
      (hnot : ¬ NamesFit fields required single arguments) :
      Decides (.error fault) name (.tree arguments)
        (NamesFit fields required single arguments) :=
    Or.inr ⟨fault, [], rfl, .here, hname, hnot⟩
  rw [checkNames]
  dsimp only
  split
  · rename_i a ha
    have hunknown : a.1 ∉ fields := by simpa using List.find?_some ha
    exact hrefused rfl fun hfit =>
      hunknown (hfit.declared a (List.mem_of_find?_eq_some ha))
  · rename_i hknown
    split
    · rename_i hcount
      obtain ⟨hsome, hcount⟩ : single ≠ [] ∧ _ := by simpa using hcount
      exact hrefused rfl fun hfit => hcount (hone.mpr (hfit.one hsome))
    · rename_i hcount
      split
      · rename_i key hkey
        have hmissing : (argument? arguments key).isSome = false := by
          simpa using List.find?_some hkey
        refine hrefused rfl fun hfit => ?_
        rw [(hvalue key).mpr
          (hfit.present key (List.mem_of_find?_eq_some hkey))] at hmissing
        cases hmissing
      · rename_i hpresent
        refine Or.inl ⟨rfl, ?_, fun hsome => ?_, fun key hkey => ?_⟩
        · simpa using hknown
        · simp only [Bool.and_eq_true, Bool.not_eq_true',
            List.isEmpty_eq_false_iff, bne_iff_ne, not_and, not_not] at hcount
          exact hone.mp (hcount hsome)
        · have hkey := List.find?_eq_none.mp hpresent key hkey
          rw [Option.isNone_iff_eq_none] at hkey
          exact (hvalue key).mp (Option.isSome_iff_ne_none.mpr hkey)

end Names

mutual

/-- Does no tree in the shape list a name twice among those of which exactly one
has to be there? -/
def isProper : AttributeShape → Bool
  | .maybe shape => shape.isProper
  | .oneOf shapes => areProper shapes
  | .tree fields _ single => decide single.Nodup && fieldsAreProper fields
  | _ => true

def areProper : List AttributeShape → Bool
  | [] => true
  | shape :: rest => shape.isProper && areProper rest

def fieldsAreProper : List (String × AttributeShape) → Bool
  | [] => true
  | (_, shape) :: rest => shape.isProper && fieldsAreProper rest

end

theorem check_tree_of_ne {fields : List (String × AttributeShape)}
    {required single : List String} {name : String}
    {value : AttributeValue} (h : ∀ arguments, value ≠ .tree arguments) :
    (AttributeShape.tree fields required single).check name value =
      (AttributeShape.tree fields required single).refuse name value := by
  cases value with
  | absent => simp only [check]
  | type t => simp only [check]
  | tree arguments => exact absurd rfl (h arguments)

/-- A tree is checked by its names first, and then argument by argument. -/
theorem decides_tree {fields : List (String × AttributeShape)}
    {required single : List String} {name : String}
    {arguments : List (String × AttributeValue)}
    (hnames : Decides (checkNames (fields.map (·.1)) required single name
        arguments) name (.tree arguments)
      (NamesFit (fields.map (·.1)) required single arguments))
    (hvalues : ∀ a ∈ arguments,
      Decides (checkArgument fields name a.1 a.2) (name ++ "." ++ a.1) a.2
      (∀ shape, fields.lookup a.1 = some shape → shape.Conforms a.2)) :
    Decides ((AttributeShape.tree fields required single).check name
        (.tree arguments)) name (.tree arguments)
      ((AttributeShape.tree fields required single).Conforms
        (.tree arguments)) := by
  rw [check]
  rcases hnames with ⟨hnames, hfit⟩ | ⟨fault, keys, hnames, hleads, hname, hnot⟩
  · rw [hnames]
    change Decides
      (arguments.forM fun a => checkArgument fields name a.1 a.2) _ _ _
    cases hall : arguments.forM fun a => checkArgument fields name a.1 a.2 with
    | ok =>
        have hall := forM_eq_ok_iff.mp hall
        exact Or.inl ⟨rfl,
          .tree hfit fun a ha => (hvalues a ha).eq_ok_iff.mp (hall a ha)⟩
    | error fault =>
        obtain ⟨before, a, after, rfl, -, ha⟩ := forM_eq_error_iff.mp hall
        have hmem : a ∈ before ++ a :: after := by simp
        rcases hvalues a hmem with ⟨hok, -⟩ | ⟨fault', keys, herror, hleads,
          hname, hnot⟩
        · rw [hok] at ha
          cases ha
        · rw [herror] at ha
          cases ha
          refine Or.inr ⟨fault, a.1 :: keys, rfl, .into hmem hleads, hname,
            fun h => ?_⟩
          cases h with
          | tree _ hconform => exact hnot (hconform a hmem)
  · refine Or.inr ⟨fault, keys, ?_, hleads, hname, fun h => ?_⟩
    · rw [hnames]
      rfl
    · cases h with
      | tree hfit _ => exact hnot hfit

mutual

theorem decides_check :
    ∀ (shape : AttributeShape) {name : String} {value : AttributeValue},
      shape.isProper = true →
    value.IsDistinct →
    Decides (shape.check name value) name value (shape.Conforms value)
  | .absent, name, value, _, _ => by
      rw [check]
      cases value with
      | absent => exact Or.inl ⟨rfl, .absent⟩
      | type t => exact Or.inr ⟨_, [], rfl, .here, rfl, fun h => by cases h⟩
      | tree arguments =>
          exact Or.inr ⟨_, [], rfl, .here, rfl, fun h => by cases h⟩
  | .text choices, name, value, _, _ => by
      rw [check]
      exact decides_refuse isTextOf_iff
  | .number, name, value, _, _ => by
      rw [check]
      exact decides_refuse conforms_number_iff
  | .boolean, name, value, _, _ => by
      rw [check]
      exact decides_refuse conforms_boolean_iff
  | .type, name, value, _, _ => by
      rw [check]
      exact decides_refuse conforms_type_iff
  | .maybe inner, name, value, hproper, hdistinct => by
      rw [isProper] at hproper
      rw [check]
      cases hpresent : value.isPresent with
      | false =>
          cases value with
          | absent => exact Or.inl ⟨rfl, .nothing⟩
          | type t => cases hpresent
          | tree arguments => cases hpresent
      | true =>
          have hinner : inner.Conforms value ↔
              (AttributeShape.maybe inner).Conforms value := by
            refine ⟨.something, fun h => ?_⟩
            cases h with
            | nothing => cases hpresent
            | something h => exact h
          rw [if_pos rfl, ← hinner]
          exact decides_check inner hproper hdistinct
  | .oneOf shapes, name, value, hproper, hdistinct => by
      rw [isProper] at hproper
      rw [check]
      refine decides_refuse
        ((anyAccepts_iff shapes hproper hdistinct).trans ⟨?_, fun h => ?_⟩)
      · rintro ⟨shape, hmem, h⟩
        exact .oneOf hmem h
      · cases h with
        | oneOf hmem h => exact ⟨_, hmem, h⟩
  | .tree fields required single, name, value, hproper, hdistinct => by
      rw [isProper, Bool.and_eq_true, decide_eq_true_iff] at hproper
      cases hdistinct with
      | absent =>
          exact Or.inr ⟨_, [], check_tree_of_ne (fun _ h => by cases h), .here,
            rfl, fun h => by cases h⟩
      | type =>
          exact Or.inr ⟨_, [], check_tree_of_ne (fun _ h => by cases h), .here,
            rfl, fun h => by cases h⟩
      | tree hnames hvalues =>
          exact decides_tree (decides_checkNames hnames hproper.1) fun a ha =>
            decides_checkArgument fields hproper.2 (hvalues a ha)

theorem anyAccepts_iff :
    ∀ (shapes : List AttributeShape) {name : String} {value : AttributeValue},
    areProper shapes = true → value.IsDistinct →
      (anyAccepts shapes name value = true ↔ ∃ shape ∈ shapes,
        shape.Conforms value)
  | [], _, _, _, _ => by simp [anyAccepts]
  | shape :: rest, name, value, hproper, hdistinct => by
      rw [areProper, Bool.and_eq_true] at hproper
      have hfirst : (shape.check name value).isOk = true ↔
          shape.Conforms value := by
        have hdecides : Decides (shape.check name value) name value
            (shape.Conforms value) :=
          decides_check shape hproper.1 hdistinct
        rw [← hdecides.eq_ok_iff]
        cases shape.check name value <;> simp [Except.isOk, Except.toBool]
      rw [anyAccepts, Bool.or_eq_true, hfirst,
        anyAccepts_iff rest hproper.2 hdistinct]
      simp

theorem decides_checkArgument :
    ∀ (fields : List (String × AttributeShape)) {name key : String}
    {value : AttributeValue}, fieldsAreProper fields = true → value.IsDistinct →
      Decides (checkArgument fields name key value) (name ++ "." ++ key) value
        (∀ shape, fields.lookup key = some shape → shape.Conforms value)
  | [], _, _, _, _, _ => Or.inl ⟨rfl, fun _ h => by cases h⟩
  | (field, shape) :: rest, name, key, value, hproper, hdistinct => by
      rw [fieldsAreProper, Bool.and_eq_true] at hproper
      rw [checkArgument]
      by_cases hkey : field = key
      · subst hkey
        simpa using (decides_check shape hproper.1 hdistinct : Decides
          (shape.check (name ++ "." ++ field) value) _ _ _)
      · have hne : (key == field) = false := by simpa using Ne.symm hkey
        rw [if_neg (by simpa using hkey)]
        simpa only [List.lookup_cons, hne]
          using decides_checkArgument rest hproper.2 hdistinct

end

theorem declared_isProper : fieldsAreProper declared = true := by
  decide

theorem isProper_of_mem : ∀ {fields : List (String × AttributeShape)}
    {field : String × AttributeShape},
    fieldsAreProper fields = true → field ∈ fields → field.2.isProper = true
  | (key, shape) :: rest, field, hproper, hmem => by
      rw [fieldsAreProper, Bool.and_eq_true] at hproper
      rcases List.mem_cons.mp hmem with rfl | hmem
      · exact hproper.1
      · exact isProper_of_mem hproper.2 hmem

end AttributeShape

namespace AttributeValue

variable {value value' : AttributeValue}

theorem hasValue_append_cons {before after : List (String × AttributeValue)}
    {key other : String} :
    HasValue (before ++ (key, value) :: after) other ↔
      HasValue before other ∨ (other = key ∧ value.isPresent = true) ∨
        HasValue after other := by
  simp only [HasValue, List.mem_append, List.mem_cons, Prod.mk.injEq,
    or_and_right, exists_or]
  simp

theorem Reordered.isPresent_eq (h : value.Reordered value') :
    value.isPresent = value'.isPresent := by
  induction h with
  | refl => rfl
  | perm _ => rfl
  | inside _ _ => rfl
  | trans _ _ ih ih' => exact ih.trans ih'

theorem Reordered.isDistinct (h : value.Reordered value')
    (hdistinct : value.IsDistinct) : value'.IsDistinct := by
  induction h with
  | refl => exact hdistinct
  | perm hperm =>
      cases hdistinct with
      | tree hnames hvalues =>
          exact .tree ((hperm.map _).nodup_iff.mp hnames) fun a ha =>
            hvalues a (hperm.mem_iff.mpr ha)
  | inside _ ih =>
      cases hdistinct with
      | tree hnames hvalues =>
          simp only [List.forall_mem_append, List.forall_mem_cons] at hvalues
          refine .tree (by simpa using hnames) ?_
          simp only [List.forall_mem_append, List.forall_mem_cons]
          exact ⟨hvalues.1, ih hvalues.2.1, hvalues.2.2⟩
  | trans _ _ ih ih' => exact ih' (ih hdistinct)

end AttributeValue

namespace AttributeShape

open AttributeValue

variable {arguments arguments' : List (String × AttributeValue)}

/-- What a shape asks of a tree is asked of the set of its arguments, and of
each of their values. -/
theorem Conforms.of_tree
    (hkeys : ∀ key, HasValue arguments key ↔ HasValue arguments' key)
    (hvalues : ∀ a' ∈ arguments', ∃ a ∈ arguments, a.1 = a'.1 ∧ ∀ shape,
      Conforms shape a.2 → Conforms shape a'.2)
    {shape : AttributeShape} (h : shape.Conforms (.tree arguments)) :
    shape.Conforms (.tree arguments') := by
  generalize htree : AttributeValue.tree arguments = tree at h
  induction h with
  | absent => cases htree
  | anyText => cases htree
  | choice _ => cases htree
  | number => cases htree
  | boolean => cases htree
  | type => cases htree
  | nothing => cases htree
  | something _ ih => exact .something (ih htree)
  | oneOf hmem _ ih => exact .oneOf hmem (ih htree)
  | tree hnames hconform _ =>
      cases htree
      refine .tree ⟨fun a' ha' => ?_, fun hsome => ?_,
        fun key hkey => ?_⟩ fun a' ha' shape hshape => ?_
      · obtain ⟨a, ha, hkey, -⟩ := hvalues a' ha'
        exact hkey ▸ hnames.declared a ha
      · simpa only [hkeys] using hnames.one hsome
      · exact (hkeys key).mp (hnames.present key hkey)
      · obtain ⟨a, ha, hkey, himp⟩ := hvalues a' ha'
        exact himp shape (hconform a ha shape (hkey ▸ hshape))

theorem conforms_iff_of_reordered {value value' : AttributeValue}
    (h : value.Reordered value') :
    ∀ shape : AttributeShape, shape.Conforms value ↔ shape.Conforms value' := by
  induction h with
  | refl => exact fun _ => Iff.rfl
  | perm hperm =>
      have hmem (a : String × AttributeValue) := hperm.mem_iff (a := a)
      refine fun shape => ⟨Conforms.of_tree (fun key => ?_) fun a ha => ⟨a,
          (hmem a).mpr ha, rfl, fun _ => id⟩,
        Conforms.of_tree (fun key => ?_) fun a ha => ⟨a, (hmem a).mp ha, rfl,
          fun _ => id⟩⟩
      · simp only [HasValue, hmem]
      · simp only [HasValue, hmem]
  | inside h ih =>
      rename_i before after key value value'
      have hkeys (other : String) :
          HasValue (before ++ (key, value) :: after) other ↔
          HasValue (before ++ (key, value') :: after) other := by
        rw [hasValue_append_cons, hasValue_append_cons, h.isPresent_eq]
      -- The argument at the changed place goes to its counterpart, and every
      -- other one stays.
      refine fun shape => ⟨Conforms.of_tree hkeys fun a ha => ?_,
        Conforms.of_tree (fun other => (hkeys other).symm) fun a ha => ?_⟩
      · simp only [List.mem_append, List.mem_cons] at ha ⊢
        rcases ha with ha | rfl | ha
        · exact ⟨a, Or.inl ha, rfl, fun _ => id⟩
        · exact ⟨(key, value), Or.inr (Or.inl rfl), rfl,
            fun shape => (ih shape).mp⟩
        · exact ⟨a, Or.inr (Or.inr ha), rfl, fun _ => id⟩
      · simp only [List.mem_append, List.mem_cons] at ha ⊢
        rcases ha with ha | rfl | ha
        · exact ⟨a, Or.inl ha, rfl, fun _ => id⟩
        · exact ⟨(key, value'), Or.inr (Or.inl rfl), rfl,
            fun shape => (ih shape).mpr⟩
        · exact ⟨a, Or.inr (Or.inr ha), rfl, fun _ => id⟩
  | trans _ _ ih ih' => exact fun shape => (ih shape).trans (ih' shape)

end AttributeShape

namespace Attribute

/-- The attribute is declared, and its value has the declared shape. -/
def Conforms (a : Attribute) : Prop :=
  ∃ name shape, a.name = .str name ∧ (name, shape) ∈ AttributeShape.declared ∧
    shape.Conforms a.value

theorem lookup_declared_iff {name : String} {shape : AttributeShape} :
    AttributeShape.declared.lookup name = some shape ↔
      (name, shape) ∈ AttributeShape.declared :=
  Table.get?_eq_some_iff (t := ⟨AttributeShape.declared⟩) (by decide)

/-- What an attribute is checked against: the shape under its name,
if there is one. -/
theorem check_eq_elim {a : Attribute} {name? : Option String}
    (hname : a.name.asKey? = .ok name?) :
    a.check = (name?.bind fun name => AttributeShape.declared.lookup name).elim
      (.error (.attribute
        { name := a.name.plain, cause := .unrecognized,
          received := a.value.describe }))
      fun shape => (shape.check a.name.plain a.value).mapError .attribute := by
  rw [check, hname]
  change Except.bind (.ok name?) _ = _
  rw [Except.bind]
  cases name?.bind fun name => AttributeShape.declared.lookup name with
  | none => rfl
  | some shape =>
      dsimp only [Option.elim]
      cases shape.check a.name.plain a.value <;> rfl

/-- An attribute whose name is looked up passes the check if it conforms. If it
does not, the fault is that of a misused attribute and names the place. -/
theorem check_cases {a : Attribute} (hdistinct : a.value.IsDistinct)
    {name? : Option String} (hname : a.name.asKey? = .ok name?) :
    (a.check = .ok ⟨⟩ ∧ a.Conforms) ∨
      ∃ fault keys, a.check = .error (.attribute fault) ∧ a.value.Leads keys ∧
        fault.name = AttributeShape.placeName a.name.plain keys ∧
        ¬ a.Conforms := by
  have hcheck := check_eq_elim hname
  cases hshape : name?.bind fun name => AttributeShape.declared.lookup name with
  | none =>
      rw [hshape] at hcheck
      refine Or.inr ⟨_, [], hcheck, .here, rfl, ?_⟩
      rintro ⟨name, shape, hstr, hmem, -⟩
      rw [hstr] at hname
      cases hname
      rw [Option.bind_some, lookup_declared_iff.mpr hmem] at hshape
      cases hshape
  | some shape =>
      obtain ⟨name, rfl, hlookup⟩ := Option.bind_eq_some_iff.mp hshape
      have hstr : a.name = .str name := eq_str_of_asKey? hname
      have hmem := lookup_declared_iff.mp hlookup
      have hiff : a.Conforms ↔ shape.Conforms a.value := by
        refine ⟨?_, fun h => ⟨name, shape, hstr, hmem, h⟩⟩
        rintro ⟨name', shape', hstr', hmem', h⟩
        rw [hstr] at hstr'
        cases hstr'
        have hsame := lookup_declared_iff.mpr hmem'
        rw [hlookup] at hsame
        cases hsame
        exact h
      rw [hshape] at hcheck
      rw [hcheck, hiff]
      have hproper :=
        AttributeShape.isProper_of_mem AttributeShape.declared_isProper hmem
      have hdecides : AttributeShape.Decides (shape.check a.name.plain a.value)
          a.name.plain a.value (shape.Conforms a.value) :=
        AttributeShape.decides_check shape hproper hdistinct
      rcases hdecides with ⟨hok, hfits⟩ |
        ⟨fault, keys, herror, hleads, hplace, hnot⟩
      · exact Or.inl ⟨by rw [Option.elim, hok]; rfl, hfits⟩
      · exact Or.inr ⟨fault, keys, by rw [Option.elim, herror]; rfl, hleads,
          hplace, hnot⟩

theorem check_eq_ok_iff {a : Attribute} (hdistinct : a.value.IsDistinct) :
    a.check = .ok ⟨⟩ ↔ a.Conforms := by
  cases hname : a.name.asKey? with
  | ok name? =>
      rcases check_cases hdistinct hname with ⟨hok, hconforms⟩ |
        ⟨fault, keys, herror, -, -, hnot⟩
      · exact iff_of_true hok hconforms
      · exact iff_of_false (by rw [herror]; exact fun h => by cases h) hnot
  | error misuse =>
      -- A list or an object has no place among the names.
      refine iff_of_false (fun h => ?_) ?_
      · rw [check, hname] at h
        cases h
      · rintro ⟨name, shape, hstr, -⟩
        rw [hstr] at hname
        cases hname

end Attribute

/-- The check of attributes accepts exactly those that conform. Where one does
not, and all names are such that they are looked up, the fault is that of a
misused attribute: it names the first one that does not conform, with the
arguments that lead to the place. In which order the arguments of its trees are
written makes no difference to an attribute. -/
theorem attributes_accepted_iff {attributes : List Attribute}
    (hdistinct : ∀ a ∈ attributes, a.value.IsDistinct) :
    (checkAttributes attributes = .ok ⟨⟩ ↔ ∀ a ∈ attributes, a.Conforms) ∧
      ((∀ a ∈ attributes, ∃ name?, a.name.asKey? = .ok name?) →
        (∃ a ∈ attributes, ¬ a.Conforms) →
        ∃ before a after fault keys, attributes = before ++ a :: after ∧
          (∀ b ∈ before, b.Conforms) ∧ ¬ a.Conforms ∧
          checkAttributes attributes = .error (.attribute fault) ∧
          a.value.Leads keys ∧
          fault.name = AttributeShape.placeName a.name.plain keys) ∧
      ∀ a ∈ attributes, ∀ value, a.value.Reordered value →
        ((Attribute.mk a.name value).check = .ok ⟨⟩ ↔ a.check = .ok ⟨⟩) := by
  refine ⟨?_, fun hnames hsome => ?_, fun a ha value hreordered => ?_⟩
  · rw [checkAttributes, forM_eq_ok_iff]
    exact forall₂_congr fun a ha => Attribute.check_eq_ok_iff (hdistinct a ha)
  · cases hall : checkAttributes attributes with
    | ok =>
        obtain ⟨a, ha, hnot⟩ := hsome
        exact absurd ((Attribute.check_eq_ok_iff (hdistinct a ha)).mp
          (forM_eq_ok_iff.mp hall a ha)) hnot
    | error outcome =>
        obtain ⟨before, a, after, rfl, hbefore, ha⟩ := forM_eq_error_iff.mp hall
        have hmem : a ∈ before ++ a :: after := by simp
        obtain ⟨name?, hname⟩ := hnames a hmem
        rcases Attribute.check_cases (hdistinct a hmem) hname with
          ⟨hok, -⟩ | ⟨fault, keys, herror, hleads, hplace, hnot⟩
        · rw [hok] at ha
          cases ha
        · rw [herror] at ha
          cases ha
          refine ⟨before, a, after, fault, keys, rfl, fun b hb => ?_, hnot, rfl,
            hleads, hplace⟩
          exact (Attribute.check_eq_ok_iff
            (hdistinct b (List.mem_append_left _ hb))).mp (hbefore b hb)
  · have hdistinct' : (Attribute.mk a.name value).value.IsDistinct :=
      hreordered.isDistinct (hdistinct a ha)
    rw [Attribute.check_eq_ok_iff (hdistinct a ha),
      Attribute.check_eq_ok_iff hdistinct']
    simp only [Attribute.Conforms,
      AttributeShape.conforms_iff_of_reordered hreordered]
    rfl

/-- A version and a command whose length is a text. -/
def wordyCommand : List Attribute :=
  [.mk (.str "since") (.type (.literal (.str "string") (.str "1.20") [])),
    .mk (.str "command") (.tree
      [("max_length", .type (.literal (.str "string") (.str "long") [])),
        ("slash", .type (.literal (.str "string") (.str "allowed") []))])]

theorem wordyCommand_isDistinct : ∀ a ∈ wordyCommand, a.value.IsDistinct := by
  simp only [wordyCommand, List.forall_mem_cons]
  refine ⟨.type, .tree (by decide) ?_, by simp⟩
  simp only [List.forall_mem_cons]
  exact ⟨.type, .type, by simp⟩

theorem attributes_accepted_iff_command :
    (∀ a ∈ wordyCommand, a.value.IsDistinct) ∧
      ∃ before a after fault keys, wordyCommand = before ++ a :: after ∧
      (∀ b ∈ before, b.Conforms) ∧ ¬ a.Conforms ∧
        checkAttributes wordyCommand = .error (.attribute fault) ∧
        a.value.Leads keys ∧
        fault.name = AttributeShape.placeName a.name.plain keys ∧
        fault.name = "command.max_length" := by
  have hnames : ∀ a ∈ wordyCommand, ∃ name?, a.name.asKey? = .ok name? := by
    simp [wordyCommand, Attribute.name, Json.asKey?]
  obtain ⟨haccepted, hfault, -⟩ :=
    attributes_accepted_iff wordyCommand_isDistinct
  have hrefused : ∃ a ∈ wordyCommand, ¬ a.Conforms := by
    by_contra h
    push Not at h
    cases haccepted.mpr h
  obtain ⟨before, a, after, fault, keys, hsplit, hbefore, hnot, herror, hleads,
    hplace⟩ := hfault hnames hrefused
  refine ⟨wordyCommand_isDistinct, before, a, after, fault, keys, hsplit,
    hbefore, hnot, herror, hleads, hplace, ?_⟩
  cases herror
  rfl

end Typings
