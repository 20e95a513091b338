import Typings.Proofs.Layout
import Typings.Proofs.Requests

/-!
How a struct is put together. Its fields compile one by one, and what each of
them adds stands in a place that depends on the fields before it. The type of a
struct is the intersection of what it inherits, the object of its fixed keys and
what is merged in.
-/

namespace Typings

variable {env : Environment} {scope : Scope}

def Field.entry : Field → Except Fault Entry
  | .pair (.name name) type optional _ description _ => do
    return .pair name (← Plan.ofSchema type) optional description
  | .pair (.type key) type _ _ _ _ => do
    let keyPlan ← Plan.ofKey key
    return .dynamic keyPlan (← Plan.ofSchema type)
  | .spread type _ => do
    if !isSpreadable type then
      throw (kindFault "struct" (.unsupportedSpread type.kind))
    return .spread (← Plan.ofSchema type)

/-- Compiles one field in the scope of its struct. -/
def Entry.compile (env : Environment) (scope : Scope) : Entry → Emit Part
  | .pair key value optional description => do
    let value ← value.compile env (scope.nested (scope.nameUnder key))
    let docs ← pairDocs description value.docs
    return .own key optional docs value
  | .dynamic key value => do
    let (keys, keyImports) ← Plan.compileKey env scope key
    let value ← value.compile env (scope.nested scope.name)
    return .mapped keys keyImports value
  | .spread value => do
    let value ← value.compile env (scope.nested scope.name)
    return .spread value

/-- The docs of a field with the given description and docs of its value. -/
inductive FieldDocs : Json → List String → List String → Prop where
  | undescribed {description : Json} {docs : List String}
      (htext : ∀ text, description ≠ .str text)
      (hunset : description.isSet = false) : FieldDocs description docs docs
  | blank {docs : List String} : FieldDocs (.str "") docs docs
  | plain {text : String} (htext : text ≠ "") :
      FieldDocs (.str text) [] [Text.strip text]
  /-- What is said of the value stands under a heading. -/
  | headed {text : String} {docs : List String} (htext : text ≠ "")
      (hdocs : docs ≠ []) :
      FieldDocs (.str text) docs (Text.strip text :: "" :: "Value:" :: docs)

/-- A field that is still there compiles to a part of its struct. -/
inductive Field.CompilesTo (env : Environment) (scope : Scope) :
    Field → Part → Prop where
  | own {name : String} {type : Schema}
      {optional deprecated : Bool} {description : Json}
      {attributes : List Attribute} {value : Compiled} {docs : List String}
      (hvalue : (type.compile env
        (scope.nested (scope.nameUnder name))).outcome = .ok value)
      (hexpr : value.type = .expression value.expr)
      (hdocs : FieldDocs description value.docs docs) :
      CompilesTo env scope
        (.pair (.name name) type optional deprecated description attributes)
        (.own name optional docs value)
  | mapped {key type : Schema} {optional deprecated : Bool} {description : Json}
      {attributes : List Attribute} {plan : KeyPlan} {keys : TypeExpr}
      {imports : Option ImportPaths}
      {value : Compiled} (hplan : Plan.ofKey key = .ok plan)
      (hkeys : (Plan.compileKey env scope plan).outcome = .ok (keys, imports))
      (hvalue : (type.compile env (scope.nested scope.name)).outcome =
        .ok value)
      (hexpr : value.type = .expression value.expr) :
      CompilesTo env scope
        (.pair (.type key) type optional deprecated description attributes)
        (.mapped keys imports value)
  | spread {type : Schema} {attributes : List Attribute} {value : Compiled}
      (hspread : isSpreadable type = true)
      (hvalue : (type.compile env (scope.nested scope.name)).outcome =
        .ok value)
      (hexpr : value.type = .expression value.expr) :
      CompilesTo env scope (.spread type attributes) (.spread value)

theorem pairDocs_of_not_isSet {description : Json} (docs : List String)
    (h : ¬ description.isSet = true) :
    pairDocs description docs = .ok docs := by
  rw [pairDocs, if_neg h]
  cases docs <;> rfl

theorem pairDocs_str {text : String} (htext : text ≠ "") (docs : List String) :
    pairDocs (.str text) docs = .ok (Text.strip text ::
      if docs = [] then [] else "" :: "Value:" :: docs) := by
  rw [pairDocs, if_pos (by simpa [Json.isSet] using htext)]
  cases docs <;> rfl

theorem pairDocs_eq_ok_iff {description : Json} {valueDocs docs : List String} :
    pairDocs description valueDocs = .ok docs ↔
      FieldDocs description valueDocs docs := by
  constructor
  · intro h
    by_cases hset : description.isSet = true
    · cases description with
      | str text =>
          have htext : text ≠ "" := by simpa [Json.isSet] using hset
          rw [pairDocs_str htext] at h
          cases h
          cases valueDocs with
          | nil => exact .plain htext
          | cons first rest => exact .headed htext (List.cons_ne_nil first rest)
      | _ =>
          rw [pairDocs, if_pos hset] at h
          cases h
    · rw [pairDocs_of_not_isSet valueDocs hset] at h
      cases h
      cases description with
      | str text =>
          obtain rfl : text = "" := by simpa [Json.isSet] using hset
          exact .blank
      | _ => exact .undescribed (by simp) (Bool.eq_false_iff.mpr hset)
  · intro h
    cases h with
    | undescribed _ hunset =>
        exact pairDocs_of_not_isSet _ (Bool.eq_false_iff.mp hunset)
    | blank => exact pairDocs_of_not_isSet _ (by decide)
    | plain htext => rw [pairDocs_str htext, if_pos rfl]
    | headed htext hdocs => rw [pairDocs_str htext, if_neg hdocs]

/-- A type compiles if it has a plan and the plan compiles. -/
theorem Schema.compile_eq_ok_iff {type : Schema} {c : Compiled} :
    (type.compile env scope).outcome = .ok c ↔
      ∃ plan, Plan.ofSchema type = .ok plan ∧
        (plan.compile env scope).outcome = .ok c :=
  Emit.outcome_bind_eq_ok_iff

/-- Away from the root every type compiles to an expression. -/
theorem isExpr_of_compile_nested {type : Schema} {name : Option String}
    {c : Compiled}
    (h : (type.compile env (scope.nested name)).outcome = .ok c) :
    c.type = .expression c.expr :=
  (Schema.compile_sound h).isExpr rfl

theorem Plan.ofFields_cons (field : Field) (rest : List Field) :
    Plan.ofFields (field :: rest) = (do
      checkAttributes field.attributes
      if field.isLive then
        let entry ← field.entry
        return entry :: (← Plan.ofFields rest)
      else Plan.ofFields rest) := by
  cases field with
  | pair key type optional deprecated description attributes =>
      rw [Plan.ofFields.eq_def]
      cases hgone : Attribute.isGone attributes ||
        Attribute.isDeprecated attributes || deprecated <;>
        cases key <;> simp [Field.isLive, hgone, Field.entry, Plan.ofSchema,
          Field.attributes]
  | spread type attributes =>
      cases hgone : Attribute.isGone attributes ||
        Attribute.isDeprecated attributes <;>
        cases hspread : isSpreadable type <;>
          simp [Plan.ofFields, Field.isLive, hgone, Field.entry, Plan.ofSchema,
            Field.attributes, hspread]

theorem Plan.compileEntries_cons_eq_ok_iff {entry : Entry} {rest : List Entry}
    {parts : List Part} :
    (Plan.compileEntries env scope (entry :: rest)).outcome = .ok parts ↔
      ∃ p, (entry.compile env scope).outcome = .ok p ∧
        ∃ others, (Plan.compileEntries env scope rest).outcome = .ok others ∧
        p :: others = parts := by
  cases entry <;>
    simp [Plan.compileEntries, Entry.compile, Emit.outcome_bind_eq_ok_iff,
      and_assoc, exists_and_left]

theorem Field.compilesTo_iff {field : Field} {p : Part} :
    field.CompilesTo env scope p ↔
      ∃ entry, field.entry = .ok entry ∧
        (entry.compile env scope).outcome = .ok p := by
  constructor
  · intro h
    cases h with
    | own hvalue _ hdocs =>
        obtain ⟨plan, hplan, hvalue⟩ := Schema.compile_eq_ok_iff.mp hvalue
        have hdocs := pairDocs_eq_ok_iff.mpr hdocs
        exact ⟨_, bind_eq_ok_iff.mpr ⟨plan, hplan, rfl⟩,
          Emit.outcome_bind_eq_ok_iff.mpr
          ⟨_, hvalue, Emit.outcome_bind_eq_ok_iff.mpr ⟨_, hdocs, rfl⟩⟩⟩
    | mapped hkey hkeys hvalue _ =>
        obtain ⟨plan, hplan, hvalue⟩ := Schema.compile_eq_ok_iff.mp hvalue
        exact ⟨_,
          bind_eq_ok_iff.mpr ⟨_, hkey, bind_eq_ok_iff.mpr ⟨plan, hplan, rfl⟩⟩,
          Emit.outcome_bind_eq_ok_iff.mpr ⟨_, hkeys,
            Emit.outcome_bind_eq_ok_iff.mpr ⟨_, hvalue, rfl⟩⟩⟩
    | spread hspread hvalue _ =>
        obtain ⟨plan, hplan, hvalue⟩ := Schema.compile_eq_ok_iff.mp hvalue
        refine ⟨.spread plan, ?_,
          Emit.outcome_bind_eq_ok_iff.mpr ⟨_, hvalue, rfl⟩⟩
        rw [Field.entry, if_neg (by simp [hspread])]
        exact bind_eq_ok_iff.mpr ⟨plan, hplan, rfl⟩
  · rintro ⟨entry, hentry, hp⟩
    cases field with
    | pair key type optional deprecated description attributes =>
        cases key with
        | name name =>
            obtain ⟨plan, hplan, hentry⟩ := bind_eq_ok_iff.mp hentry
            obtain rfl := pure_eq_ok_iff.mp hentry
            obtain ⟨value, hvalue, hp⟩ := Emit.outcome_bind_eq_ok_iff.mp hp
            obtain ⟨docs, hdocs, hp⟩ := Emit.outcome_bind_eq_ok_iff.mp hp
            cases hp
            have hvalue := Schema.compile_eq_ok_iff.mpr ⟨plan, hplan, hvalue⟩
            exact .own hvalue (isExpr_of_compile_nested hvalue)
              (pairDocs_eq_ok_iff.mp hdocs)
        | type keyType =>
            obtain ⟨keyPlan, hkey, hentry⟩ := bind_eq_ok_iff.mp hentry
            obtain ⟨plan, hplan, hentry⟩ := bind_eq_ok_iff.mp hentry
            obtain rfl := pure_eq_ok_iff.mp hentry
            obtain ⟨⟨keys, imports⟩, hkeys, hp⟩ :=
              Emit.outcome_bind_eq_ok_iff.mp hp
            obtain ⟨value, hvalue, hp⟩ := Emit.outcome_bind_eq_ok_iff.mp hp
            cases hp
            have hvalue := Schema.compile_eq_ok_iff.mpr ⟨plan, hplan, hvalue⟩
            exact .mapped hkey hkeys hvalue (isExpr_of_compile_nested hvalue)
    | spread type attributes =>
        rw [Field.entry] at hentry
        split at hentry
        · cases hentry
        · rename_i hspread
          obtain ⟨plan, hplan, hentry⟩ := bind_eq_ok_iff.mp hentry
          obtain rfl := pure_eq_ok_iff.mp hentry
          obtain ⟨value, hvalue, hp⟩ := Emit.outcome_bind_eq_ok_iff.mp hp
          cases hp
          have hvalue := Schema.compile_eq_ok_iff.mpr ⟨plan, hplan, hvalue⟩
          exact .spread (by simpa using hspread) hvalue
            (isExpr_of_compile_nested hvalue)

/-- The fields of a struct compile exactly if their attributes are valid and
each field that is still there compiles on its own. -/
theorem Field.allCompile_iff {fields : List Field} {parts : List Part} :
    (∃ entries, Plan.ofFields fields = .ok entries ∧
      (Plan.compileEntries env scope entries).outcome = .ok parts) ↔
      (∀ field ∈ fields, checkAttributes field.attributes = .ok ⟨⟩) ∧
        List.Forall₂ (Field.CompilesTo env scope) (fields.filter (·.isLive))
          parts := by
  induction fields generalizing parts with
  | nil =>
      constructor
      · rintro ⟨entries, hentries, hparts⟩
        cases hentries
        cases hparts
        exact ⟨by simp, .nil⟩
      · rintro ⟨-, hlive⟩
        cases hlive
        exact ⟨[], rfl, rfl⟩
  | cons field rest ih =>
      rw [Plan.ofFields_cons, List.forall_mem_cons, List.filter_cons]
      by_cases hlive : field.isLive = true
      · simp only [if_pos hlive, List.forall₂_cons_left_iff]
        constructor
        · rintro ⟨entries, hentries, hparts⟩
          obtain ⟨⟨⟩, hcheck, hentries⟩ := bind_eq_ok_iff.mp hentries
          obtain ⟨entry, hentry, hentries⟩ := bind_eq_ok_iff.mp hentries
          obtain ⟨others, hothers, hentries⟩ := bind_eq_ok_iff.mp hentries
          obtain rfl := pure_eq_ok_iff.mp hentries
          obtain ⟨p, hp, ps, hps, rfl⟩ :=
            Plan.compileEntries_cons_eq_ok_iff.mp hparts
          obtain ⟨hvalid, hrest⟩ := ih.mp ⟨others, hothers, hps⟩
          exact ⟨⟨hcheck, hvalid⟩, p, ps,
            Field.compilesTo_iff.mpr ⟨entry, hentry, hp⟩, hrest, rfl⟩
        · rintro ⟨⟨hcheck, hvalid⟩, p, ps, hp, hrest, rfl⟩
          obtain ⟨entry, hentry, hp⟩ := Field.compilesTo_iff.mp hp
          obtain ⟨others, hothers, hps⟩ := ih.mpr ⟨hvalid, hrest⟩
          exact ⟨entry :: others,
            bind_eq_ok_iff.mpr ⟨⟨⟩, hcheck, bind_eq_ok_iff.mpr
            ⟨entry, hentry, bind_eq_ok_iff.mpr ⟨others, hothers, rfl⟩⟩⟩,
            Plan.compileEntries_cons_eq_ok_iff.mpr ⟨p, hp, ps, hps, rfl⟩⟩
      · simp only [if_neg hlive]
        constructor
        · rintro ⟨entries, hentries, hparts⟩
          obtain ⟨⟨⟩, hcheck, hentries⟩ := bind_eq_ok_iff.mp hentries
          obtain ⟨hvalid, hrest⟩ := ih.mp ⟨entries, hentries, hparts⟩
          exact ⟨⟨hcheck, hvalid⟩, hrest⟩
        · rintro ⟨⟨hcheck, hvalid⟩, hrest⟩
          obtain ⟨entries, hentries, hparts⟩ := ih.mpr ⟨hvalid, hrest⟩
          exact ⟨entries, bind_eq_ok_iff.mpr ⟨⟨⟩, hcheck, hentries⟩, hparts⟩

/-- A struct compiles exactly if its attributes and those of its fields
are valid, each field that is still there compiles, and the parts can
be put together. -/
theorem Schema.compile_struct_eq_ok_iff {fields : List Field}
    {attributes : List Attribute} {c : Compiled} :
    ((Schema.struct fields attributes).compile env scope).outcome = .ok c ↔
      checkAttributes attributes = .ok ⟨⟩ ∧
        (∀ field ∈ fields, checkAttributes field.attributes = .ok ⟨⟩) ∧
        ∃ parts, List.Forall₂ (Field.CompilesTo env scope)
          (fields.filter (·.isLive)) parts ∧
          composeStruct scope parts = .ok c := by
  constructor
  · intro h
    obtain ⟨plan, hplan, hc⟩ := Schema.compile_eq_ok_iff.mp h
    obtain ⟨⟨⟩, hcheck, hplan⟩ := bind_eq_ok_iff.mp hplan
    rw [Plan.ofBody, bind_eq_ok_iff] at hplan
    obtain ⟨entries, hentries, hplan⟩ := hplan
    obtain rfl := pure_eq_ok_iff.mp hplan
    rw [Plan.compile, Emit.outcome_bind_eq_ok_iff] at hc
    obtain ⟨parts, hparts, hc⟩ := hc
    obtain ⟨hvalid, hlive⟩ :=
      Field.allCompile_iff.mp ⟨entries, hentries, hparts⟩
    exact ⟨hcheck, hvalid, parts, hlive, hc⟩
  · rintro ⟨hcheck, hvalid, parts, hlive, hc⟩
    obtain ⟨entries, hentries, hparts⟩ :=
      Field.allCompile_iff.mpr ⟨hvalid, hlive⟩
    refine Schema.compile_eq_ok_iff.mpr
      ⟨.struct entries, bind_eq_ok_iff.mpr ⟨⟨⟩, hcheck, ?_⟩, ?_⟩
    · rw [Plan.ofBody, hentries]
      rfl
    · rw [Plan.compile]
      exact Emit.outcome_bind_eq_ok_iff.mpr ⟨parts, hparts, hc⟩

namespace Part

/-- The properties of the fixed keys, in order. -/
def fixed : List Part → List Property
  | [] => []
  | .own key optional docs value :: rest =>
    .mk key value.expr optional docs :: fixed rest
  | _ :: rest => fixed rest

/-- What a part adds before the object of the fixed keys, given the parts
that it stands behind: a dynamic field always, a spread if no fixed key
stands before it. -/
def inheritedBehind (before : List Part) : Part → Option TypeExpr
  | .own _ _ _ _ => none
  | .mapped keys _ value => some (.mapped "Key" keys value.expr true none)
  | .spread value => if fixed before = [] then some value.expr else none

/-- What a part adds after the object of the fixed keys: a spread if a fixed key
stands before it. -/
def mergedBehind (before : List Part) : Part → Option TypeExpr
  | .spread value => if fixed before = [] then none else some value.expr
  | _ => none

/-- What the parts add in order, each seen with those before it. -/
def collect (add : List Part → Part → Option TypeExpr) (parts : List Part) :
    List TypeExpr :=
  parts.zipIdx.filterMap fun e => add (parts.take e.2) e.1

variable {parts xs : List Part} {p : Part}

theorem collect_concat (add : List Part → Part → Option TypeExpr)
    (xs : List Part) (p : Part) :
    collect add (xs ++ [p]) = collect add xs ++ (add xs p).toList := by
  have hfront : ∀ e ∈ xs.zipIdx,
      add ((xs ++ [p]).take e.2) e.1 = add (xs.take e.2) e.1 := by
    intro e he
    have hlt := List.snd_lt_of_mem_zipIdx he
    rw [List.take_append_of_le_length (by omega)]
  have hlast : [p].zipIdx xs.length = [(p, xs.length)] := rfl
  rw [collect, List.zipIdx_append, List.filterMap_append,
    List.filterMap_congr hfront, Nat.zero_add, hlast,
    List.filterMap_cons, List.filterMap_nil, List.take_left]
  cases add xs p <;> rfl

theorem properties_eq_fixed (parts : List Part) :
    properties parts = fixed parts := by
  induction parts with
  | nil => rfl
  | cons p rest ih =>
      cases p with
      | own key optional docs value => exact congrArg (List.cons _) ih
      | _ => exact ih

-- The place of a part depends on those before it, so both lists are followed
-- from their ends.
theorem inherited_eq_collect (parts : List Part) :
    inherited parts = collect inheritedBehind parts := by
  induction parts using List.reverseRecOn with
  | nil => rfl
  | append_singleton xs p ih =>
      rw [inherited_append, collect_concat, ih]
      apply congrArg (_ ++ ·)
      cases p with
      | spread value =>
          rw [inheritedBehind, properties_eq_fixed]
          split <;> rfl
      | _ => exact ite_self _

theorem merged_eq_collect (parts : List Part) :
    merged parts = collect mergedBehind parts := by
  induction parts using List.reverseRecOn with
  | nil => rfl
  | append_singleton xs p ih =>
      rw [merged_append, collect_concat, ih]
      apply congrArg (_ ++ ·)
      cases p with
      | spread value =>
          rw [mergedBehind, properties_eq_fixed]
          split <;> rfl
      | _ => exact ite_self _

end Part

/-- The type of a struct with the given parts around the object
of its properties. -/
def composition (parts : List Part) (own : List Property) : TypeExpr :=
  match Part.collect Part.inheritedBehind parts ++
    (if own = [] then [] else [.object own]) ++
      Part.collect Part.mergedBehind parts with
  | [] => .reference "Record" [.string, .never]
  | [one] => one
  | types => .intersection types

theorem composeParts_eq_composition (parts : List Part) (own : List Property) :
    composeParts parts own = composition parts own := by
  have hown : (if own.isEmpty then [] else [TypeExpr.object own]) =
      if own = [] then [] else [.object own] := by
    cases own <;> rfl
  rw [composeParts, composition, Part.inherited_eq_collect,
    Part.merged_eq_collect, hown]
  generalize _ ++ _ ++ Part.collect Part.mergedBehind parts = types
  rcases types with _ | ⟨one, _ | ⟨two, rest⟩⟩ <;> rfl

theorem mem_requestedHere {rs : List Request} {name : String} :
    name ∈ requestedHere rs ↔ ⟨0, name⟩ ∈ rs := by
  rw [requestedHere, List.mem_filterMap]
  constructor
  · rintro ⟨⟨parents, property⟩, hr, h⟩
    split at h
    · rename_i hzero
      cases h
      obtain rfl : parents = 0 := hzero
      exact hr
    · cases h
  · intro hr
    exact ⟨_, hr, rfl⟩

/-- The part leaves the request open. -/
inductive Part.Asks (r : Request) : Part → Prop where
  | own {key : String} {optional : Bool} {docs : List String} {value : Compiled}
      (h : r ∈ value.requests) : Asks r (.own key optional docs value)
  | mapped {keys : TypeExpr} {imports : Option ImportPaths} {value : Compiled}
      (h : r ∈ value.requests) : Asks r (.mapped keys imports value)
  | spread {value : Compiled} (h : r ∈ value.requests) : Asks r (.spread value)

/-- Some part leaves the request open. -/
def Part.Asked (parts : List Part) (r : Request) : Prop :=
  ∃ p ∈ parts, p.Asks r

theorem Part.mem_allRequests {parts : List Part} {r : Request} :
    r ∈ allRequests parts ↔ Asked parts r := by
  rw [allRequests, List.mem_flatMap]
  refine exists_congr fun p => and_congr_right fun _ => ?_
  constructor
  · intro h
    cases p with
    | own key optional docs value => exact .own h
    | mapped keys imports value => exact .mapped h
    | spread value => exact .spread h
  · rintro (h | h | h) <;> exact h

/-- The type that the parts of a struct make up, before it is declared. -/
inductive Part.Compose (parts : List Part) : TypeExpr → Prop where
  /-- No property is asked for. -/
  | plain (hnone : ∀ q ∈ fixed parts, ¬ Asked parts ⟨0, q.name⟩) :
      Compose parts (composition parts (fixed parts))
  /-- One property is asked for, and of several with its name the last one
  gives the values. -/
  | union {before behind : List Property} {name : String} {values : TypeExpr}
      {optional : Bool} {docs : List String}
      (hsplit : fixed parts = before ++ .mk name values optional docs :: behind)
      (hlast : ∀ q ∈ behind, q.name ≠ name) (hasked : Asked parts ⟨0, name⟩)
      (hone : ∀ q ∈ fixed parts, Asked parts ⟨0, q.name⟩ → q.name = name) :
      Compose parts (.access (.mapped "S" values (composition parts
        (before ++ .mk name (.named "S") optional docs :: behind)) false none)
        values)

/-- Some request is not for a property of the struct itself. -/
def Part.IsOpen (parts : List Part) : Prop :=
  ∃ r, Asked parts r ∧
    (0 < r.parents ∨ ∀ q ∈ fixed parts, q.name ≠ r.property)

theorem Part.leavesOpen_eq_true_iff {parts : List Part} :
    leavesOpen parts = true ↔ IsOpen parts := by
  simp only [leavesOpen, IsOpen, List.any_eq_true, mem_allRequests,
    properties_eq_fixed, Bool.or_eq_true, decide_eq_true_iff, Bool.not_eq_true',
    ← Bool.not_eq_true, List.contains_iff_mem, List.mem_map,
    not_exists, not_and]

theorem Part.compose_structBody {isRoot : Bool} {parts : List Part}
    {selector? : Option String}
    (h : chooseSelector isRoot ((properties parts).map (·.name))
      (requestedHere (allRequests parts)) = .ok selector?) :
    Compose parts (structBody parts selector?) := by
  obtain ⟨hfind, hall⟩ := chooseSelector_eq_ok h
  have hrequested {name : String} :
      name ∈ requestedHere (allRequests parts) ↔ Asked parts ⟨0, name⟩ :=
    mem_requestedHere.trans mem_allRequests
  rw [properties_eq_fixed] at hfind hall
  cases selector? with
  | none =>
      rw [structBody, Option.bind_none, composeParts_eq_composition,
        properties_eq_fixed]
      refine .plain fun q hq hasked => ?_
      have hfree :=
        List.find?_eq_none.mp hfind.symm q.name (hrequested.mpr hasked)
      exact hfree (List.contains_iff_mem.mpr (List.mem_map_of_mem hq))
  | some name =>
      have hasked := hrequested.mp (List.mem_of_find?_eq_some hfind.symm)
      have hname : name ∈ (fixed parts).map (·.name) := by
        simpa using List.find?_some hfind.symm
      cases hselect : selectProperty name (fixed parts) with
      | none =>
          obtain ⟨q, hq, rfl⟩ := List.mem_map.mp hname
          exact absurd rfl (selectProperty_eq_none_iff.mp hselect q hq)
      | some found =>
          obtain ⟨values, ps⟩ := found
          obtain ⟨before, ⟨key, type, optional, docs⟩, behind, hsplit, rfl, rfl,
            rfl, hlast⟩ := selectProperty_eq_some hselect
          rw [structBody, Option.bind_some, properties_eq_fixed, hselect]
          dsimp only
          rw [distribute, composeParts_eq_composition]
          refine .union hsplit hlast hasked fun q hq hq0 => ?_
          rcases hall q.name (hrequested.mpr hq0) with ⟨-, heq⟩ | ⟨-, hmissing⟩
          · exact (Option.some.inj heq).symm
          · exact absurd (List.mem_map_of_mem hq) hmissing

/-- A struct is put together as its fields say: what it inherits, the object of
its fixed keys and what is merged in, with the discriminator in the place of the
property that is asked for. At the root it is declared with the discriminator as
a type parameter if a request is left open. -/
theorem Schema.struct_composed {env : Environment} {scope : Scope}
    {fields : List Field} {attributes : List Attribute} {c : Compiled}
    (h : ((Schema.struct fields attributes).compile env scope).outcome =
      .ok c) :
    ∃ parts, List.Forall₂ (Field.CompilesTo env scope)
      (fields.filter (·.isLive)) parts ∧
      ∃ body, Part.Compose parts body ∧
        ((scope.isRoot = true ∧ Part.IsOpen parts) ∧
          (∃ name, scope.name = some name ∧
            c.type = .declaration
              { name, type := body,
                params := [{ name := "S", fallback := some .undefined }] }) ∨
          ¬ (scope.isRoot = true ∧ Part.IsOpen parts) ∧
            c.type = .expression body) := by
  obtain ⟨-, -, parts, hlive, hc⟩ := Schema.compile_struct_eq_ok_iff.mp h
  obtain ⟨⟨selector?, hselector, hbody⟩, -, -, hdeclared⟩ :=
    composeStruct_eq_ok hc
  refine ⟨parts, hlive, c.expr, hbody ▸ Part.compose_structBody hselector, ?_⟩
  rw [← Part.leavesOpen_eq_true_iff, ← Bool.and_eq_true]
  rcases hdeclared with ⟨htype, hclosed⟩ | ⟨name, hname, hopen, htype⟩
  · exact Or.inr ⟨Bool.eq_false_iff.mp hclosed, htype⟩
  · exact Or.inl ⟨hopen, name, hname, htype⟩

/-- A struct at the root with everything around two fixed keys of one name: the
last of them gives the values, a spread before them is inherited and one behind
is merged in, and a request that leads out of the struct makes it a declaration.
Fields are documented with their values, by their values alone or not at all. -/
theorem struct_composed_holder :
    let env : Environment :=
      { dispatchers := Table.empty.put "minecraft:thing" { name := "Thing" } }
    let scope : Scope := { isRoot := true, name := some "Holder" }
    let thing (steps : List Accessor) : Schema :=
      .dispatcher (.str "minecraft:thing") [.dynamic steps] []
    let level : Schema := .enum (.str "string")
      [.mk (.str "Low") (.str "low") .null [],
       .mk (.str "High") (.str "high") (.str "Up there") []] []
    let spread (path : String) : Field := .spread (.reference (.str path) []) []
    let fields : List Field :=
      [spread "::java::a::Base",
       .pair (.name "type") (.boolean []) false false .null [],
       .pair (.name "old") (.boolean []) false true .null [],
       .pair (.type (.string none [])) (thing [.property "type"])
         false false .null [],
       spread "::java::a::Extra",
       .pair (.name "type") (.string none []) true false (.str " kind ") [],
       .pair (.name "flag") (.boolean []) true false .null [],
       .pair (.name "level") level false false (.str "How high") [],
       .pair (.name "other") level true false (.str "") [],
       .pair (.name "up") (thing [.keyword (.str "parent"), .property "id"])
         false false .null []]
    let found : TypeExpr := .conditional (.named "S")
      (.operator "keyof" (.named "SymbolThing"))
      (.access (.named "SymbolThing") (.named "S"))
      (.reference "Record" [.string, .unknown]) true
    let levels : TypeExpr := .union [.text "low", .text "high"]
    ∃ c, ((Schema.struct fields []).compile env scope).outcome = .ok c ∧
      ∃ parts, List.Forall₂ (Field.CompilesTo env scope)
          (fields.filter (·.isLive)) parts ∧
        Part.IsOpen parts ∧
        ∃ body, Part.Compose parts body ∧
        body = .access (.mapped "S" .string
          (.intersection [.named "Base", .mapped "Key" .string found true none,
            .object [.mk "type" .boolean false [],
              .mk "type" (.named "S") true ["kind"],
              .mk "flag" .boolean true [],
              .mk "level" levels false
                ["How high", "", "Value:", "`High`: Up there"],
              .mk "other" levels true ["`High`: Up there"],
              .mk "up" found false []],
            .named "Extra"]) false none) .string ∧
        c.type = .declaration
          { name := "Holder", type := body
            params := [{ name := "S", fallback := some .undefined }] } := by
  intro env scope thing level spread fields found levels
  let params : List TypeParameter :=
    [{ name := "S", fallback := some .undefined }]
  obtain ⟨c, hc, htype⟩ :
      ∃ c, ((Schema.struct fields []).compile env scope).outcome = .ok c ∧
        c.type = .declaration { name := "Holder", type := c.expr, params } :=
    ⟨_, rfl, rfl⟩
  obtain ⟨parts, hparts, body, hbody, hdeclared | hexpr⟩ :=
    Schema.struct_composed hc
  · obtain ⟨⟨-, hopen⟩, name, hname, hdeclared⟩ := hdeclared
    cases hname
    have hbodyEq : body = c.expr := by
      rw [Compiled.expr, hdeclared]
      rfl
    refine ⟨c, hc, parts, hparts, hopen, body, hbody, ?_, hdeclared⟩
    rw [hbodyEq]
    cases hc
    rfl
  · have hplain := hexpr.2
    rw [htype] at hplain
    cases hplain

end Typings
