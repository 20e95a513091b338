import Typings.Proofs.Compilation

/-!
Version gating is erasure. What is gone in the latest version can be taken out
of a type before it is compiled: a type whose plan exists has the same plan
without the parts that are gone, so it compiles to the same in every scope.
-/

namespace Typings

/-- Is the value of an enum still there in the latest version? -/
def EnumValue.isLive (v : EnumValue) : Bool :=
  !Attribute.isGone v.attributes

mutual

/-- The type without the parts that are gone, at every depth. -/
def Schema.erase : Schema → Schema
  | .list item length attributes => .list item.erase length attributes
  | .tuple items attributes => .tuple (eraseLive items) attributes
  | .enum kind values attributes =>
      .enum kind (values.filter (·.isLive)) attributes
  | .struct fields attributes => .struct (eraseFields fields) attributes
  | .concrete child args attributes =>
      .concrete child.erase (eraseAll args) attributes
  | .template child params attributes => .template child.erase params attributes
  | .indexed child indices attributes => .indexed child.erase indices attributes
  | .union members attributes => .union (eraseLive members) attributes
  | type => type

/-- Types that all stay, each without the parts that are gone. -/
def Schema.eraseAll : List Schema → List Schema
  | [] => []
  | type :: rest => type.erase :: eraseAll rest

/-- Those of the types that are still there, each without the
parts that are gone. -/
def Schema.eraseLive : List Schema → List Schema
  | [] => []
  | type :: rest =>
      if type.isLive then type.erase :: eraseLive rest else eraseLive rest

/-- The fields that are still there, with keys and values without the
parts that are gone. -/
def Schema.eraseFields : List Field → List Field
  | [] => []
  | .pair key type optional deprecated description attributes :: rest =>
    if (Field.pair key type optional deprecated description
      attributes).isLive then
      .pair (eraseKey key) type.erase optional deprecated description
        attributes :: eraseFields rest
    else eraseFields rest
  | .spread type attributes :: rest =>
    if (Field.spread type attributes).isLive then
      .spread type.erase attributes :: eraseFields rest
    else eraseFields rest

def Schema.eraseKey : FieldKey → FieldKey
  | .name name => .name name
  | .type type => .type type.erase

end

mutual

/-- Is every part of the type still there, at every depth? -/
def Schema.isCurrent : Schema → Bool
  | .list item _ _ => item.isCurrent
  | .tuple items _ => items.all (·.isLive) && areCurrent items
  | .enum _ values _ => values.all (·.isLive)
  | .struct fields _ => fields.all (·.isLive) && fieldsAreCurrent fields
  | .concrete child args _ => child.isCurrent && areCurrent args
  | .template child _ _ => child.isCurrent
  | .indexed child _ _ => child.isCurrent
  | .union members _ => members.all (·.isLive) && areCurrent members
  | _ => true

/-- Is every part of every type still there? -/
def Schema.areCurrent : List Schema → Bool
  | [] => true
  | type :: rest => type.isCurrent && areCurrent rest

/-- Is every part of the keys and values of the fields still there? -/
def Schema.fieldsAreCurrent : List Field → Bool
  | [] => true
  | .pair key type _ _ _ _ :: rest =>
      keyIsCurrent key && type.isCurrent && fieldsAreCurrent rest
  | .spread type _ :: rest => type.isCurrent && fieldsAreCurrent rest

/-- Is every part of the key still there? -/
def Schema.keyIsCurrent : FieldKey → Bool
  | .name _ => true
  | .type type => type.isCurrent

end

namespace Schema

theorem erase_reference (path : Json) (attributes : List Attribute) :
    (reference path attributes).erase = reference path attributes :=
  rfl

theorem erase_dispatcher (registry : Json) (indices : List Index)
    (attributes : List Attribute) :
    (dispatcher registry indices attributes).erase =
      dispatcher registry indices attributes :=
  rfl

theorem attributes_erase (type : Schema) :
    type.erase.attributes = type.attributes := by
  cases type <;> rfl

theorem isLive_erase (type : Schema) : type.erase.isLive = type.isLive := by
  rw [isLive, isLive, attributes_erase]

theorem isSpreadable_erase (type : Schema) :
    isSpreadable type.erase = isSpreadable type := by
  cases type <;> rfl

theorem eraseLive_eq (types : List Schema) :
    eraseLive types = (types.filter (·.isLive)).map erase := by
  induction types with
  | nil => rfl
  | cons type rest ih =>
      rw [eraseLive, List.filter_cons]
      split
      · rw [ih, List.map_cons]
      · exact ih

/-- The attributes of what is still there are among those of everything. -/
theorem checkAttributes_eraseLive {types : List Schema}
    (h : types.forM (fun t => checkAttributes t.attributes) = .ok ⟨⟩) :
    (eraseLive types).forM (fun t => checkAttributes t.attributes) =
      .ok ⟨⟩ := by
  rw [forM_eq_ok_iff] at h ⊢
  intro type htype
  rw [eraseLive_eq] at htype
  obtain ⟨full, hfull, rfl⟩ := List.mem_map.mp htype
  rw [attributes_erase]
  exact h full (List.mem_of_mem_filter hfull)

end Schema

theorem enumCases_filter {values : List EnumValue} {cases : List EnumCase}
    (h : enumCases values = .ok cases) :
    enumCases (values.filter (·.isLive)) = .ok cases := by
  induction values generalizing cases with
  | nil => exact h
  | cons v rest ih =>
      obtain ⟨⟨⟩, hcheck, h⟩ := bind_eq_ok_iff.mp h
      obtain ⟨others, hothers, h⟩ := bind_eq_ok_iff.mp h
      have hrest := ih hothers
      by_cases hgone : Attribute.isGone v.attributes = true
      · rw [if_pos hgone] at h
        rw [List.filter_cons_of_neg (by simp [EnumValue.isLive, hgone]), hrest]
        exact h
      · rw [List.filter_cons_of_pos (by simpa [EnumValue.isLive] using hgone)]
        exact bind_eq_ok_iff.mpr ⟨⟨⟩, hcheck,
          bind_eq_ok_iff.mpr ⟨others, hrest, h⟩⟩

mutual

/-- The parts that are gone leave nothing in the plan. -/
theorem Plan.ofBody_erase : ∀ (type : Schema) {plan : Plan},
    Plan.ofBody type = .ok plan → Plan.ofBody type.erase = .ok plan
  | .any _, _, h | .unchecked _, _, h | .boolean _, _, h | .string _ _, _, h |
      .numeric _ _ _, _, h
  | .array _ _ _ _, _, h | .literal _ _ _, _, h | .reference _ _, _,
      h | .dispatcher _ _ _, _, h => h
  | .list item length attributes, plan, h => by
      rw [Plan.ofBody, bind_eq_ok_iff] at h
      obtain ⟨⟨⟩, hcheck, h⟩ := h
      obtain ⟨itemPlan, hitem, h⟩ := bind_eq_ok_iff.mp h
      rw [Schema.erase, Plan.ofBody, Schema.attributes_erase]
      exact bind_eq_ok_iff.mpr ⟨⟨⟩, hcheck,
        bind_eq_ok_iff.mpr ⟨itemPlan, Plan.ofBody_erase item hitem, h⟩⟩
  | .tuple items attributes, plan, h => by
      rw [Plan.ofBody, bind_eq_ok_iff] at h
      obtain ⟨⟨⟩, hcheck, h⟩ := h
      obtain ⟨plans, hitems, h⟩ := bind_eq_ok_iff.mp h
      rw [Schema.erase, Plan.ofBody]
      exact bind_eq_ok_iff.mpr ⟨⟨⟩, Schema.checkAttributes_eraseLive hcheck,
        bind_eq_ok_iff.mpr ⟨plans, Plan.ofLive_erase items hitems, h⟩⟩
  | .union members attributes, plan, h => by
      rw [Plan.ofBody, bind_eq_ok_iff] at h
      obtain ⟨⟨⟩, hcheck, h⟩ := h
      obtain ⟨plans, hmembers, h⟩ := bind_eq_ok_iff.mp h
      rw [Schema.erase, Plan.ofBody]
      exact bind_eq_ok_iff.mpr ⟨⟨⟩, Schema.checkAttributes_eraseLive hcheck,
        bind_eq_ok_iff.mpr ⟨plans, Plan.ofLive_erase members hmembers, h⟩⟩
  | .enum kind values attributes, plan, h => by
      rw [Plan.ofBody, bind_eq_ok_iff] at h
      obtain ⟨cases, hcases, h⟩ := h
      rw [Schema.erase, Plan.ofBody, enumCases_filter hcases]
      exact h
  | .struct fields attributes, plan, h => by
      rw [Plan.ofBody, bind_eq_ok_iff] at h
      obtain ⟨entries, hentries, h⟩ := h
      rw [Schema.erase, Plan.ofBody, Plan.ofFields_erase fields hentries]
      exact h
  | .concrete child args attributes, plan, h => by
      rw [Plan.ofBody.eq_def] at h
      dsimp only at h
      split at h
      · obtain ⟨⟨⟩, hcheck, h⟩ := bind_eq_ok_iff.mp h
        rw [Schema.erase, Schema.erase_reference, Plan.ofBody]
        refine bind_eq_ok_iff.mpr ⟨⟨⟩, hcheck, ?_⟩
        split at h
        · cases h
        · rename_i hpath
          obtain ⟨plans, hplans, h⟩ := bind_eq_ok_iff.mp h
          rw [if_neg hpath]
          exact bind_eq_ok_iff.mpr ⟨plans, Plan.ofAll_erase args hplans, h⟩
      · cases h
  | .template child params attributes, plan, h => by
      rw [Plan.ofBody, bind_eq_ok_iff] at h
      obtain ⟨⟨⟩, hcheck, h⟩ := h
      obtain ⟨body, hbody, h⟩ := bind_eq_ok_iff.mp h
      rw [Schema.erase, Plan.ofBody, Schema.attributes_erase]
      exact bind_eq_ok_iff.mpr ⟨⟨⟩, hcheck,
        bind_eq_ok_iff.mpr ⟨body, Plan.ofBody_erase child hbody, h⟩⟩
  | .indexed child indices attributes, plan, h => by
      rw [Plan.ofBody.eq_def] at h
      dsimp only at h
      split at h
      · rw [Schema.erase, Schema.erase_dispatcher, Plan.ofBody]
        exact h
      · cases h

theorem Plan.ofAll_erase : ∀ (types : List Schema) {plans : List Plan},
    Plan.ofAll types = .ok plans →
      Plan.ofAll (Schema.eraseAll types) = .ok plans
  | [], _, h => h
  | type :: rest, plans, h => by
      rw [Plan.ofAll, bind_eq_ok_iff] at h
      obtain ⟨⟨⟩, hcheck, h⟩ := h
      obtain ⟨plan, hplan, h⟩ := bind_eq_ok_iff.mp h
      obtain ⟨others, hothers, h⟩ := bind_eq_ok_iff.mp h
      rw [Schema.eraseAll, Plan.ofAll, Schema.attributes_erase]
      exact bind_eq_ok_iff.mpr ⟨⟨⟩, hcheck,
        bind_eq_ok_iff.mpr ⟨plan, Plan.ofBody_erase type hplan,
        bind_eq_ok_iff.mpr ⟨others, Plan.ofAll_erase rest hothers, h⟩⟩⟩

theorem Plan.ofLive_erase : ∀ (types : List Schema) {plans : List Plan},
    Plan.ofLive types = .ok plans →
      Plan.ofLive (Schema.eraseLive types) = .ok plans
  | [], _, h => h
  | type :: rest, plans, h => by
      rw [Plan.ofLive] at h
      rw [Schema.eraseLive]
      split at h
      · rename_i hgone
        rw [if_neg (by simp [Schema.isLive, hgone])]
        exact Plan.ofLive_erase rest h
      · rename_i hlive
        obtain ⟨plan, hplan, h⟩ := bind_eq_ok_iff.mp h
        obtain ⟨others, hothers, h⟩ := bind_eq_ok_iff.mp h
        rw [if_pos (by simpa [Schema.isLive] using hlive), Plan.ofLive,
          Schema.attributes_erase, if_neg hlive]
        exact bind_eq_ok_iff.mpr ⟨plan, Plan.ofBody_erase type hplan,
          bind_eq_ok_iff.mpr ⟨others, Plan.ofLive_erase rest hothers, h⟩⟩

theorem Plan.ofFields_erase : ∀ (fields : List Field) {entries : List Entry},
    Plan.ofFields fields = .ok entries →
      Plan.ofFields (Schema.eraseFields fields) = .ok entries
  | [], _, h => h
  | .spread type attributes :: rest, entries, h => by
      rw [Plan.ofFields, bind_eq_ok_iff] at h
      obtain ⟨⟨⟩, hcheck, h⟩ := h
      rw [Schema.eraseFields]
      split at h
      · rename_i hgone
        rw [if_neg (by simp [Field.isLive, hgone])]
        exact Plan.ofFields_erase rest h
      · rename_i hlive
        rw [if_pos (by simpa [Field.isLive] using hlive), Plan.ofFields]
        refine bind_eq_ok_iff.mpr ⟨⟨⟩, hcheck, ?_⟩
        rw [if_neg hlive, Schema.isSpreadable_erase, Schema.attributes_erase]
        split at h
        · cases h
        · rename_i hspread
          obtain ⟨⟨⟩, htype, h⟩ := bind_eq_ok_iff.mp h
          obtain ⟨plan, hplan, h⟩ := bind_eq_ok_iff.mp h
          obtain ⟨others, hothers, h⟩ := bind_eq_ok_iff.mp h
          rw [if_neg hspread]
          exact bind_eq_ok_iff.mpr ⟨⟨⟩, htype,
            bind_eq_ok_iff.mpr ⟨plan, Plan.ofBody_erase type hplan,
            bind_eq_ok_iff.mpr ⟨others, Plan.ofFields_erase rest hothers, h⟩⟩⟩
  | .pair key type optional deprecated description attributes :: rest,
      entries, h => by
      rw [Plan.ofFields.eq_def] at h
      dsimp only at h
      obtain ⟨⟨⟩, hcheck, h⟩ := bind_eq_ok_iff.mp h
      rw [Schema.eraseFields]
      split at h
      · rename_i hgone
        rw [if_neg (by simp [Field.isLive, hgone])]
        exact Plan.ofFields_erase rest h
      · rename_i hlive
        rw [if_pos (by simpa [Field.isLive] using hlive), Plan.ofFields.eq_def]
        dsimp only
        refine bind_eq_ok_iff.mpr ⟨⟨⟩, hcheck, ?_⟩
        rw [if_neg hlive]
        cases key with
        | name name =>
            obtain ⟨⟨⟩, htype, h⟩ := bind_eq_ok_iff.mp h
            obtain ⟨plan, hplan, h⟩ := bind_eq_ok_iff.mp h
            obtain ⟨others, hothers, h⟩ := bind_eq_ok_iff.mp h
            rw [Schema.eraseKey, Schema.attributes_erase]
            exact bind_eq_ok_iff.mpr ⟨⟨⟩, htype,
              bind_eq_ok_iff.mpr ⟨plan, Plan.ofBody_erase type hplan,
              bind_eq_ok_iff.mpr ⟨others, Plan.ofFields_erase rest hothers, h⟩⟩⟩
        | type keyType =>
            obtain ⟨keyPlan, hkey, h⟩ := bind_eq_ok_iff.mp h
            obtain ⟨⟨⟩, htype, h⟩ := bind_eq_ok_iff.mp h
            obtain ⟨plan, hplan, h⟩ := bind_eq_ok_iff.mp h
            obtain ⟨others, hothers, h⟩ := bind_eq_ok_iff.mp h
            rw [Schema.eraseKey, Schema.attributes_erase]
            exact bind_eq_ok_iff.mpr ⟨keyPlan, Plan.ofKey_erase keyType hkey,
              bind_eq_ok_iff.mpr ⟨⟨⟩, htype,
                bind_eq_ok_iff.mpr ⟨plan, Plan.ofBody_erase type hplan,
                bind_eq_ok_iff.mpr ⟨others,
                  Plan.ofFields_erase rest hothers, h⟩⟩⟩⟩

theorem Plan.ofKey_erase : ∀ (type : Schema) {plan : KeyPlan},
    Plan.ofKey type = .ok plan → Plan.ofKey type.erase = .ok plan
  | type, plan, h => by
      cases type with
      | string length attributes => exact h
      | reference path attributes => exact h
      | concrete child args attributes =>
          rw [Plan.ofKey.eq_def] at h
          obtain ⟨⟨⟩, hcheck, h⟩ := bind_eq_ok_iff.mp h
          split at h
          · rw [Schema.erase, Schema.erase_reference, Plan.ofKey]
            refine bind_eq_ok_iff.mpr ⟨⟨⟩, hcheck, ?_⟩
            split at h
            · cases h
            · rename_i hpath
              obtain ⟨⟨⟩, hchild, h⟩ := bind_eq_ok_iff.mp h
              obtain ⟨plans, hplans, h⟩ := bind_eq_ok_iff.mp h
              rw [if_neg hpath]
              exact bind_eq_ok_iff.mpr ⟨⟨⟩, hchild,
                bind_eq_ok_iff.mpr ⟨plans, Plan.ofAll_erase args hplans, h⟩⟩
          · cases h
      | union members attributes =>
          rw [Plan.ofKey, bind_eq_ok_iff] at h
          obtain ⟨⟨⟩, hcheck, h⟩ := h
          obtain ⟨⟨⟩, hmembers, h⟩ := bind_eq_ok_iff.mp h
          obtain ⟨plans, hplans, h⟩ := bind_eq_ok_iff.mp h
          rw [Schema.erase, Plan.ofKey]
          exact bind_eq_ok_iff.mpr ⟨⟨⟩, hcheck, bind_eq_ok_iff.mpr
            ⟨⟨⟩, Schema.checkAttributes_eraseLive hmembers,
              bind_eq_ok_iff.mpr ⟨plans, Plan.ofLive_erase members hplans, h⟩⟩⟩
      | _ =>
          rw [Plan.ofKey.eq_def] at h
          obtain ⟨-, -, h⟩ := bind_eq_ok_iff.mp h
          cases h

end

namespace Schema

theorem all_isLive_eraseLive (types : List Schema) :
    (eraseLive types).all (·.isLive) = true := by
  rw [eraseLive_eq, List.all_eq_true]
  intro type htype
  obtain ⟨full, hfull, rfl⟩ := List.mem_map.mp htype
  rw [isLive_erase]
  exact (List.mem_filter.mp hfull).2

theorem all_isLive_eraseFields (fields : List Field) :
    (eraseFields fields).all (·.isLive) = true := by
  induction fields with
  | nil => rfl
  | cons field rest ih =>
      cases field with
      | pair key type optional deprecated description attributes =>
          rw [eraseFields]
          split
          · rename_i hlive
            rw [List.all_cons, ih, Bool.and_true]
            exact hlive
          · exact ih
      | spread type attributes =>
          rw [eraseFields]
          split
          · rename_i hlive
            rw [List.all_cons, ih, Bool.and_true]
            exact hlive
          · exact ih

mutual

/-- Nothing that is gone is left at any depth. -/
theorem isCurrent_erase : ∀ type : Schema, type.erase.isCurrent = true
  | .any _ | .unchecked _ | .boolean _ | .string _ _ | .numeric _ _ _ |
      .array _ _ _ _ | .literal _ _ _
  | .reference _ _ | .dispatcher _ _ _ => rfl
  | .list item _ _ => isCurrent_erase item
  | .template child _ _ => isCurrent_erase child
  | .indexed child _ _ => isCurrent_erase child
  | .tuple items _ => by
      rw [erase, isCurrent, all_isLive_eraseLive, areCurrent_eraseLive items,
        Bool.and_true]
  | .union members _ => by
      rw [erase, isCurrent, all_isLive_eraseLive, areCurrent_eraseLive members,
        Bool.and_true]
  | .enum _ values _ => by
      rw [erase, isCurrent, List.all_eq_true]
      exact fun v hv => (List.mem_filter.mp hv).2
  | .struct fields _ => by
      rw [erase, isCurrent, all_isLive_eraseFields,
        fieldsAreCurrent_eraseFields fields, Bool.and_true]
  | .concrete child args _ => by
      rw [erase, isCurrent, isCurrent_erase child, areCurrent_eraseAll args,
        Bool.and_true]

theorem areCurrent_eraseAll :
    ∀ types : List Schema, areCurrent (eraseAll types) = true
  | [] => rfl
  | type :: rest => by
      rw [eraseAll, areCurrent, isCurrent_erase type, areCurrent_eraseAll rest,
        Bool.and_true]

theorem areCurrent_eraseLive :
    ∀ types : List Schema, areCurrent (eraseLive types) = true
  | [] => rfl
  | type :: rest => by
      rw [eraseLive]
      split
      · rw [areCurrent, isCurrent_erase type, areCurrent_eraseLive rest,
          Bool.and_true]
      · exact areCurrent_eraseLive rest

theorem fieldsAreCurrent_eraseFields :
    ∀ fields : List Field, fieldsAreCurrent (eraseFields fields) = true
  | [] => rfl
  | .pair key type _ _ _ _ :: rest => by
      rw [eraseFields]
      split
      · rw [fieldsAreCurrent, keyIsCurrent_eraseKey key, isCurrent_erase type,
          fieldsAreCurrent_eraseFields rest]
        rfl
      · exact fieldsAreCurrent_eraseFields rest
  | .spread type _ :: rest => by
      rw [eraseFields]
      split
      · rw [fieldsAreCurrent, isCurrent_erase type,
          fieldsAreCurrent_eraseFields rest, Bool.and_true]
      · exact fieldsAreCurrent_eraseFields rest

theorem keyIsCurrent_eraseKey :
    ∀ key : FieldKey, keyIsCurrent (eraseKey key) = true
  | .name _ => rfl
  | .type type => isCurrent_erase type

end

/-- A type that can be validated compiles in every scope as if what is
gone had never been there: to the same outcome, with the same
references met on the way. -/
theorem compile_erase {type : Schema} {plan : Plan}
    (h : Plan.ofSchema type = .ok plan) :
    type.erase.isCurrent = true ∧ Plan.ofSchema type.erase = .ok plan ∧
      ∀ (env : Environment) (scope : Scope),
        type.erase.compile env scope = type.compile env scope := by
  have herased : Plan.ofSchema type.erase = .ok plan := by
    obtain ⟨⟨⟩, hcheck, hbody⟩ := bind_eq_ok_iff.mp h
    rw [Plan.ofSchema, attributes_erase]
    exact bind_eq_ok_iff.mpr ⟨⟨⟩, hcheck, Plan.ofBody_erase type hbody⟩
  refine ⟨isCurrent_erase type, herased, fun env scope => ?_⟩
  rw [compile, compile, herased, h]

end Schema

/-- A mark that something is gone since a version. -/
def goneSince (version : String) : Attribute :=
  .mk (.str "until") (.type (.literal (.str "string") (.str version) []))

/-- A struct with a key, a member of a union, a value of an enum and two fields
that are gone. One of them asks for a property that is not there. -/
def gatedStruct : Schema :=
  .struct
    [.pair (.name "id") (.union [.boolean [],
      .string none [goneSince "1.20"]] []) false false .null [],
     .pair (.name "old") (.dispatcher (.str "minecraft:x")
         [.dynamic [.property "missing"]] []) false false .null
       [goneSince "1.19"],
     .pair (.name "flag") (.boolean []) true true .null [],
     .pair (.type (.union [.reference (.str "::java::a::Key") [],
         .boolean [goneSince "1.18"]] []))
       (.enum (.str "int") [.mk (.str "A") (.int 1) .null [],
         .mk (.str "B") (.int 2) .null [goneSince "1.18"]] [])
       false false .null []] []

def currentStruct : Schema :=
  .struct
    [.pair (.name "id") (.union [.boolean []] []) false false .null [],
     .pair (.type (.union [.reference (.str "::java::a::Key") []] []))
       (.enum (.str "int") [.mk (.str "A") (.int 1) .null []] []) false false
         .null []] []

theorem compile_erase_gatedStruct : gatedStruct.erase = currentStruct ∧
    ∃ plan, Plan.ofSchema gatedStruct = .ok plan ∧
    Plan.ofSchema currentStruct = .ok plan ∧
      ∀ (env : Environment) (scope : Scope),
        currentStruct.compile env scope = gatedStruct.compile env scope := by
  have herased : gatedStruct.erase = currentStruct := by rfl
  obtain ⟨plan, hplan⟩ :=
    exists_eq_ok_of_isOk (x := Plan.ofSchema gatedStruct) (by decide +kernel)
  obtain ⟨-, hsame, hcompile⟩ := Schema.compile_erase hplan
  rw [herased] at hsame hcompile
  exact ⟨herased, plan, hplan, hsame, hcompile⟩

end Typings
