import Typings.Proofs.Composition
import Mathlib.Data.List.Perm.Basic

/-!
Whether a struct compiles does not depend on the order of its fields, but for
one case. At the root a property that is asked for may be missing. If the struct
is a union over another property as well, then it compiles only if everything
that is missing is asked for first.
-/

namespace Typings

/-- The properties that the fields of a struct ask of the struct
itself, in order. -/
def Field.asked (fields : List Field) : List String :=
  requestedHere (visibleRequests (Schema.fieldOccurrences fields))

/-- Whatever is missing is asked for before anything that is there. -/
def MissingFirst (names asked : List String) : Prop :=
  asked.Pairwise fun p q => p ∈ names → q ∈ names

theorem visibleRequests_fieldOccurrences_cons (field : Field)
    (rest : List Field) :
    visibleRequests (Schema.fieldOccurrences (field :: rest)) =
      visibleRequests (Schema.fieldOccurrences [field]) ++
        visibleRequests (Schema.fieldOccurrences rest) := by
  cases hlive : field.isLive with
  | false =>
      rw [fieldOccurrences_gone hlive, fieldOccurrences_gone hlive]
      rfl
  | true =>
      cases field with
      | pair key type optional deprecated description attributes =>
          cases key with
          | name name =>
              simp only [Schema.fieldOccurrences, if_pos hlive,
                visibleRequests_append]
              rw [visibleRequests_map (by simp), visibleRequests_map (by simp)]
              simp [visibleRequests]
          | type key =>
              simp [Schema.fieldOccurrences, if_pos hlive, visibleRequests]
      | spread type attributes =>
          simp [Schema.fieldOccurrences, if_pos hlive, visibleRequests]

theorem Field.visibleRequests_eq (fields : List Field) :
    visibleRequests (Schema.fieldOccurrences fields) =
      fields.flatMap fun field =>
        visibleRequests (Schema.fieldOccurrences [field]) := by
  induction fields with
  | nil => rfl
  | cons field rest ih =>
      rw [visibleRequests_fieldOccurrences_cons, ih, List.flatMap_cons]

theorem Field.asked_perm {fields fields' : List Field}
    (h : fields.Perm fields') :
    (asked fields).Perm (asked fields') := by
  rw [asked, asked, visibleRequests_eq, visibleRequests_eq]
  exact (h.flatMap_right _).filterMap _

theorem Field.liveNames_perm {fields fields' : List Field}
    (h : fields.Perm fields') :
    (liveNames fields).Perm (liveNames fields') :=
  (h.filter _).filterMap _

section Selector

variable {isRoot : Bool} {keys rest asked : List String} {property : String}

/-- Once a property is there, only the same one may be asked for. -/
theorem exists_chooseSelector_there (hkey : property ∈ keys) :
    (∃ selector?, chooseSelector isRoot keys (property :: rest) =
      .ok selector?) ↔ ∀ q ∈ rest, q = property := by
  rw [chooseSelector, if_pos (List.contains_iff_mem.mpr hkey)]
  split
  · rename_i other hother
    have hmem := List.mem_of_find?_eq_some hother
    have hne := List.find?_some hother
    simp only [reduceCtorEq, exists_false, false_iff, not_forall]
    exact ⟨other, hmem, by simpa using hne⟩
  · rename_i hnone
    simpa using List.find?_eq_none.mp hnone

/-- A property that is missing is passed over at the root, and nowhere else. -/
theorem exists_chooseSelector_missing (hkey : property ∉ keys) :
    (∃ selector?, chooseSelector isRoot keys (property :: rest) =
        .ok selector?) ↔
      isRoot = true ∧
        ∃ selector?, chooseSelector isRoot keys rest = .ok selector? := by
  rw [chooseSelector, if_neg (mt List.contains_iff_mem.mp hkey)]
  cases isRoot <;> simp

/-- A choice is possible exactly if only one property that is there is
asked for, and nothing is missing; at the root, if whatever is missing is
asked for first. -/
theorem exists_chooseSelector_iff :
    (∃ selector?, chooseSelector isRoot keys asked = .ok selector?) ↔
      (∀ p ∈ asked, ∀ q ∈ asked, p ∈ keys → q ∈ keys → p = q) ∧
        (isRoot = false → ∀ p ∈ asked, p ∈ keys) ∧
        (isRoot = true → MissingFirst keys asked) := by
  induction asked with
  | nil => simp [chooseSelector, MissingFirst]
  | cons property rest ih =>
      by_cases hkey : property ∈ keys
      · rw [exists_chooseSelector_there hkey]
        constructor
        · intro hrest
          have hall : ∀ p ∈ property :: rest, p = property :=
            List.forall_mem_cons.mpr ⟨rfl, hrest⟩
          have hthere : ∀ p ∈ property :: rest, p ∈ keys :=
            fun p hp => hall p hp ▸ hkey
          refine ⟨fun p hp q hq _ _ => (hall p hp).trans (hall q hq).symm,
            fun _ => hthere, fun _ => ?_⟩
          exact List.pairwise_of_forall_mem_list fun p _ q hq _ => hthere q hq
        · rintro ⟨hone, hthere, hfirst⟩ q hq
          have hq' : q ∈ property :: rest := List.mem_cons_of_mem _ hq
          have hqkey : q ∈ keys := by
            cases isRoot with
            | false => exact hthere rfl q hq'
            | true => exact (List.pairwise_cons.mp (hfirst rfl)).1 q hq hkey
          exact hone q hq' property List.mem_cons_self hqkey hkey
      · rw [exists_chooseSelector_missing hkey, ih]
        constructor
        · rintro ⟨hroot, hone, hthere, hfirst⟩
          refine ⟨fun p hp q hq hpkey hqkey => ?_, fun hroot' => ?_,
            fun _ => ?_⟩
          · have hp :=
              (List.mem_cons.mp hp).resolve_left fun heq => hkey (heq ▸ hpkey)
            have hq :=
              (List.mem_cons.mp hq).resolve_left fun heq => hkey (heq ▸ hqkey)
            exact hone p hp q hq hpkey hqkey
          · rw [hroot] at hroot'
            cases hroot'
          · exact List.pairwise_cons.mpr ⟨fun q _ hmem => absurd hmem hkey,
              hfirst hroot⟩
        · rintro ⟨hone, hthere, hfirst⟩
          have hroot : isRoot = true := by
            by_contra hroot
            exact hkey
              (hthere (Bool.eq_false_iff.mpr hroot) property List.mem_cons_self)
          refine ⟨hroot, fun p hp q hq => ?_, fun hroot' => ?_, fun _ => ?_⟩
          · exact hone p (List.mem_cons_of_mem _ hp) q
              (List.mem_cons_of_mem _ hq)
          · exact fun p hp => hthere hroot' p (List.mem_cons_of_mem _ hp)
          · exact (List.pairwise_cons.mp (hfirst hroot)).2

end Selector

/-- What is asked of a struct with the given parts can be answered, in whatever
order it is asked. -/
structure Part.Fit (scope : Scope) (parts : List Part) : Prop where
  /-- Only one of the properties is asked for. -/
  one : ∀ p ∈ requestedHere (allRequests parts),
    ∀ q ∈ requestedHere (allRequests parts),
    p ∈ (properties parts).map (·.name) →
      q ∈ (properties parts).map (·.name) → p = q
  /-- Away from the root, no property is missing. -/
  there : scope.isRoot = false →
    ∀ p ∈ requestedHere (allRequests parts), p ∈ (properties parts).map (·.name)
  /-- A struct that has to be declared has a name. -/
  named : scope.isRoot = true → IsOpen parts → scope.name ≠ none

section Parts

variable {scope : Scope} {parts parts' : List Part}

theorem exists_composeStruct_iff :
    (∃ c, composeStruct scope parts = .ok c) ↔ Part.Fit scope parts ∧
      (scope.isRoot = true → MissingFirst ((Part.properties parts).map (·.name))
        (requestedHere (Part.allRequests parts))) := by
  have hchoice := @exists_chooseSelector_iff scope.isRoot
    ((Part.properties parts).map (·.name))
    (requestedHere (Part.allRequests parts))
  constructor
  · rintro ⟨c, hc⟩
    obtain ⟨⟨selector?, hselector, -⟩, -, -, hdeclared⟩ :=
      composeStruct_eq_ok hc
    obtain ⟨hone, hthere, hfirst⟩ := hchoice.mp ⟨selector?, hselector⟩
    refine ⟨⟨hone, hthere, fun hroot hopen => ?_⟩, hfirst⟩
    rw [hroot, Bool.true_and, Part.leavesOpen_eq_true_iff.mpr hopen]
      at hdeclared
    rcases hdeclared with ⟨-, hclosed⟩ | ⟨name, hname, -⟩
    · cases hclosed
    · rw [hname]
      exact Option.some_ne_none name
  · rintro ⟨hfit, hfirst⟩
    obtain ⟨selector?, hselector⟩ := hchoice.mpr ⟨hfit.one, hfit.there, hfirst⟩
    rw [composeStruct]
    simp only [hselector]
    split
    · rename_i hopen
      rw [Bool.and_eq_true] at hopen
      obtain ⟨name, hname⟩ := Option.ne_none_iff_exists'.mp
        (hfit.named hopen.1 (Part.leavesOpen_eq_true_iff.mp hopen.2))
      rw [hname]
      exact ⟨_, rfl⟩
    · exact ⟨_, rfl⟩

theorem Part.Fit.of_perm (hperm : parts.Perm parts') (h : Fit scope parts) :
    Fit scope parts' := by
  have hrequests : (allRequests parts').Perm (allRequests parts) :=
    hperm.symm.flatMap_right _
  have hasked : (requestedHere (allRequests parts')).Perm
      (requestedHere (allRequests parts)) :=
    hrequests.filterMap _
  have hnames : ((properties parts').map (·.name)).Perm
      ((properties parts).map (·.name)) :=
    (hperm.symm.filterMap _).map _
  refine ⟨fun p hp q hq hpname hqname => ?_, fun hroot p hp => ?_,
    fun hroot hopen => h.named hroot ?_⟩
  · exact h.one p (hasked.mem_iff.mp hp) q (hasked.mem_iff.mp hq)
      (hnames.mem_iff.mp hpname) (hnames.mem_iff.mp hqname)
  · exact hnames.mem_iff.mpr (h.there hroot p (hasked.mem_iff.mp hp))
  · obtain ⟨r, ⟨p, hp, hasks⟩, hfar⟩ := hopen
    refine ⟨r, ⟨p, hperm.mem_iff.mpr hp, hasks⟩,
      hfar.imp_right fun hmissing q hq => ?_⟩
    rw [← properties_eq_fixed] at hmissing hq
    exact hmissing q ((hperm.filterMap _).mem_iff.mp hq)

end Parts

section Structs

variable {env : Environment} {scope : Scope} {fields fields' : List Field}
  {attributes : List Attribute}

/-- The fields of a struct compile, apart from how they fit together. -/
def Field.AllFit (env : Environment) (scope : Scope)
    (fields : List Field) : Prop :=
  (∀ field ∈ fields, checkAttributes field.attributes = .ok ⟨⟩) ∧
    ∃ parts, List.Forall₂ (Field.CompilesTo env scope)
      (fields.filter (·.isLive)) parts ∧ Part.Fit scope parts

theorem Field.AllFit.of_perm (hperm : fields.Perm fields')
    (h : AllFit env scope fields) :
    AllFit env scope fields' := by
  obtain ⟨hvalid, parts, hparts, hfit⟩ := h
  obtain ⟨parts', hparts', hperm'⟩ :=
    List.perm_comp_forall₂ (hperm.symm.filter (·.isLive)) hparts
  exact ⟨fun field hfield => hvalid field (hperm.mem_iff.mpr hfield), parts',
    hparts', hfit.of_perm hperm'.symm⟩

theorem Schema.exists_compile_struct_iff :
    (∃ c, ((Schema.struct fields attributes).compile env scope).outcome =
        .ok c) ↔
      checkAttributes attributes = .ok ⟨⟩ ∧ Field.AllFit env scope fields ∧
        (scope.isRoot = true →
          MissingFirst (Field.liveNames fields) (Field.asked fields)) := by
  simp only [compile_struct_eq_ok_iff]
  have hlists :
      ∀ parts, (∀ field ∈ fields, checkAttributes field.attributes = .ok ⟨⟩) →
      List.Forall₂ (Field.CompilesTo env scope)
        (fields.filter (·.isLive)) parts →
        (Part.properties parts).map (·.name) = Field.liveNames fields ∧
          requestedHere (Part.allRequests parts) = Field.asked fields := by
    intro parts hvalid hparts
    obtain ⟨entries, hentries, hcompiled⟩ :=
      Field.allCompile_iff.mpr ⟨hvalid, hparts⟩
    have hrules := Plan.compiles_ofFields fields hentries hcompiled
    exact ⟨hrules.names_eq, by rw [hrules.requests_eq, Field.asked]⟩
  constructor
  · rintro ⟨c, hcheck, hvalid, parts, hparts, hc⟩
    obtain ⟨hfit, hfirst⟩ := exists_composeStruct_iff.mp ⟨c, hc⟩
    obtain ⟨hnames, hasked⟩ := hlists parts hvalid hparts
    rw [hnames, hasked] at hfirst
    exact ⟨hcheck, ⟨hvalid, parts, hparts, hfit⟩, hfirst⟩
  · rintro ⟨hcheck, ⟨hvalid, parts, hparts, hfit⟩, hfirst⟩
    obtain ⟨hnames, hasked⟩ := hlists parts hvalid hparts
    rw [← hnames, ← hasked] at hfirst
    obtain ⟨c, hc⟩ := exists_composeStruct_iff.mpr ⟨hfit, hfirst⟩
    exact ⟨c, hcheck, hvalid, parts, hparts, hc⟩

theorem missingFirst_of_not_both {names asked : List String}
    (h : (∀ p ∈ asked, p ∈ names) ∨ ∀ p ∈ asked, p ∉ names) :
    MissingFirst names asked := by
  refine List.pairwise_of_forall_mem_list fun p hp q hq hname => ?_
  rcases h with hthere | hmissing
  · exact hthere q hq
  · exact absurd hname (hmissing p hp)

end Structs

/-- If a struct compiles, then with its fields in another order it compiles
exactly if, at the root, whatever is missing is asked for first. So the order of
the fields does not matter away from the root, nor where the struct is only
asked for properties that are there, nor where it is only asked for properties
that are missing. -/
theorem Schema.struct_compiles_reordered {env : Environment}
    {scope : Scope} {fields fields' : List Field}
    {attributes : List Attribute} (hperm : fields.Perm fields') :
    ((scope.isRoot = true →
        (∀ p ∈ Field.asked fields, p ∈ Field.liveNames fields) ∨
        ∀ p ∈ Field.asked fields, p ∉ Field.liveNames fields) →
      ((∃ c, ((Schema.struct fields attributes).compile env scope).outcome =
          .ok c) ↔
        ∃ c, ((Schema.struct fields' attributes).compile env scope).outcome =
          .ok c)) ∧
    ((∃ c, ((Schema.struct fields attributes).compile env scope).outcome =
        .ok c) →
      ((∃ c, ((Schema.struct fields' attributes).compile env scope).outcome =
          .ok c) ↔
        (scope.isRoot = true →
          MissingFirst (Field.liveNames fields') (Field.asked fields')))) := by
  simp only [exists_compile_struct_iff]
  have hfits : Field.AllFit env scope fields ↔ Field.AllFit env scope fields' :=
    ⟨Field.AllFit.of_perm hperm, Field.AllFit.of_perm hperm.symm⟩
  constructor
  · intro hboth
    have hfirst : scope.isRoot = true →
        MissingFirst (Field.liveNames fields) (Field.asked fields) :=
      fun hroot => missingFirst_of_not_both (hboth hroot)
    have hfirst' : scope.isRoot = true →
        MissingFirst (Field.liveNames fields') (Field.asked fields') := by
      intro hroot
      apply missingFirst_of_not_both
      simpa only [(Field.asked_perm hperm).mem_iff,
        (Field.liveNames_perm hperm).mem_iff] using hboth hroot
    rw [hfits, iff_true_intro hfirst, iff_true_intro hfirst']
  · rintro ⟨hcheck, hfit, -⟩
    rw [iff_true_intro hcheck, ← hfits, iff_true_intro hfit, true_and, true_and]

/-- A struct at the root that asks for a property which is missing and for one
which is there compiles in this order and in the other not. -/
theorem struct_compiles_reordered_missing :
    let env : Environment :=
      { dispatchers := Table.empty.put "minecraft:thing" { name := "Thing" } }
    let scope : Scope := { isRoot := true, name := some "Holder" }
    let type : Field :=
      .pair (.name "type") (.string none []) false false .null []
    let asking (name property : String) : Field :=
      .pair (.name name) (.dispatcher (.str "minecraft:thing")
        [.dynamic [.property property]] []) false false .null []
    let fields : List Field := [type, asking "x" "missing", asking "y" "type"]
    let fields' : List Field := [type, asking "y" "type", asking "x" "missing"]
    fields.Perm fields' ∧
      (∃ c, ((Schema.struct fields []).compile env scope).outcome = .ok c) ∧
      ¬ ∃ c, ((Schema.struct fields' []).compile env scope).outcome =
        .ok c := by
  intro env scope type asking fields fields'
  have hperm : fields.Perm fields' := .cons _ (.swap ..)
  have hcompiles : ∃ c, ((Schema.struct fields []).compile env scope).outcome =
      .ok c := ⟨_, rfl⟩
  refine ⟨hperm, hcompiles, fun hother => ?_⟩
  have hfirst :=
    ((Schema.struct_compiles_reordered hperm).2 hcompiles).mp hother rfl
  have hnames : Field.liveNames fields' = ["type", "y", "x"] := rfl
  have hasked : Field.asked fields' = ["type", "missing"] := rfl
  rw [hnames, hasked] at hfirst
  simp [MissingFirst] at hfirst

end Typings
