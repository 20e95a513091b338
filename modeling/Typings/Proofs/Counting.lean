import Typings.Proofs.Emission
import Typings.Proofs.Frames
import Typings.Proofs.Requests
import Mathlib.Algebra.GroupWithZero.Nat

/-!
How often modules refer to dispatchers. Compiling a type counts each dispatcher
index in it once, for the module that it is compiled for, and does nothing else
to the state. So when the dispatchers are placed, the count of a registry and a
module is the number of indices in the symbols that were compiled there.
-/

namespace Typings

/-- The registry that a link looks up. -/
def Link.registry? : Link → Option Json
  | .reference _ => none
  | .dispatcher registry _ => some registry

/-- The registries that occurrences look up, one for each index. -/
def lookedUp (os : List Occurrence) : List Json :=
  os.filterMap (·.link.registry?)

/-- How often a type looks up the registry. What is gone does not count. -/
def Schema.lookups (type : Schema) (registry : String) : Nat :=
  (lookedUp type.occurrences).countP (·.isText registry)

theorem lookedUp_append (os more : List Occurrence) :
    lookedUp (os ++ more) = lookedUp os ++ lookedUp more :=
  List.filterMap_append ..

/-- It does not matter how far out an occurrence is seen from. -/
theorem lookedUp_map_within (os : List Occurrence) (frame : Frame) :
    lookedUp (os.map (·.within frame)) = lookedUp os :=
  List.filterMap_map

theorem lookedUp_structOccurrences (names : List String)
    (placed : List (Place × Occurrence)) :
    lookedUp (structOccurrences names placed) =
      lookedUp (placed.map (·.2)) := by
  rw [structOccurrences, lookedUp, lookedUp, List.filterMap_map,
    List.filterMap_map]
  rfl

theorem lookedUp_placed (os : List Occurrence) (place : Place)
    (rest : List (Place × Occurrence)) :
    lookedUp (((os.map fun o => (place, o)) ++ rest).map (·.2)) =
      lookedUp os ++ lookedUp (rest.map (·.2)) := by
  rw [List.map_append, List.map_map, lookedUp_append]
  congr 2
  exact List.map_id os

/-- If the computation succeeds, it notes one reference to each of the
registries, in order. -/
def Emit.Notes {α : Type} (registries : List Json) (x : Emit α) : Prop :=
  ∀ a, x.outcome = .ok a →
    x.references.map (fun ref => Json.str ref.registry) = registries

namespace Emit.Notes

variable {α β : Type} {registries more : List Json}

theorem of_nil {x : Emit α} (h : x.references = []) : x.Notes [] := by
  intro a _
  rw [h, List.map_nil]

theorem of_error {x : Emit α} {fault : Fault} (h : x.outcome = .error fault) :
    x.Notes registries := by
  intro a ha
  rw [h] at ha
  cases ha

theorem bind {x : Emit α} {f : α → Emit β} (hx : x.Notes registries)
    (hf : ∀ a, (f a).Notes more) :
    (x >>= f).Notes (registries ++ more) := by
  intro b hb
  obtain ⟨a, ha, hb⟩ := Emit.outcome_bind_eq_ok_iff.mp hb
  rw [Emit.bind_of_ok ha, List.map_append, hx a ha, hf a b hb]

/-- What follows notes nothing more. -/
theorem bind_silent {x : Emit α} {f : α → Emit β} (hx : x.Notes registries)
    (hf : ∀ a, (f a).Notes []) :
    (x >>= f).Notes registries := by
  have h := hx.bind hf
  rw [List.append_nil] at h
  exact h

theorem lift_bind {x : Except Fault α} {f : α → Emit β}
    (hf : ∀ a, (f a).Notes registries) :
    ((liftM x : Emit α) >>= f).Notes registries :=
  (of_nil rfl : (liftM x : Emit α).Notes []).bind hf

end Emit.Notes

variable {env : Environment} {source : String}

theorem notes_compileDispatcher {scope : Scope}
    (hsource : scope.source = some source) {registry : Json}
    {index : IndexForm} {keys : List Json} :
    (compileDispatcher env scope registry index keys).Notes [registry] := by
  intro c hc
  obtain ⟨⟨key, info⟩, hinfo, hc⟩ := Emit.outcome_bind_eq_ok_iff.mp hc
  rw [compileDispatcher, Emit.bind_of_ok hinfo,
    (Environment.dispatcher_eq_ok hinfo).1, hsource]
  rfl

/-- The plan looks up nothing, wherever it is compiled. -/
def Plan.IsSilent (plan : Plan) : Prop :=
  ∀ (env : Environment) (scope : Scope),
    (plan.compile env scope).references = []

namespace Plan

theorem isSilent_ofNumeric {kind : NumericKind} {range : Option Range}
    {plan : Plan} (h : ofNumeric kind range = .ok plan) : plan.IsSilent := by
  rw [ofNumeric.eq_def] at h
  split at h
  · split at h
    · cases h
      exact fun _ _ => rfl
    · obtain ⟨found, -, h⟩ := bind_eq_ok_iff.mp h
      cases h
      exact fun _ _ => rfl
  · dsimp only at h
    split at h
    · cases h
      exact fun _ _ => rfl
    · obtain ⟨found, -, h⟩ := bind_eq_ok_iff.mp h
      cases h
      exact fun _ _ => rfl

theorem isSilent_ofArray {kind : ArrayKind}
    {range length : Option Range} {plan : Plan}
    (h : ofArray kind range length = .ok plan) : plan.IsSilent := by
  rw [ofArray.eq_def] at h
  obtain ⟨rangeDocs, h⟩ := exists_of_rangeDocs h
  dsimp only at h
  split at h
  · cases h
    exact fun _ _ => rfl
  · obtain ⟨found, -, h⟩ := bind_eq_ok_iff.mp h
    cases h
    exact fun _ _ => rfl

theorem isSilent_ofString {length : Option Range}
    {attributes : List Attribute} {plan : Plan}
    (h : ofString length attributes = .ok plan) : plan.IsSilent := by
  rw [ofString.eq_def] at h
  obtain ⟨docs, h⟩ := exists_of_rangeDocs h
  dsimp only at h
  split at h
  · obtain ⟨isSome, -, h⟩ := bind_eq_ok_iff.mp h
    cases h
    exact fun _ _ => rfl
  · obtain ⟨name?, -, h⟩ := bind_eq_ok_iff.mp h
    split at h
    · split at h <;> cases h <;> exact fun _ _ => rfl
    · cases h
      exact fun _ _ => rfl
    · split at h <;> cases h
      exact fun _ _ => rfl

theorem isSilent_of_isLeaf {type : Schema}
    {plan : Plan} (hleaf : type.isLeaf = true)
    (h : ofBody type = .ok plan) : plan.IsSilent := by
  cases type with
  | string length attributes => exact isSilent_ofString (by rwa [ofBody] at h)
  | numeric kind range attributes =>
      exact isSilent_ofNumeric (by rwa [ofBody] at h)
  | array kind range length attributes =>
      exact isSilent_ofArray (by rwa [ofBody] at h)
  | enum kind values attributes =>
      rw [ofBody] at h
      obtain ⟨cases, -, h⟩ := bind_eq_ok_iff.mp h
      cases h
      exact fun _ _ => rfl
  | literal kind value attributes =>
      rw [ofBody] at h
      obtain ⟨found, -, h⟩ := bind_eq_ok_iff.mp h
      cases h
      exact fun _ _ => rfl
  | any attributes | unchecked attributes | boolean attributes =>
      cases h
      exact fun _ _ => rfl
  | _ => cases hleaf

theorem references_compileKey_ofString {length : Option Range}
    {attributes : List Attribute} {plan : KeyPlan}
    (h : KeyPlan.ofString length attributes = .ok plan) (scope : Scope) :
    (compileKey env scope plan).references = [] := by
  rw [KeyPlan.ofString.eq_def] at h
  split at h
  · obtain ⟨isSome, -, h⟩ := bind_eq_ok_iff.mp h
    cases h
    rfl
  · obtain ⟨name?, -, h⟩ := bind_eq_ok_iff.mp h
    split at h
    · dsimp only at h
      split at h <;> cases h <;> rfl
    · cases h
      rfl
    · cases h
      rfl
    · cases h
      rfl
    · split at h <;> cases h
      rfl

theorem notes_leaf {type : Schema} {plan : Plan} {scope : Scope}
    (hleaf : type.isLeaf = true) (h : ofBody type = .ok plan) :
    (plan.compile env scope).Notes (lookedUp type.occurrences) := by
  rw [occurrences_eq_nil hleaf]
  exact .of_nil (isSilent_of_isLeaf hleaf h env scope)

theorem notes_concrete {scope : Scope} {path : Json}
    {plans : List Plan} {registries : List Json}
    (h : (compileAll env (scope.nested none) plans).Notes registries) :
    ((concrete path plans).compile env scope).Notes registries := by
  rw [compile]
  exact h.bind_silent fun _ => .lift_bind fun _ => .of_nil rfl

theorem notes_union {scope : Scope} {plans : List Plan} {registries : List Json}
    (h : (compileAll env (scope.nested scope.name) plans).Notes registries) :
    ((union plans).compile env scope).Notes registries := by
  rw [compile]
  exact h.bind_silent fun _ => .of_nil rfl

theorem notes_computed {scope : Scope} {plan : Plan} {registries : List Json}
    (h : (plan.compile env (scope.nested none)).Notes registries) :
    (compileKey env scope (.computed plan)).Notes registries := by
  rw [compileKey]
  exact h.bind_silent fun _ => .of_nil rfl

mutual

theorem notes_ofBody :
    ∀ (type : Schema) {plan : Plan} {scope : Scope}, ofBody type = .ok plan →
    scope.source = some source →
    (plan.compile env scope).Notes (lookedUp type.occurrences)
  | .any _, _, _, hplan, _ | .unchecked _, _, _, hplan, _ |
      .boolean _, _, _, hplan, _
  | .string _ _, _, _, hplan, _ | .numeric _ _ _, _, _, hplan, _ |
      .array _ _ _ _, _, _, hplan, _
  | .enum _ _ _, _, _, hplan, _ | .literal _ _ _, _, _, hplan, _ =>
      notes_leaf rfl hplan
  | .list item length attributes, plan, scope, hplan, hsource => by
      rw [ofBody] at hplan
      obtain ⟨-, -, hplan⟩ := bind_eq_ok_iff.mp hplan
      obtain ⟨itemPlan, hitem, hplan⟩ := bind_eq_ok_iff.mp hplan
      obtain rfl := pure_eq_ok_iff.mp hplan
      rw [compile, Schema.occurrences, lookedUp_map_within]
      exact .bind_silent (notes_ofBody item hitem hsource) fun _ => .of_nil rfl
  | .tuple items attributes, plan, scope, hplan, hsource => by
      rw [ofBody] at hplan
      obtain ⟨-, -, hplan⟩ := bind_eq_ok_iff.mp hplan
      obtain ⟨plans, hitems, hplan⟩ := bind_eq_ok_iff.mp hplan
      obtain rfl := pure_eq_ok_iff.mp hplan
      rw [compile, Schema.occurrences]
      exact .bind_silent (notes_ofLive items hitems hsource) fun _ =>
        .of_nil rfl
  | .union members attributes, plan, scope, hplan, hsource => by
      rw [ofBody] at hplan
      obtain ⟨-, -, hplan⟩ := bind_eq_ok_iff.mp hplan
      obtain ⟨plans, hmembers, hplan⟩ := bind_eq_ok_iff.mp hplan
      obtain rfl := pure_eq_ok_iff.mp hplan
      rw [Schema.occurrences]
      exact notes_union (notes_ofLive members hmembers hsource)
  | .struct fields attributes, plan, scope, hplan, hsource => by
      rw [ofBody] at hplan
      obtain ⟨entries, hentries, hplan⟩ := bind_eq_ok_iff.mp hplan
      obtain rfl := pure_eq_ok_iff.mp hplan
      rw [compile, Schema.occurrences, lookedUp_structOccurrences]
      exact .bind_silent (notes_ofFields fields hentries hsource) fun _ =>
        .of_nil rfl
  | .reference path attributes, plan, scope, hplan, hsource => by
      rw [ofBody] at hplan
      obtain rfl := ofPath_eq_ok hplan
      exact .of_nil rfl
  | .concrete child args attributes', plan, scope, hplan, hsource => by
      rw [ofBody.eq_def] at hplan
      dsimp only at hplan
      split at hplan
      · obtain ⟨-, -, hplan⟩ := bind_eq_ok_iff.mp hplan
        split at hplan
        · cases hplan
        · obtain ⟨plans, hplans, hplan⟩ := bind_eq_ok_iff.mp hplan
          obtain rfl := pure_eq_ok_iff.mp hplan
          rw [Schema.occurrences, lookedUp_append]
          exact notes_concrete (notes_ofAll args hplans hsource)
      · cases hplan
  | .template child params attributes, plan, scope, hplan, hsource => by
      rw [ofBody] at hplan
      obtain ⟨-, -, hplan⟩ := bind_eq_ok_iff.mp hplan
      obtain ⟨body, hbody, hplan⟩ := bind_eq_ok_iff.mp hplan
      obtain ⟨paths, -, hplan⟩ := bind_eq_ok_iff.mp hplan
      obtain rfl := pure_eq_ok_iff.mp hplan
      rw [compile, Schema.occurrences]
      split
      · exact .bind_silent (notes_ofBody child hbody hsource) fun _ =>
          .of_nil rfl
      · exact .of_error rfl
  | .dispatcher registry indices attributes, plan, scope, hplan, hsource => by
      rw [ofBody] at hplan
      obtain ⟨index, -, hplan⟩ := bind_eq_ok_iff.mp hplan
      obtain rfl := pure_eq_ok_iff.mp hplan
      rw [compile]
      exact notes_compileDispatcher hsource
  | .indexed child indices attributes', plan, scope, hplan, hsource => by
      rw [ofBody.eq_def] at hplan
      dsimp only at hplan
      split at hplan
      · obtain ⟨keys, -, hplan⟩ := bind_eq_ok_iff.mp hplan
        obtain ⟨-, -, hplan⟩ := bind_eq_ok_iff.mp hplan
        obtain ⟨index, -, hplan⟩ := bind_eq_ok_iff.mp hplan
        obtain rfl := pure_eq_ok_iff.mp hplan
        rw [compile]
        exact notes_compileDispatcher hsource
      · cases hplan

theorem notes_ofAll :
    ∀ (types : List Schema) {plans : List Plan} {scope : Scope},
    ofAll types = .ok plans → scope.source = some source →
      (compileAll env scope plans).Notes
        (lookedUp (Schema.occurrencesAll types))
  | [], _, _, hplans, _ => by
      cases hplans
      exact .of_nil rfl
  | type :: rest, plans, scope, hplans, hsource => by
      rw [ofAll] at hplans
      obtain ⟨-, -, hplans⟩ := bind_eq_ok_iff.mp hplans
      obtain ⟨plan, hplan, hplans⟩ := bind_eq_ok_iff.mp hplans
      obtain ⟨others, hothers, hplans⟩ := bind_eq_ok_iff.mp hplans
      obtain rfl := pure_eq_ok_iff.mp hplans
      rw [compileAll, Schema.occurrencesAll, lookedUp_append]
      exact .bind (notes_ofBody type hplan hsource) fun _ =>
        .bind_silent (notes_ofAll rest hothers hsource) fun _ => .of_nil rfl

theorem notes_ofLive :
    ∀ (types : List Schema) {plans : List Plan} {scope : Scope},
    ofLive types = .ok plans → scope.source = some source →
      (compileAll env scope plans).Notes
        (lookedUp (Schema.occurrencesLive types))
  | [], _, _, hplans, _ => by
      cases hplans
      exact .of_nil rfl
  | type :: rest, plans, scope, hplans, hsource => by
      rw [ofLive] at hplans
      split at hplans
      · rename_i hgone
        rw [Schema.occurrencesLive, if_neg (by simp [Schema.isLive, hgone])]
        exact notes_ofLive rest hplans hsource
      · rename_i hlive
        obtain ⟨plan, hplan, hplans⟩ := bind_eq_ok_iff.mp hplans
        obtain ⟨others, hothers, hplans⟩ := bind_eq_ok_iff.mp hplans
        obtain rfl := pure_eq_ok_iff.mp hplans
        rw [compileAll, Schema.occurrencesLive,
          if_pos (by simpa [Schema.isLive] using hlive), lookedUp_append]
        exact .bind (notes_ofBody type hplan hsource) fun _ =>
          .bind_silent (notes_ofLive rest hothers hsource) fun _ => .of_nil rfl

theorem notes_ofFields :
    ∀ (fields : List Field) {entries : List Entry} {scope : Scope},
    ofFields fields = .ok entries → scope.source = some source →
      (compileEntries env scope entries).Notes
        (lookedUp ((Schema.fieldOccurrences fields).map (·.2)))
  | [], _, _, hentries, _ => by
      cases hentries
      exact .of_nil rfl
  | .spread type attributes :: rest, entries, scope, hentries, hsource => by
      rw [ofFields] at hentries
      obtain ⟨-, -, hentries⟩ := bind_eq_ok_iff.mp hentries
      split at hentries
      · rename_i hgone
        rw [fieldOccurrences_gone (by simp [Field.isLive, hgone])]
        exact notes_ofFields rest hentries hsource
      · rename_i hlive
        split at hentries
        · cases hentries
        · obtain ⟨-, -, hentries⟩ := bind_eq_ok_iff.mp hentries
          obtain ⟨plan, hplan, hentries⟩ := bind_eq_ok_iff.mp hentries
          obtain ⟨others, hothers, hentries⟩ := bind_eq_ok_iff.mp hentries
          obtain rfl := pure_eq_ok_iff.mp hentries
          rw [compileEntries, Schema.fieldOccurrences,
            if_pos (by simpa [Field.isLive] using hlive), lookedUp_placed]
          exact .bind (notes_ofBody type hplan hsource) fun _ =>
            .bind_silent (notes_ofFields rest hothers hsource) fun _ =>
              .of_nil rfl
  | .pair (.name name) type optional deprecated description attributes :: rest,
      entries, scope, hentries, hsource => by
      rw [ofFields.eq_def] at hentries
      dsimp only at hentries
      obtain ⟨-, -, hentries⟩ := bind_eq_ok_iff.mp hentries
      split at hentries
      · rename_i hgone
        rw [fieldOccurrences_gone (by simp [Field.isLive, hgone])]
        exact notes_ofFields rest hentries hsource
      · rename_i hlive
        obtain ⟨-, -, hentries⟩ := bind_eq_ok_iff.mp hentries
        obtain ⟨plan, hplan, hentries⟩ := bind_eq_ok_iff.mp hentries
        obtain ⟨others, hothers, hentries⟩ := bind_eq_ok_iff.mp hentries
        obtain rfl := pure_eq_ok_iff.mp hentries
        rw [compileEntries, Schema.fieldOccurrences,
          if_pos (by simpa [Field.isLive] using hlive), lookedUp_placed]
        exact .bind (notes_ofBody type hplan hsource) fun _ =>
          .lift_bind fun _ =>
          .bind_silent (notes_ofFields rest hothers hsource) fun _ =>
            .of_nil rfl
  | .pair (.type key) type optional deprecated description attributes :: rest,
      entries, scope, hentries, hsource => by
      rw [ofFields.eq_def] at hentries
      dsimp only at hentries
      obtain ⟨-, -, hentries⟩ := bind_eq_ok_iff.mp hentries
      split at hentries
      · rename_i hgone
        rw [fieldOccurrences_gone (by simp [Field.isLive, hgone])]
        exact notes_ofFields rest hentries hsource
      · rename_i hlive
        obtain ⟨keyPlan, hkey, hentries⟩ := bind_eq_ok_iff.mp hentries
        obtain ⟨-, -, hentries⟩ := bind_eq_ok_iff.mp hentries
        obtain ⟨plan, hplan, hentries⟩ := bind_eq_ok_iff.mp hentries
        obtain ⟨others, hothers, hentries⟩ := bind_eq_ok_iff.mp hentries
        obtain rfl := pure_eq_ok_iff.mp hentries
        rw [compileEntries, Schema.fieldOccurrences,
          if_pos (by simpa [Field.isLive] using hlive),
          List.append_assoc, lookedUp_placed, lookedUp_placed]
        exact .bind (notes_ofKey key hkey hsource) fun _ =>
          .bind (notes_ofBody type hplan hsource) fun _ =>
          .bind_silent (notes_ofFields rest hothers hsource) fun _ =>
            .of_nil rfl

theorem notes_ofKey :
    ∀ (type : Schema) {plan : KeyPlan} {scope : Scope}, ofKey type = .ok plan →
    scope.source = some source →
    (compileKey env scope plan).Notes (lookedUp type.occurrences)
  | type, plan, scope, hplan, hsource => by
      rw [ofKey.eq_def] at hplan
      cases type with
      | string length attributes =>
          obtain ⟨-, -, hplan⟩ := bind_eq_ok_iff.mp hplan
          exact .of_nil (references_compileKey_ofString hplan scope)
      | reference path attributes =>
          obtain ⟨-, -, hplan⟩ := bind_eq_ok_iff.mp hplan
          split at hplan
          · cases hplan
          · obtain rfl := pure_eq_ok_iff.mp hplan
            exact notes_computed (.of_nil rfl)
      | concrete child args attributes =>
          obtain ⟨-, -, hplan⟩ := bind_eq_ok_iff.mp hplan
          split at hplan
          · split at hplan
            · cases hplan
            · obtain ⟨-, -, hplan⟩ := bind_eq_ok_iff.mp hplan
              obtain ⟨plans, hplans, hplan⟩ := bind_eq_ok_iff.mp hplan
              obtain rfl := pure_eq_ok_iff.mp hplan
              rw [Schema.occurrences, lookedUp_append]
              exact notes_computed
                (notes_concrete (notes_ofAll args hplans hsource))
          · cases hplan
      | union members attributes =>
          obtain ⟨-, -, hplan⟩ := bind_eq_ok_iff.mp hplan
          obtain ⟨-, -, hplan⟩ := bind_eq_ok_iff.mp hplan
          obtain ⟨plans, hplans, hplan⟩ := bind_eq_ok_iff.mp hplan
          obtain rfl := pure_eq_ok_iff.mp hplan
          rw [Schema.occurrences]
          exact notes_computed
            (notes_union (notes_ofLive members hplans hsource))
      | _ =>
          obtain ⟨-, -, hplan⟩ := bind_eq_ok_iff.mp hplan
          cases hplan

end

end Plan

/-- A type that compiles for a module notes a reference from there for
each of its indices. -/
theorem Schema.notes_compile {scope : Scope}
    (hsource : scope.source = some source) (type : Schema) :
    (type.compile env scope).Notes (lookedUp type.occurrences) := by
  intro c hc
  obtain ⟨plan, hplan, -⟩ := Emit.outcome_bind_eq_ok_iff.mp hc
  obtain ⟨-, -, hbody⟩ := bind_eq_ok_iff.mp hplan
  rw [Schema.compile, Emit.bind_of_ok hplan] at hc ⊢
  exact Plan.notes_ofBody type hbody hsource c hc

/-- The modules of references that were all made from one of them. -/
theorem Bookkeeping.count_sourcesOf {refs : List Reference}
    (h : ∀ ref ∈ refs, ref.source = source) (registry source' : String) :
    (sourcesOf registry refs).count source' =
      if source = source' then
        (refs.map fun ref => Json.str ref.registry).countP (·.isText registry)
      else 0 := by
  have hreplicate : sourcesOf registry refs =
      List.replicate (refs.countP fun ref => ref.registry == registry)
        source := by
    refine List.eq_replicate_iff.mpr ⟨?_, fun source' hsource' => ?_⟩
    · rw [sourcesOf, List.length_map, List.countP_eq_length_filter]
    · obtain ⟨ref, href, rfl⟩ := List.mem_map.mp hsource'
      exact h ref (List.mem_of_mem_filter href)
  rw [hreplicate, List.count_replicate, List.countP_map]
  simp only [beq_iff_eq]
  rfl

theorem Schema.count_sourcesOf {scope : Scope}
    (hsource : scope.source = some source) {type : Schema}
    {c : Compiled} (hc : (type.compile env scope).outcome = .ok c)
    (registry source' : String) :
    (Bookkeeping.sourcesOf registry (type.compile env scope).references).count
      source' =
      if source = source' then type.lookups registry else 0 := by
  have hfrom : ∀ ref ∈ (type.compile env scope).references,
      ref.source = source := fun ref href =>
    Option.some.inj
      ((Schema.isFrom_compile scope type ref href).symm.trans hsource)
  rw [Bookkeeping.count_sourcesOf hfrom, Schema.notes_compile hsource type c hc]
  rfl

namespace Bookkeeping

/-- How often the module has referred to the registry so far. -/
def countOf (books : Bookkeeping) (registry source : String) : Int :=
  ((books.counters.get? registry).getD {}).count source

theorem countOf_foldl_count (books : Bookkeeping) (refs : List Reference)
    (registry source : String) :
    (refs.foldl count books).countOf registry source =
      books.countOf registry source + (sourcesOf registry refs).count
        source := by
  rw [countOf, get?_counters_foldl, Tally.count_add_one_foldl, countOf]

/-- The state after a type has been compiled. -/
theorem absorb_compile {books after : Bookkeeping}
    {scope : Scope} {type : Schema} {outcome : Except Fault Compiled}
    (h : books.absorb (type.compile books.env scope) = (outcome, after)) :
    after.env = books.env ∧ after.homes = books.homes ∧
      (scope.source = none → after = books) ∧
      ∀ c, outcome = .ok c → ∀ registry source,
        after.countOf registry source =
          books.countOf registry source +
            if scope.source = some source then type.lookups registry
            else 0 := by
  obtain ⟨rfl, rfl⟩ := Prod.mk.inj h
  have hnothing : scope.source = none →
      (type.compile books.env scope).references = [] := by
    intro hsource
    refine List.eq_nil_iff_forall_not_mem.mpr fun ref href => ?_
    have hfrom := Schema.isFrom_compile scope type ref href
    rw [hsource] at hfrom
    cases hfrom
  refine ⟨env_foldl_count _, homes_foldl_count _, fun hsource => ?_,
    fun c hc registry source => ?_⟩
  · rw [hnothing hsource, List.foldl_nil]
  · rw [countOf_foldl_count]
    cases hsource : scope.source with
    | none =>
        rw [hnothing hsource]
        rfl
    | some first =>
        rw [Schema.count_sourcesOf hsource hc]
        simp only [Option.some.injEq]

end Bookkeeping

namespace Run

/-- Is the symbol declared in the module as what it compiles to? It is not if it
is written by hand. -/
def compilesInto (env : Environment) (referenced : List Json) (path : String)
    (s : String × Symbol) : Bool :=
  emits env referenced path s && (Override.find? s.1).isNone

variable {referenced : List Json}

theorem count_symbolResult {s : String × Symbol} {r : SymbolResult}
    (h : symbolResult env referenced s.1 s.2 = .ok r)
    (registry source : String) :
    (Bookkeeping.sourcesOf registry r.references).count source =
      if compilesInto env referenced source s then s.2.type.lookups registry
      else 0 := by
  rcases symbolResult_eq_ok h with ⟨hgone, rfl⟩ |
    ⟨hgone, first, name, hsplit, h⟩
  · simp [compilesInto, emits, hgone, Bookkeeping.sourcesOf]
  · have hmodule := moduleOf?_of_splitPath hsplit
    rcases h with ⟨o, docs, ho, rfl⟩ | ⟨ho, hcopy, rfl⟩ | ⟨ho, hcopy, compiled,
      declared, hcompiled, -, rfl⟩
    · simp [compilesInto, ho, Bookkeeping.sourcesOf]
    · have hnone : compilesInto env referenced source s = false := by
        by_cases hfirst : first = source
        · subst hfirst
          simp [compilesInto, emits, ho, hcopy]
        · simp [compilesInto, emits_eq_false hmodule hfirst]
      simp [hnone, Bookkeeping.sourcesOf]
    · rw [Schema.count_sourcesOf rfl hcompiled]
      have hsome : compilesInto env referenced source s = true ↔
          first = source := by
        constructor
        · intro hinto
          by_contra hne
          simp [compilesInto, emits_eq_false hmodule hne] at hinto
        · rintro rfl
          simp [compilesInto, emits, hgone, hmodule, ho, hcopy]
      simp only [hsome]

theorem count_symbolResults {entries : List (String × Symbol)}
    {rs : List SymbolResult}
    (h : entries.mapM (fun s => symbolResult env referenced s.1 s.2) = .ok rs)
    (registry source : String) :
    (Bookkeeping.sourcesOf registry (rs.flatMap (·.references))).count source =
      ((entries.filter (compilesInto env referenced source)).map
        (·.2.type.lookups registry)).sum := by
  have hall := mapM_eq_ok_iff.mp h
  clear h
  induction hall with
  | nil => rfl
  | cons hhead _ ih =>
      have hsplit : ∀ refs more : List Reference,
          Bookkeeping.sourcesOf registry (refs ++ more) =
          Bookkeeping.sourcesOf registry refs ++
            Bookkeeping.sourcesOf registry more := by
        simp [Bookkeeping.sourcesOf]
      rw [List.flatMap_cons, hsplit, List.count_append, ih,
        count_symbolResult hhead, List.filter_cons]
      split
      · rw [List.map_cons, List.sum_cons]
      · rw [Nat.zero_add]

/-- Compiling and placing a dispatcher counts nothing. -/
theorem keepsCounts_compileTable (registry : String) (g : Run) :
    (compileTable registry g).2.books.counters = g.books.counters :=
  (within_compileTable registry g).counters (by decide)

theorem Record.counters_books (r : Record) (symbols : Symbols) :
    (r.books symbols).counters =
    (r.references.foldl Bookkeeping.count
      { env := r.env symbols }).counters := by
  rw [Record.books]
  generalize r.references.foldl Bookkeeping.count { env := r.env symbols } =
    books
  induction r.placements generalizing books with
  | nil => rfl
  | cons p rest ih => rw [List.foldl_cons, ih, counters_home]

/-- Compiling a type counts its indices for its module and changes nothing else,
whether it succeeds or not. So the counts that dispatchers are placed by are
those of the symbols that were compiled, and placing them adds nothing. -/
theorem lookups_counted :
    (∀ (books after : Bookkeeping) (scope : Scope) (type : Schema)
      (outcome : Except Fault Compiled),
      books.absorb (type.compile books.env scope) = (outcome, after) →
        after.env = books.env ∧ after.homes = books.homes ∧
          (scope.source = none → after = books) ∧
          ∀ c, outcome = .ok c → ∀ registry source,
            after.countOf registry source =
              books.countOf registry source +
                if scope.source = some source then type.lookups registry
                else 0) ∧
    (∀ (registry : String) (g : Run),
      (compileTable registry g).2.books.counters = g.books.counters) ∧
    ∀ (symbols : Symbols) (dispatchers : Dispatchers)
      (registries translationKeys blockProperties : Json)
      (g g' : Run) (modules : List OutputModule),
      start symbols dispatchers registries translationKeys blockProperties =
        .ok g →
      runAll g = (.ok modules, g') →
        ∃ (before after : Run) (referenced : List Json),
          (do declareRegistries; noteDispatchers : Step Unit) g =
            (.ok ⟨⟩, before) ∧
          compileSymbols before = (.ok ⟨⟩, after) ∧
          g.targets = .ok referenced ∧
          (∀ registry source, after.books.countOf registry source =
            ((symbols.entries.filter
                (compilesInto g.books.env referenced source)).map
              (·.2.type.lookups registry)).sum) ∧
          g'.books.counters = after.books.counters := by
  refine ⟨fun books after scope type outcome h => Bookkeeping.absorb_compile h,
    keepsCounts_compileTable, ?_⟩
  intro symbols dispatchers registries translationKeys blockProperties g g'
    modules hstart hrun
  obtain ⟨hfresh, rfl, rfl⟩ := isFresh_start hstart
  obtain ⟨r, hr, -, rfl⟩ := (runAll_eq_ok_iff hfresh).mp hrun
  obtain ⟨hearly, hcompile⟩ := hr.toDescribes.phases hfresh
  refine ⟨r.surveyed g, r.halfway g,
    r.referenced, hearly, hcompile, hr.referenced,
    fun registry source => ?_, r.counters_books g.books.env.symbols⟩
  have hnone : ({ env := r.env g.books.env.symbols } : Bookkeeping).countOf
      registry source = 0 := rfl
  have hsum : (Bookkeeping.sourcesOf registry r.references).count source =
      ((g.books.env.symbols.entries.filter
          (compilesInto g.books.env r.referenced source)).map
        (·.2.type.lookups registry)).sum :=
        count_symbolResults hr.symbols registry source
  rw [Survey.halfway, Bookkeeping.countOf_foldl_count, hnone, hsum,
    Int.zero_add]

/-- The struct of the small run looks up one dispatcher once, and
nothing else does. -/
theorem lookups_counted_sampleRun :
    start sampleSymbols sampleDispatchers .null .null .null = .ok sampleRun ∧
      ∃ modules g', runAll sampleRun = (.ok modules, g') ∧
        g'.books.countOf "minecraft:x" "::java::a" = 1 ∧
        g'.books.countOf "mod:y" "::java::a" = 0 ∧
        g'.books.countOf "minecraft:x" "::java::b" = 0 := by
  have hstart : start sampleSymbols sampleDispatchers .null .null .null =
      .ok sampleRun := rfl
  obtain ⟨modules, -, hrun⟩ := exists_modules_sampleRun
  obtain ⟨-, -, hruns⟩ := lookups_counted
  obtain ⟨before, after, referenced, -, -, hreferenced, hcounts, hcounters⟩ :=
    hruns _ _ _ _ _ _ _ _ hstart hrun
  cases hreferenced.symm.trans (rfl : sampleRun.targets = .ok [])
  have hfinal : ∀ registry source,
      (sampleRecord.final sampleRun modules).books.countOf registry source =
      after.books.countOf registry source := by
    intro registry source
    rw [Bookkeeping.countOf, hcounters]
    rfl
  refine ⟨hstart, modules, _, hrun, ?_, ?_, ?_⟩ <;> rw [hfinal, hcounts] <;>
    decide +kernel

end Run

end Typings
