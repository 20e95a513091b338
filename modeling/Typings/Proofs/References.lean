import Typings.Plan.Compile
import Typings.Proofs.Tables

/-!
Where dispatchers are referred to from. Compiling a type counts every reference
for the module that the type is compiled for. The counts of a registry depend
only on how often each module refers to it, and so does its owner.
-/

namespace Typings

/-- Every reference that was met is one from the module. -/
def Emit.IsFrom {α : Type} (source : Option String) (x : Emit α) : Prop :=
  ∀ ref ∈ x.references, source = some ref.source

namespace Emit.IsFrom

variable {α β : Type} {source : Option String}

theorem of_nil {x : Emit α} (h : x.references = []) : x.IsFrom source := by
  intro ref href
  rw [h] at href
  cases href

theorem bind {x : Emit α} {f : α → Emit β} (hx : x.IsFrom source)
    (hf : ∀ a, (f a).IsFrom source) :
    (x >>= f).IsFrom source := by
  intro ref href
  cases h : x.outcome with
  | error fault =>
      rw [Emit.bind_of_error h] at href
      exact hx ref href
  | ok a =>
      rw [Emit.bind_of_ok h] at href
      rcases List.mem_append.mp href with href | href
      · exact hx ref href
      · exact hf a ref href

theorem lift_bind {x : Except Fault α} {f : α → Emit β}
    (hf : ∀ a, (f a).IsFrom source) :
    ((liftM x : Emit α) >>= f).IsFrom source :=
  bind (of_nil rfl) hf

end Emit.IsFrom

variable {env : Environment}

theorem isFrom_compileDispatcher {scope : Scope} {registry : Json}
    {index : IndexForm} {keys : List Json} :
    (compileDispatcher env scope registry index keys).IsFrom scope.source := by
  refine Emit.IsFrom.lift_bind fun r => ?_
  cases hsource : scope.source with
  | none => exact .of_nil rfl
  | some source =>
      refine .bind (fun ref href => ?_) fun _ => .of_nil rfl
      obtain rfl := List.mem_singleton.mp href
      rfl

mutual

theorem Plan.isFrom_compile : ∀ (scope : Scope) (plan : Plan),
    (plan.compile env scope).IsFrom scope.source
  | _, .fixed _ _ _ | _, .identifier _ _ | _, .translationKey | _,
      .enum _ _ | _, .reference _ =>
      .of_nil rfl
  | scope, .concrete _ args =>
      .bind (Plan.isFrom_compileAll (scope.nested none) args) fun _ =>
        .lift_bind fun _ => .of_nil rfl
  | scope, .template params body => by
      rw [Plan.compile]
      split
      · exact .bind (Plan.isFrom_compile _ body) fun _ => .of_nil rfl
      · exact .of_nil rfl
  | scope, .list item _ =>
      .bind (Plan.isFrom_compile (scope.nested scope.name) item) fun _ =>
        .of_nil rfl
  | scope, .union members =>
      .bind (Plan.isFrom_compileAll (scope.nested scope.name) members) fun _ =>
        .of_nil rfl
  | scope, .tuple items =>
      .bind (Plan.isFrom_compileAll (scope.nested scope.name) items) fun _ =>
        .of_nil rfl
  | scope, .struct entries =>
      .bind (Plan.isFrom_compileEntries scope entries) fun _ => .of_nil rfl
  | _, .dispatcher _ _ _ => isFrom_compileDispatcher

theorem Plan.isFrom_compileAll : ∀ (scope : Scope) (plans : List Plan),
    (Plan.compileAll env scope plans).IsFrom scope.source
  | _, [] => .of_nil rfl
  | scope, plan :: rest =>
      .bind (Plan.isFrom_compile scope plan) fun _ =>
        .bind (Plan.isFrom_compileAll scope rest) fun _ => .of_nil rfl

theorem Plan.isFrom_compileEntries : ∀ (scope : Scope) (entries : List Entry),
    (Plan.compileEntries env scope entries).IsFrom scope.source
  | _, [] => .of_nil rfl
  | scope, .pair key value _ _ :: rest =>
      .bind (Plan.isFrom_compile (scope.nested (scope.nameUnder key)) value)
        fun _ =>
        .lift_bind fun _ =>
          .bind (Plan.isFrom_compileEntries scope rest) fun _ => .of_nil rfl
  | scope, .dynamic key value :: rest =>
      .bind (Plan.isFrom_compileKey scope key) fun _ =>
        .bind (Plan.isFrom_compile (scope.nested scope.name) value) fun _ =>
          .bind (Plan.isFrom_compileEntries scope rest) fun _ => .of_nil rfl
  | scope, .spread value :: rest =>
      .bind (Plan.isFrom_compile (scope.nested scope.name) value) fun _ =>
        .bind (Plan.isFrom_compileEntries scope rest) fun _ => .of_nil rfl

theorem Plan.isFrom_compileKey : ∀ (scope : Scope) (key : KeyPlan),
    (Plan.compileKey env scope key).IsFrom scope.source
  | _, .fixed _ _ | _, .registry _ => .of_nil rfl
  | scope, .computed plan =>
      .bind (Plan.isFrom_compile (scope.nested none) plan) fun _ => .of_nil rfl

end

/-- A type refers to dispatchers from the module that it is compiled for. -/
theorem Schema.isFrom_compile (scope : Scope) (type : Schema) :
    (type.compile env scope).IsFrom scope.source :=
  .lift_bind fun plan => Plan.isFrom_compile scope plan

namespace Tally

def ofSources (sources : List String) : Tally :=
  sources.foldl (fun tally source => tally.add source 1) {}

theorem count_add {tally : Tally} {source source' : String} {amount : Int} :
    (tally.add source amount).count source' =
      if source' = source then tally.count source + amount
      else tally.count source' := by
  rw [count, add, Table.get?_put]
  by_cases h : source' = source
  · simp [h]
  · simp [h, count]

/-- What additions come to for a module. -/
def total : List (String × Int) → String → Int
  | [], _ => 0
  | (source, amount) :: rest, source' =>
      (if source' = source then amount else 0) + total rest source'

def addAll (tally : Tally) (additions : List (String × Int)) : Tally :=
  additions.foldl (fun tally a => tally.add a.1 a.2) tally

theorem mem_keys_addAll {tally : Tally} (additions : List (String × Int))
    {source : String} :
    source ∈ (tally.addAll additions).counts.keys ↔
      source ∈ tally.counts.keys ∨ source ∈ additions.map (·.1) := by
  induction additions generalizing tally with
  | nil => simp [addAll]
  | cons first rest ih =>
      rw [addAll, List.foldl_cons, ← addAll, ih, add, Table.mem_keys_put,
        List.map_cons, List.mem_cons]
      tauto

theorem count_addAll {tally : Tally} (additions : List (String × Int))
    {source : String} :
    (tally.addAll additions).count source =
      tally.count source + total additions source := by
  induction additions generalizing tally with
  | nil => simp [addAll, total]
  | cons first rest ih =>
      rw [addAll, List.foldl_cons, ← addAll, ih, count_add, total]
      split
      · rename_i h
        rw [h]
        omega
      · omega

theorem nodup_keys_addAll {tally : Tally} (h : tally.counts.keys.Nodup)
    (additions : List (String × Int)) :
    (tally.addAll additions).counts.keys.Nodup := by
  induction additions generalizing tally with
  | nil => exact h
  | cons first rest ih => exact ih (Table.nodup_keys_put h)

/-- Counting sources is adding one for each of them. -/
theorem foldl_add_one_eq (tally : Tally) (sources : List String) :
    sources.foldl (fun tally source => tally.add source 1) tally =
      tally.addAll (sources.map (·, 1)) := by
  rw [addAll, List.foldl_map]

theorem total_map_one (sources : List String) (source : String) :
    total (sources.map (·, 1)) source = sources.count source := by
  induction sources with
  | nil => rfl
  | cons first rest ih =>
      rw [List.map_cons, total, ih, List.count_cons]
      by_cases h : source = first
      · subst h
        simp
        omega
      · have hne : (first == source) = false := by simpa using Ne.symm h
        simp [h, hne]

theorem count_add_one_foldl {tally : Tally} (sources : List String)
    {source : String} :
    (sources.foldl (fun tally source => tally.add source 1) tally).count
      source =
      tally.count source + sources.count source := by
  rw [foldl_add_one_eq, count_addAll, total_map_one]

theorem mem_keys_ofSources {sources : List String} {source : String} :
    source ∈ (ofSources sources).counts.keys ↔ source ∈ sources := by
  rw [ofSources, foldl_add_one_eq, mem_keys_addAll]
  simp [Table.keys]

theorem count_ofSources (sources : List String) (source : String) :
    (ofSources sources).count source = sources.count source := by
  rw [ofSources, count_add_one_foldl]
  simp [count, Table.get?]

theorem nodup_keys_ofSources (sources : List String) :
    (ofSources sources).counts.keys.Nodup := by
  rw [ofSources, foldl_add_one_eq]
  apply nodup_keys_addAll
  exact List.nodup_nil

/-- The owner is one of the modules that refer to the dispatcher. -/
theorem mem_keys_of_owner? {tally : Tally} {margin : Int} {owner : String}
    (h : tally.owner? margin = some owner) : owner ∈ tally.counts.keys := by
  have hranked : ∀ e ∈ tally.ranking, e.1 ∈ tally.counts.keys :=
    fun e he => List.mem_map_of_mem (List.mem_mergeSort.mp he)
  rw [owner?] at h
  split at h
  · cases h
  · rename_i only hrank
    cases h
    exact hranked only (by simp [hrank])
  · rename_i first second rest hrank
    split at h
    · cases h
      exact hranked first (by simp [hrank])
    · cases h

end Tally

namespace Bookkeeping

/-- The modules that refer to a registry, once for each reference. -/
def sourcesOf (registry : String) (refs : List Reference) : List String :=
  (refs.filter fun ref => ref.registry == registry).map (·.source)

theorem get?_counters_foldl {books : Bookkeeping} (refs : List Reference)
    (registry : String) :
    (((refs.foldl count books).counters.get? registry).getD {}) =
      (sourcesOf registry refs).foldl (fun tally source => tally.add source 1)
        ((books.counters.get? registry).getD {}) := by
  induction refs generalizing books with
  | nil => rfl
  | cons ref rest ih =>
      rw [List.foldl_cons, ih, count, Table.get?_put]
      by_cases h : registry = ref.registry
      · simp [h, sourcesOf]
      · have hne : (ref.registry == registry) = false := by
          simpa using Ne.symm h
        simp [h, hne, sourcesOf]

theorem env_foldl_count {books : Bookkeeping} (refs : List Reference) :
    (refs.foldl count books).env = books.env := by
  induction refs generalizing books with
  | nil => rfl
  | cons ref rest ih => exact ih

theorem homes_foldl_count {books : Bookkeeping} (refs : List Reference) :
    (refs.foldl count books).homes = books.homes := by
  induction refs generalizing books with
  | nil => rfl
  | cons ref rest ih => exact ih

def ownerBy (refs : List Reference) (registry : String) : Option String :=
  if isForeign registry then none
  else (Tally.ofSources (sourcesOf registry refs)).owner? ownershipLead

theorem owner?_foldl_count {books : Bookkeeping} (hnone : books.counters = {})
    (refs : List Reference) (registry : String) :
    (refs.foldl count books).owner? registry = ownerBy refs registry := by
  have hget := @get?_counters_foldl books refs registry
  have hstart : (books.counters.get? registry).getD {} = {} := by
    simp [hnone, Table.get?]
  rw [hstart] at hget
  rw [owner?, ownerBy, Tally.ofSources, ← hget]
  split
  · rfl
  · cases (refs.foldl count books).counters.get? registry with
    | none => simp [Tally.owner?, Tally.ranking]
    | some tally => rfl

/-- Only a module that refers to a dispatcher can own it. -/
theorem exists_reference_of_ownerBy {refs : List Reference}
    {registry owner : String} (h : ownerBy refs registry = some owner) :
    ∃ ref ∈ refs, ref.source = owner := by
  rw [ownerBy] at h
  split at h
  · cases h
  · have hmem := Tally.mem_keys_ofSources.mp (Tally.mem_keys_of_owner? h)
    obtain ⟨ref, href, hsource⟩ := List.mem_map.mp hmem
    exact ⟨ref, List.mem_of_mem_filter href, hsource⟩

end Bookkeeping

end Typings
