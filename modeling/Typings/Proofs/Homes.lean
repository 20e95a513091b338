import Typings.Proofs.Counting

/-!
Homes over a whole run. References are counted and homes are asked for in any
order; the first answer for a registry is decided from the references to it so
far, and every later answer is the same. What is done for one registry has no
part in the counts and the home of another.
-/

namespace Typings

theorem toList_namespaceOf (registry : String) :
    (namespaceOf registry).toList = registry.toList.takeWhile (· != ':') := by
  rw [namespaceOf, Text.cutAtColon?]
  cases hback : registry.toList.dropWhile (· != ':') with
  | nil =>
      have hall := @List.takeWhile_append_dropWhile _ (· != ':') registry.toList
      rw [hback, List.append_nil] at hall
      exact hall.symm
  | cons c back => exact String.toList_ofList

theorem isForeign_iff {registry : String} :
    isForeign registry ↔
      ¬ registry.toList.takeWhile (· != ':') = "minecraft".toList := by
  rw [← toList_namespaceOf, String.toList_inj, isForeign, bne_iff_ne]
  rfl

namespace Bookkeeping

/-- What is done with dispatchers in the course of a run. -/
inductive Call where
  /-- A reference is counted. -/
  | count (ref : Reference)
  /-- A home is asked for. -/
  | home (registry : String)
  deriving DecidableEq

def Call.registry : Call → String
  | .count ref => ref.registry
  | .home registry => registry

def Call.reference? : Call → Option Reference
  | .count ref => some ref
  | .home _ => none

def perform (books : Bookkeeping) : Call → Bookkeeping
  | .count ref => books.count ref
  | .home registry => (books.home registry).2

/-- The state after calls, with nothing counted and nothing decided before. -/
def after (env : Environment) (calls : List Call) : Bookkeeping :=
  calls.foldl perform { env }

/-- What comes of asking for a home after the calls. -/
def answer (env : Environment) (calls : List Call) (registry : String) :
    Option String :=
  ((after env calls).home registry).1

variable {books books' : Bookkeeping} {registry : String} {call : Call}

theorem home_of_get? {owner : Option String}
    (h : books.homes.get? registry = some owner) :
    books.home registry = (owner, books) := by
  rw [home, h]

theorem home_of_none (h : books.homes.get? registry = none) :
    books.home registry =
    (books.owner? registry, { books with
      homes := books.homes.put registry (books.owner? registry) }) := by
  rw [home, h]

/-- An answer is on record from then on. -/
theorem get?_homes_home (books : Bookkeeping) (registry : String) :
    (books.home registry).2.homes.get? registry =
      some (books.home registry).1 := by
  cases h : books.homes.get? registry with
  | none =>
      rw [home_of_none h, Table.get?_put]
      simp
  | some owner =>
      rw [home_of_get? h]
      exact h

/-- What is on record stays. -/
theorem get?_homes_perform {owner : Option String}
    (h : books.homes.get? registry = some owner) (call : Call) :
    (books.perform call).homes.get? registry = some owner := by
  cases call with
  | count ref => exact h
  | home asked =>
      by_cases hasked : asked = registry
      · subst hasked
        rw [perform, home_of_get? h]
        exact h
      · cases hnone : books.homes.get? asked with
        | some other =>
            rw [perform, home_of_get? hnone]
            exact h
        | none =>
            have hne : (registry == asked) = false := by
              simpa using Ne.symm hasked
            rw [perform, home_of_none hnone, Table.get?_put, hne]
            exact h

/-- A call for another registry leaves the counts and the home of a
registry as they are. -/
theorem get?_perform_of_ne (hne : call.registry ≠ registry) :
    (books.perform call).counters.get? registry = books.counters.get? registry ∧
      (books.perform call).homes.get? registry = books.homes.get? registry := by
  have hkey : (registry == call.registry) = false := by simpa using Ne.symm hne
  cases call with
  | count ref =>
      refine ⟨?_, rfl⟩
      rw [perform, count, Table.get?_put]
      simp [show (registry == ref.registry) = false from hkey]
  | home asked =>
      cases h : books.homes.get? asked with
      | some owner =>
          rw [perform, home_of_get? h]
          exact ⟨rfl, rfl⟩
      | none =>
          rw [perform, home_of_none h]
          refine ⟨rfl, ?_⟩
          rw [Table.get?_put]
          simp [show (registry == asked) = false from hkey]

/-- The two states have the same counts and the same home for the registry. -/
structure SameFor (registry : String) (books books' : Bookkeeping) : Prop where
  counters : books.counters.get? registry = books'.counters.get? registry
  homes : books.homes.get? registry = books'.homes.get? registry

namespace SameFor

theorem owner? (h : SameFor registry books books') :
    books.owner? registry = books'.owner? registry := by
  rw [Bookkeeping.owner?, Bookkeeping.owner?, h.counters]

theorem answer (h : SameFor registry books books') :
    (books.home registry).1 = (books'.home registry).1 := by
  rw [home, home, h.homes, h.owner?]
  split <;> rfl

/-- A call for the registry does the same to both. -/
theorem perform (h : SameFor registry books books')
    (hcall : call.registry = registry) :
    SameFor registry (books.perform call) (books'.perform call) := by
  cases call with
  | count ref =>
      obtain rfl := hcall
      have hcounters : books.counters.get? ref.registry =
          books'.counters.get? ref.registry := h.counters
      refine ⟨?_, h.homes⟩
      rw [Bookkeeping.perform, Bookkeeping.perform, count, count, hcounters,
        Table.get?_put, Table.get?_put, h.counters]
  | home asked =>
      obtain rfl := hcall
      refine ⟨?_, ?_⟩
      · rw [Bookkeeping.perform, Bookkeeping.perform, Run.counters_home,
          Run.counters_home]
        exact h.counters
      · exact ((get?_homes_home books _).trans (congrArg some h.answer)).trans
          (get?_homes_home books' _).symm

/-- A call for another registry may be left out. -/
theorem perform_left (h : SameFor registry books books')
    (hcall : call.registry ≠ registry) :
    SameFor registry (books.perform call) books' := by
  obtain ⟨hcounters, hhomes⟩ := @get?_perform_of_ne books _ _ hcall
  exact ⟨hcounters.trans h.counters, hhomes.trans h.homes⟩

/-- The calls for the registry decide alone. -/
theorem foldl_filter (h : SameFor registry books books') (calls : List Call) :
    SameFor registry (calls.foldl Bookkeeping.perform books)
      ((calls.filter (·.registry = registry)).foldl Bookkeeping.perform
        books') := by
  induction calls generalizing books books' with
  | nil => exact h
  | cons call calls ih =>
      by_cases hcall : call.registry = registry
      · rw [List.filter_cons_of_pos (by simpa using hcall)]
        exact ih (h.perform hcall)
      · rw [List.filter_cons_of_neg (by simpa using hcall)]
        exact ih (h.perform_left hcall)

end SameFor

theorem sameFor_after {env : Environment} {calls calls' : List Call}
    (h : calls.filter (·.registry = registry) =
      calls'.filter (·.registry = registry)) :
    SameFor registry (after env calls) (after env calls') := by
  have hempty : SameFor registry { env } { env } := ⟨rfl, rfl⟩
  have hleft := hempty.foldl_filter calls
  have hright := hempty.foldl_filter calls'
  rw [h] at hleft
  exact ⟨hleft.counters.trans hright.counters.symm,
    hleft.homes.trans hright.homes.symm⟩

/-- The references that the calls count. -/
def references (calls : List Call) : List Reference :=
  calls.filterMap Call.reference?

/-- Only the references have a part in the counts. -/
theorem counters_foldl_perform (h : books.counters = books'.counters)
    (calls : List Call) :
    (calls.foldl perform books).counters =
      ((references calls).foldl count books').counters := by
  induction calls generalizing books books' with
  | nil => exact h
  | cons call calls ih =>
      cases call with
      | count ref =>
          have hcount : (books.count ref).counters =
              (books'.count ref).counters := by rw [count, count, h]
          exact ih hcount
      | home asked => exact ih ((Run.counters_home books asked).trans h)

theorem counters_after (env : Environment) (calls : List Call) :
    (after env calls).counters =
      ((references calls).foldl count { env }).counters :=
  counters_foldl_perform rfl calls

theorem owner?_after (env : Environment) (calls : List Call)
    (registry : String) :
    (after env calls).owner? registry =
      ownerBy (references calls) registry := by
  have hempty : ({ env } : Bookkeeping).counters = {} := rfl
  rw [← owner?_foldl_count hempty, owner?, owner?, counters_after]

theorem count_sourcesOf_references (calls : List Call)
    (registry source : String) :
    (sourcesOf registry (references calls)).count source =
      calls.count (.count ⟨registry, source⟩) := by
  rw [sourcesOf, references, List.filter_filterMap, List.map_filterMap,
    List.count_filterMap, List.count]
  refine List.countP_congr fun call _ => ?_
  rcases call with ⟨registry', source'⟩ | asked
  · by_cases hregistry : registry' = registry <;>
      simp [Call.reference?, hregistry]
  · simp [Call.reference?]

/-- What is on record stays for all the calls. -/
theorem get?_homes_foldl_perform {owner : Option String}
    (h : books.homes.get? registry = some owner) (calls : List Call) :
    (calls.foldl perform books).homes.get? registry = some owner := by
  induction calls generalizing books with
  | nil => exact h
  | cons call calls ih => exact ih (get?_homes_perform h call)

/-- A home that was never asked for is not decided. -/
theorem get?_homes_foldl_perform_of_notMem
    (h : books.homes.get? registry = none) {calls : List Call}
    (hcalls : .home registry ∉ calls) :
    (calls.foldl perform books).homes.get? registry = none := by
  induction calls generalizing books with
  | nil => exact h
  | cons call calls ih =>
      rw [List.mem_cons, not_or] at hcalls
      refine ih ?_ hcalls.2
      cases call with
      | count ref => exact h
      | home asked =>
          have hasked : asked ≠ registry := fun he => hcalls.1 (he ▸ rfl)
          exact (@get?_perform_of_ne books registry
            (.home asked) hasked).2.trans h

/-- The first answer is the owner that the references so far speak for. -/
theorem answer_of_notMem {env : Environment} {calls : List Call}
    (h : .home registry ∉ calls) :
    answer env calls registry = ownerBy (references calls) registry := by
  have hnone : (after env calls).homes.get? registry = none :=
    get?_homes_foldl_perform_of_notMem rfl h
  rw [answer, home_of_none hnone, owner?_after]

/-- An answer stands for the rest of the run. -/
theorem answer_append (env : Environment) (first rest : List Call)
    (registry : String) :
    answer env (first ++ .home registry :: rest) registry =
      answer env first registry := by
  have hsome :
      (after env (first ++ .home registry :: rest)).homes.get? registry =
      some (answer env first registry) := by
    rw [after, List.foldl_append, List.foldl_cons]
    exact get?_homes_foldl_perform (get?_homes_home _ registry) rest
  rw [answer, home_of_get? hsome]

/-- A home is decided when it is first asked for, from the references to that
registry until then, and stays. Counts and homes of a registry depend only on
the calls for it. -/
theorem home_decided_once (env : Environment) (calls : List Call)
    (registry : String) :
    (∀ first rest, calls = first ++ .home registry :: rest →
      answer env calls registry = answer env first registry) ∧
    (.home registry ∉ calls → answer env calls registry =
      if registry.toList.takeWhile (· != ':') = "minecraft".toList then
        (Tally.ofSources (sourcesOf registry (references calls))).owner?
          ownershipLead
      else none) ∧
    (∀ calls', calls'.filter (·.registry = registry) =
      calls.filter (·.registry = registry) →
      answer env calls' registry = answer env calls registry ∧
      (after env calls').counters.get? registry =
        (after env calls).counters.get? registry ∧
      (after env calls').homes.get? registry =
        (after env calls).homes.get? registry) ∧
    ∀ source, (after env calls).countOf registry source =
      calls.count (.count ⟨registry, source⟩) := by
  refine ⟨?_, fun hcalls => ?_, fun calls' hcalls' => ?_, fun source => ?_⟩
  · rintro first rest rfl
    exact answer_append env first rest registry
  · rw [answer_of_notMem hcalls, ownerBy]
    simp only [isForeign_iff, ite_not]
  · have hsame : SameFor registry (after env calls') (after env calls) :=
      sameFor_after hcalls'
    exact ⟨hsame.answer, hsame.counters, hsame.homes⟩
  · have hnone : countOf { env } registry source = 0 := rfl
    rw [countOf, counters_after, ← countOf, countOf_foldl_count, hnone,
      Int.zero_add, count_sourcesOf_references]

/-- A home is asked for after one reference; seven references from another
module come too late. -/
def sampleCalls : List Call :=
  .count ⟨"minecraft:x", "::java::a"⟩ :: .home "minecraft:x" ::
    List.replicate 7 (.count ⟨"minecraft:x", "::java::b"⟩)

/-- Without the early question the other module is the home. -/
theorem home_decided_once_sampleCalls :
    answer {} sampleCalls "minecraft:x" = some "::java::a" ∧
      answer {} (sampleCalls.erase (.home "minecraft:x")) "minecraft:x" =
        some "::java::b" ∧
      answer {} (.count ⟨"mod:y", "::java::a"⟩ :: sampleCalls) "minecraft:x" =
        some "::java::a" ∧
      answer {} (.count ⟨"mod:y", "::java::a"⟩ :: sampleCalls) "mod:y" = none ∧
      (after {} sampleCalls).countOf "minecraft:x" "::java::b" = 7 := by
  have hearly : answer {} sampleCalls "minecraft:x" = some "::java::a" := by
    rw [(home_decided_once {} sampleCalls "minecraft:x").1
      [.count ⟨"minecraft:x", "::java::a"⟩] _ rfl, (home_decided_once {}
        [.count ⟨"minecraft:x", "::java::a"⟩] "minecraft:x").2.1 (by decide)]
    decide +kernel
  refine ⟨hearly, ?_, ?_, ?_, ?_⟩
  · have hranking : (Tally.ofSources (sourcesOf "minecraft:x" (references
        (sampleCalls.erase (.home "minecraft:x"))))).ranking =
        [("::java::b", 7), ("::java::a", 1)] := by
      change [("::java::a", 1),
        ("::java::b", 7)].mergeSort Tally.ranksBefore = _
      simp [List.mergeSort, Tally.ranksBefore]
    rw [(home_decided_once {} _ "minecraft:x").2.1 (by decide),
      if_pos (by decide), Tally.owner?, hranking]
    rfl
  · rw [((home_decided_once {} sampleCalls "minecraft:x").2.2.1 _
      (by decide)).1, hearly]
  · exact (home_decided_once {} _ "mod:y").2.1 (by decide)
  · exact (home_decided_once {} sampleCalls "minecraft:x").2.2.2 "::java::b"

end Bookkeeping

end Typings
