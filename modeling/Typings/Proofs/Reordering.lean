import Typings.Proofs.Agreement
import Typings.Proofs.ImportsResolve
import Typings.Proofs.ReferenceWalk
import Mathlib.Data.List.Perm.Basic

/-!
Tables in another order. The order of a table is seen only in the order of
what is added to the modules: counts, owners, lookups and collected
imports are the same.
-/

namespace Typings

theorem exists_mapM_of_perm {ε α β : Type}
    {f : α → Except ε β} {xs xs' : List α} {ys : List β}
    (hperm : xs.Perm xs') (h : xs.mapM f = .ok ys) :
    ∃ ys', xs'.mapM f = .ok ys' ∧ ys'.Perm ys := by
  obtain ⟨ys', hall, hys⟩ :=
    List.perm_comp_forall₂ hperm.symm (mapM_eq_ok_iff.mp h)
  exact ⟨ys', mapM_eq_ok_iff.mpr hall, hys⟩

namespace Tally

/-- The entries are the modules that were counted, each with its count. -/
theorem mem_entries_iff {c : Tally} (h : c.counts.keys.Nodup) {source : String}
    {count : Int} :
    (source, count) ∈ c.counts.entries ↔
      source ∈ c.counts.keys ∧ count = c.count source := by
  rw [← Table.get?_eq_some_iff h, Tally.count]
  cases hget : c.counts.get? source with
  | none =>
      have hmem := Table.get?_eq_none_iff.mp hget
      simp [hmem]
  | some value =>
      have hmem : source ∈ c.counts.keys := by
        by_contra hnone
        rw [Table.get?_eq_none_iff.mpr hnone] at hget
        cases hget
      simp [hmem, eq_comm]

theorem mem_entries_ofSources {sources : List String} {source : String}
    {count : Int} :
    (source, count) ∈ (ofSources sources).counts.entries ↔
      source ∈ sources ∧ count = sources.count source := by
  rw [mem_entries_iff (nodup_keys_ofSources sources), mem_keys_ofSources,
    count_ofSources]

theorem entries_ofSources_perm {sources sources' : List String}
    (h : sources.Perm sources') :
    (ofSources sources).counts.entries.Perm
      (ofSources sources').counts.entries := by
  have hnodup : ∀ l : List String, (ofSources l).counts.entries.Nodup :=
    fun l => List.Nodup.of_map _ (nodup_keys_ofSources l)
  apply (List.perm_ext_iff_of_nodup (hnodup _) (hnodup _)).mpr
  rintro ⟨source, count⟩
  rw [mem_entries_ofSources, mem_entries_ofSources, h.mem_iff, h.count_eq]

theorem ranksBefore_iff {a b : String × Int} :
    ranksBefore a b = true ↔ b.2 < a.2 ∨ a.2 = b.2 ∧ a.1 ≤ b.1 := by
  simp [ranksBefore]

theorem ranking_pairwise (c : Tally) :
    c.ranking.Pairwise fun a b => ranksBefore a b = true := by
  apply List.pairwise_mergeSort
  · intro a b d hab hbd
    rw [ranksBefore_iff] at *
    rcases hab with hab | ⟨hab, hle⟩
    · exact Or.inl (by omega)
    · rcases hbd with hbd | ⟨hbd, hle'⟩
      · exact Or.inl (by omega)
      · exact Or.inr ⟨hab.trans hbd, hle.trans hle'⟩
  · intro a b
    rw [Bool.or_eq_true, ranksBefore_iff, ranksBefore_iff]
    rcases lt_trichotomy a.2 b.2 with hlt | heq | hlt
    · exact Or.inr (Or.inl hlt)
    · rcases le_total a.1 b.1 with hle | hle
      · exact Or.inl (Or.inr ⟨heq, hle⟩)
      · exact Or.inr (Or.inr ⟨heq.symm, hle⟩)
    · exact Or.inl (Or.inl hlt)

/-- No two modules share a rank, so the ranking does not depend on the
order of the counts. -/
theorem ranking_of_perm {c c' : Tally}
    (h : c.counts.entries.Perm c'.counts.entries) :
    c.ranking = c'.ranking := by
  apply List.Perm.eq_of_pairwise _ (ranking_pairwise c) (ranking_pairwise c')
  · exact ((List.mergeSort_perm _ _).trans h).trans
      (List.mergeSort_perm _ _).symm
  · intro a b _ _ hab hba
    rw [ranksBefore_iff] at hab hba
    rcases hab with hab | ⟨hab, hle⟩
    · rcases hba with hba | ⟨hba, -⟩
      · omega
      · omega
    · rcases hba with hba | ⟨-, hle'⟩
      · omega
      · exact Prod.ext (le_antisymm hle hle') hab

end Tally

/-- The order of references does not matter to who owns a dispatcher. -/
theorem Bookkeeping.ownerBy_of_perm {refs refs' : List Reference}
    (h : refs.Perm refs')
    (registry : String) : ownerBy refs registry = ownerBy refs' registry := by
  have hsources : (sourcesOf registry refs).Perm (sourcesOf registry refs') :=
    (h.filter _).map _
  rw [ownerBy, ownerBy, Tally.owner?, Tally.owner?,
    Tally.ranking_of_perm (Tally.entries_ofSources_perm hsources)]

theorem Json.eq_str_of_isText {v : Json} {s : String} (h : v.isText s = true) :
    v = .str s := by
  rw [isText.eq_def] at h
  split at h
  · rw [eq_of_beq h]
  · cases h

theorem Json.isText_of_same {w : Json} {s : String}
    (h : same (.str s) w = true) : w.isText s = true := by
  cases w with
  | str t =>
      simp only [same] at h
      simp [isText, eq_of_beq h]
  | _ => simp [same, number?] at h

/-- Leaving out repetitions leaves no text out. -/
theorem Json.any_isText_distinct (vs : List Json) (s : String) :
    (Json.distinct vs).any (·.isText s) = vs.any (·.isText s) := by
  have hfold : ∀ seen : List Json,
      (vs.foldl (fun (seen : List Json) v =>
          if seen.any (same v) then seen else v :: seen) seen).any
        (·.isText s) = (seen.any (·.isText s) || vs.any (·.isText s)) := by
    induction vs with
    | nil => simp
    | cons v rest ih =>
        intro seen
        rw [List.foldl_cons, ih, List.any_cons, ← Bool.or_assoc]
        refine congrArg (· || _) ?_
        split
        · rename_i hseen
          by_cases htext : v.isText s = true
          · obtain rfl := eq_str_of_isText htext
            obtain ⟨w, hw, hsame⟩ := List.any_eq_true.mp hseen
            have hany : seen.any (·.isText s) = true :=
              List.any_eq_true.mpr ⟨w, hw, isText_of_same hsame⟩
            rw [hany, Bool.true_or]
          · rw [Bool.of_not_eq_true htext, Bool.or_false]
        · rw [List.any_cons, Bool.or_comm]
  rw [distinct, List.any_reverse, hfold, List.any_nil, Bool.false_or]

theorem Schema.allReferences_eq (types : List Schema) :
    allReferences types = types.flatMap references := by
  induction types with
  | nil => rfl
  | cons type rest ih => rw [allReferences, ih, List.flatMap_cons]

/-- The paths that types refer to do not depend on the order of the types. -/
theorem Schema.exists_targets_of_perm {types types' : List Schema}
    (h : types.Perm types')
    {paths : List Json} (htargets : targets types = .ok paths) :
    ∃ paths', targets types' = .ok paths' ∧
      ∀ s, paths'.any (·.isText s) = paths.any (·.isText s) := by
  rw [targets_eq] at htargets
  obtain ⟨⟨⟩, hkeys, hpaths⟩ := bind_eq_ok_iff.mp htargets
  obtain rfl := pure_eq_ok_iff.mp hpaths
  have hperm : (allReferences types).Perm (allReferences types') := by
    rw [allReferences_eq, allReferences_eq]
    exact h.flatMap_right _
  have hkeys' : (allReferences types').forM (fun path => do let _ ←
      path.asKey?) = .ok ⟨⟩ :=
    forM_eq_ok_iff.mpr fun path hpath =>
      forM_eq_ok_iff.mp hkeys path (hperm.mem_iff.mpr hpath)
  refine ⟨_, (targets_eq types').trans (bind_eq_ok_iff.mpr ⟨⟨⟩, hkeys', rfl⟩),
    fun s => ?_⟩
  rw [Json.any_isText_distinct, Json.any_isText_distinct]
  exact hperm.symm.any_eq

theorem Draft.foreignNames_of_path_eq {d d' : Draft} (h : d.path = d'.path)
    (ignored paths : List String) :
    d.foreignNames ignored paths = d'.foreignNames ignored paths := by
  have howns : ∀ path, d.owns path = d'.owns path := by
    intro path
    rw [owns, owns, h]
  induction paths with
  | nil => rfl
  | cons path rest ih => rw [foreignNames, foreignNames, howns, ih]

namespace History

variable {history history' : List Contribution} (hperm : history.Perm history')

include hperm

theorem declarations_perm (path : String) :
    (draft history path).declarations.Perm
      (draft history' path).declarations := by
  rw [declarations_draft, declarations_draft]
  exact (hperm.filter _).map _

theorem collected_of_perm (path : String) :
    collected history path = collected history' path := by
  obtain ⟨hnormal, hmem⟩ := @imports_draft history path
  obtain ⟨hnormal', hmem'⟩ := @imports_draft history' path
  apply hnormal.valid.importedPaths_eq hnormal'.valid
  intro q
  rw [hmem, hmem']
  simp only [hperm.mem_iff]

theorem paths_of_perm : paths history = paths history' := by
  apply Table.sortedKeys_of_perm
  apply (List.perm_ext_iff_of_nodup nodup_keys_drafts nodup_keys_drafts).mpr
  intro path
  rw [mem_keys_drafts, mem_keys_drafts]
  simp only [hperm.mem_iff]

/-- Whether names clash depends on which names are there, not on their order. -/
theorem clashes_of_perm (path : String) (d : DispatcherSymbol) :
    Run.clashes (draft history path) d =
      Run.clashes (draft history' path) d := by
  have hpath : (draft history path).path = (draft history' path).path := by
    rw [path_draft, path_draft]
  have himports :
      (draft history path).importPaths = (draft history' path).importPaths := by
    rw [Draft.importPaths_eq, Draft.importPaths_eq]
    exact collected_of_perm hperm path
  have hnames : ∀ name, (draft history path).aliasNames.contains name =
      (draft history' path).aliasNames.contains name :=
    fun name => ((declarations_perm hperm path).filterMap _).contains_eq
  simp only [Run.clashes, Draft.namesFromOutside, himports, hnames,
    funext hnames, Draft.foreignNames_of_path_eq hpath]

/-- The module with what another history has added to it. -/
def refill (history : List Contribution) (m : OutputModule) : OutputModule :=
  { m with
    declarations := (history.filter (·.path == m.path)).map (·.declaration)
    sources := (draft history m.path).sources }

/-- Modules are finished in any order of their parts, if they are in one. -/
theorem close_of_perm {redirects : Table String} {modules : List OutputModule}
    (h : ((drafts history).close redirects).1 = .ok modules) :
    ((drafts history').close redirects).1 =
      .ok (modules.map (refill history')) := by
  obtain ⟨hpaths, hfinishes⟩ := close_eq_ok_iff.mp h
  apply close_eq_ok_iff.mpr
  constructor
  · rw [List.map_map, ← paths_of_perm hperm, ← hpaths]
    rfl
  · intro m' hm'
    obtain ⟨m, hm, rfl⟩ := List.mem_map.mp hm'
    have himports := (hfinishes m hm).imports
    rw [collected_of_perm hperm] at himports
    exact ⟨(hfinishes m hm).file, rfl, himports, rfl⟩

end History

end Typings
