import Typings.Table
import Mathlib.Data.List.Nodup
import Mathlib.Data.List.Perm.Basic
import Mathlib.Data.String.Basic

/-!
Tables as finite maps. Where every key occurs once, what stands under a key does
not depend on the order of the entries, and neither do the sorted keys.
-/

namespace Typings.Table

variable {α β : Type} {t : Table α} {key : String} {value : α}

theorem lookup_eq_none_iff_keys {entries : List (String × α)} :
    entries.lookup key = none ↔ key ∉ entries.map (·.1) := by
  induction entries with
  | nil => simp
  | cons e rest ih =>
      rw [List.lookup_cons, List.map_cons, List.mem_cons, not_or, ← ih]
      by_cases h : key = e.1
      · simp [h]
      · have hne : (key == e.1) = false := by simpa using h
        simp [hne, h]

theorem get?_eq_none_iff : t.get? key = none ↔ key ∉ t.keys :=
  lookup_eq_none_iff_keys

theorem has_iff : t.has key = true ↔ key ∈ t.keys := by
  rw [has, ← not_iff_not, ← get?_eq_none_iff]
  simp

theorem keys_put (t : Table α) (key : String) (value : α) :
    (t.put key value).keys =
      if key ∈ t.keys then t.keys else t.keys ++ [key] := by
  obtain ⟨entries⟩ := t
  simp only [put, keys]
  induction entries with
  | nil => rfl
  | cons e rest ih =>
      by_cases h : key = e.1
      · simp [putIn, h]
      · have hne : (key == e.1) = false := by simpa using h
        simp only [putIn, hne, Bool.false_eq_true, if_false, List.map_cons, ih,
          List.mem_cons, h, false_or]
        by_cases hmem : key ∈ rest.map (·.1)
        · simp [hmem]
        · simp [hmem]

theorem mem_keys_put {key' : String} :
    key' ∈ (t.put key value).keys ↔ key' = key ∨ key' ∈ t.keys := by
  rw [keys_put]
  split
  · rename_i hmem
    constructor
    · exact Or.inr
    · rintro (rfl | h)
      · exact hmem
      · exact h
  · rw [List.mem_append, List.mem_singleton, or_comm]

theorem nodup_keys_put (h : t.keys.Nodup) : (t.put key value).keys.Nodup := by
  rw [keys_put]
  split
  · exact h
  · rename_i hnew
    exact List.nodup_append.mpr ⟨h, List.nodup_singleton _, fun a ha b hb => by
      rw [List.mem_singleton] at hb
      rintro rfl
      exact hnew (hb ▸ ha)⟩

/-- Of two values set under one key the second stands. -/
theorem put_put (t : Table α) (key : String) (value value' : α) :
    (t.put key value).put key value' = t.put key value' := by
  obtain ⟨entries⟩ := t
  simp only [put, mk.injEq]
  induction entries with
  | nil => simp [putIn]
  | cons e rest ih =>
      by_cases h : key = e.1
      · simp [putIn, h]
      · have hne : (key == e.1) = false := by simpa using h
        simp [putIn, hne, ih]

theorem mem_of_get? (h : t.get? key = some value) :
    (key, value) ∈ t.entries := by
  obtain ⟨front, back, hsplit, -⟩ := List.lookup_eq_some_iff.mp h
  rw [hsplit]
  exact List.mem_append_right _ List.mem_cons_self

/-- Where keys occur once, the value under a key is that of its entry. -/
theorem get?_eq_some_iff (h : t.keys.Nodup) :
    t.get? key = some value ↔ (key, value) ∈ t.entries := by
  obtain ⟨entries⟩ := t
  simp only [keys] at h
  simp only [get?]
  induction entries with
  | nil => simp
  | cons e rest ih =>
      obtain ⟨hhead, htail⟩ := List.nodup_cons.mp h
      rw [List.lookup_cons, List.mem_cons]
      by_cases hkey : key = e.1
      · obtain ⟨k, v⟩ := e
        obtain rfl : key = k := hkey
        have hnot : (key, value) ∉ rest :=
          fun hmem => hhead (List.mem_map.mpr ⟨_, hmem, rfl⟩)
        simp [hnot, eq_comm]
      · have hne : (key == e.1) = false := by simpa using hkey
        obtain ⟨k, v⟩ := e
        simp only [hne, ih htail, Prod.mk.injEq]
        simp_all

/-- Looking up every key gives the entries back. -/
theorem filterMap_get?_keys (h : t.keys.Nodup) :
    t.keys.filterMap (fun key => (t.get? key).map (key, ·)) = t.entries := by
  have hget : ∀ e ∈ t.entries, (t.get? e.1).map (e.1, ·) = some e := by
    intro e he
    rw [(get?_eq_some_iff h).mpr he]
    rfl
  rw [keys, List.filterMap_map]
  exact (List.filterMap_congr hget).trans List.filterMap_some

theorem entries_put_of_not_mem (h : key ∉ t.keys) :
    (t.put key value).entries = t.entries ++ [(key, value)] := by
  obtain ⟨entries⟩ := t
  simp only [put, keys] at h ⊢
  induction entries with
  | nil => rfl
  | cons e rest ih =>
      rw [List.map_cons, List.mem_cons, not_or] at h
      have hne : (key == e.1) = false := by simpa using h.1
      simp [putIn, hne, ih h.2]

theorem foldl_put {entries : List (String × α)}
    (h : (t.keys ++ entries.map (·.1)).Nodup) :
    entries.foldl (fun table e => table.put e.1 e.2) t =
      ⟨t.entries ++ entries⟩ := by
  induction entries generalizing t with
  | nil => simp
  | cons e rest ih =>
      rw [List.map_cons, List.append_cons] at h
      have hnew : e.1 ∉ t.keys := by
        intro hmem
        have hfront := (List.nodup_append.mp h).1
        exact (List.nodup_append.mp hfront).2.2 _ hmem _
          (List.mem_singleton_self _) rfl
      have hput : t.put e.1 e.2 = ⟨t.entries ++ [e]⟩ :=
        congrArg mk (entries_put_of_not_mem hnew)
      rw [List.foldl_cons, hput, ih]
      · simp
      · simpa [keys] using h

/-- A table is made of the entries that are put into it, if
their keys differ. -/
theorem foldl_put_empty {entries : List (String × α)}
    (h : (entries.map (·.1)).Nodup) :
    entries.foldl (fun table e => table.put e.1 e.2) ({} : Table α) =
      ⟨entries⟩ :=
  foldl_put (t := {}) h

section Order

variable {t' : Table α}

theorem keys_perm (h : t.entries.Perm t'.entries) : t.keys.Perm t'.keys :=
  h.map _

/-- The value under a key does not depend on the order of the entries. -/
theorem get?_of_perm (hnodup : t.keys.Nodup) (h : t.entries.Perm t'.entries) :
    t.get? key = t'.get? key := by
  have hnodup' : t'.keys.Nodup := (keys_perm h).nodup_iff.mp hnodup
  apply Option.ext
  intro value
  rw [get?_eq_some_iff hnodup, get?_eq_some_iff hnodup', h.mem_iff]

theorem sortedKeys_perm (t : Table α) : t.sortedKeys.Perm t.keys :=
  List.mergeSort_perm _ _

theorem mem_sortedKeys : key ∈ t.sortedKeys ↔ key ∈ t.keys :=
  (sortedKeys_perm t).mem_iff

theorem sortedKeys_pairwise (t : Table α) : t.sortedKeys.Pairwise (· ≤ ·) := by
  have hsorted : t.sortedKeys.Pairwise fun a b => decide (a ≤ b) = true := by
    apply List.pairwise_mergeSort
    · intro a b c hab hbc
      exact decide_eq_true
        (le_trans (of_decide_eq_true hab) (of_decide_eq_true hbc))
    · intro a b
      simpa using le_total a b
  exact hsorted.imp of_decide_eq_true

theorem sortedKeys_of_perm {t' : Table β} (h : t.keys.Perm t'.keys) :
    t.sortedKeys = t'.sortedKeys := by
  apply List.Perm.eq_of_pairwise (fun a b _ _ => le_antisymm)
    (sortedKeys_pairwise t) (sortedKeys_pairwise t')
  exact (sortedKeys_perm t).trans (h.trans (sortedKeys_perm t').symm)

theorem sortedKeys_eq_keys (h : t.keys.Pairwise (· ≤ ·)) :
    t.sortedKeys = t.keys :=
  List.Perm.eq_of_pairwise (fun _ _ _ _ => le_antisymm)
    (sortedKeys_pairwise t) h (sortedKeys_perm t)

theorem nodup_sortedKeys (h : t.keys.Nodup) : t.sortedKeys.Nodup :=
  (sortedKeys_perm t).nodup_iff.mpr h

end Order

end Typings.Table
