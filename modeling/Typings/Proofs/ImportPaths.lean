import Typings.ImportPaths
import Mathlib.Data.List.Sort
import Mathlib.Data.String.Basic

/-!
The invariant of import lists, and which paths a list holds after insertions and
joins. Every list that a compilation builds is in normal form: strictly
increasing, and there only if it is not empty.
-/

namespace Typings

namespace ImportPaths

/-- Paths stand in strictly increasing order, and the table gives the place of
each of them and of nothing else. -/
structure Valid (l : ImportPaths) : Prop where
  sorted : l.ordered.Pairwise (· < ·)
  placed : ∀ path i, l.places.get? path = some i ↔ l.ordered[i]? = some path

theorem valid_empty : Valid {} where
  sorted := List.Pairwise.nil
  placed := by simp [Table.get?]

theorem Valid.nodup {l : ImportPaths} (h : l.Valid) : l.ordered.Nodup :=
  h.sorted.imp ne_of_lt

theorem Valid.contains_iff {l : ImportPaths} (h : l.Valid) (path : String) :
    l.contains path = true ↔ path ∈ l.ordered := by
  rw [contains, Table.has, Option.isSome_iff_exists, List.mem_iff_getElem?]
  exact exists_congr fun i => h.placed path i

theorem mem_insertInOrder {path q : String} {ordered : List String} :
    q ∈ insertInOrder path ordered ↔ q = path ∨ q ∈ ordered := by
  have hsplit :=
    @List.takeWhile_append_dropWhile _ (fun x => decide (x < path)) ordered
  constructor
  · intro hq
    rw [insertInOrder, List.mem_append, List.mem_cons] at hq
    rw [← hsplit, List.mem_append]
    rcases hq with hfront | rfl | hback
    · exact Or.inr (Or.inl hfront)
    · exact Or.inl rfl
    · exact Or.inr (Or.inr hback)
  · intro hq
    rw [insertInOrder, List.mem_append, List.mem_cons]
    rcases hq with rfl | hq
    · exact Or.inr (Or.inl rfl)
    · rw [← hsplit, List.mem_append] at hq
      rcases hq with hfront | hback
      · exact Or.inl hfront
      · exact Or.inr (Or.inr hback)

theorem insertInOrder_cons {path head : String} {rest : List String} :
    insertInOrder path (head :: rest) =
      if head < path then head :: insertInOrder path rest
      else path :: head :: rest := by
  by_cases hlt : head < path
  · simp only [insertInOrder, List.takeWhile_cons, List.dropWhile_cons, hlt,
      decide_true, if_true, List.cons_append]
  · simp only [insertInOrder, List.takeWhile_cons, List.dropWhile_cons, hlt,
      decide_false, Bool.false_eq_true, if_false, List.nil_append]

theorem sorted_insertInOrder {path : String} {ordered : List String}
    (hsorted : ordered.Pairwise (· < ·)) (hnew : path ∉ ordered) :
    (insertInOrder path ordered).Pairwise (· < ·) := by
  induction ordered with
  | nil => exact List.pairwise_singleton _ _
  | cons head rest ih =>
      have hrest := List.pairwise_cons.mp hsorted
      rw [List.mem_cons, not_or] at hnew
      rw [insertInOrder_cons]
      split
      · rename_i hlt
        refine List.pairwise_cons.mpr ⟨?_, ih hrest.2 hnew.2⟩
        intro q hq
        rcases mem_insertInOrder.mp hq with rfl | hq
        · exact hlt
        · exact hrest.1 q hq
      · rename_i hge
        have hhead : path < head := lt_of_le_of_ne (not_lt.mp hge) hnew.1
        refine List.pairwise_cons.mpr ⟨?_, hsorted⟩
        intro q hq
        rcases List.mem_cons.mp hq with rfl | hq
        · exact hhead
        · exact hhead.trans (hrest.1 q hq)

theorem get?_placeFrom_of_not_mem {path : String} {paths : List String}
    (h : path ∉ paths) (start : Nat) (places : Table Nat) :
    (placeFrom start paths places).get? path = places.get? path := by
  induction paths generalizing start places with
  | nil => rfl
  | cons head rest ih =>
      rw [List.mem_cons, not_or] at h
      have hne : (path == head) = false := by simpa using h.1
      rw [placeFrom, ih h.2, Table.get?_put, hne]
      rfl

theorem get?_placeFrom_of_getElem? {path : String}
    {paths : List String} (hnodup : paths.Nodup)
    {j : Nat} (h : paths[j]? = some path) (start : Nat) (places : Table Nat) :
    (placeFrom start paths places).get? path = some (start + j) := by
  induction paths generalizing start places j with
  | nil => simp at h
  | cons head rest ih =>
      have hrest := List.nodup_cons.mp hnodup
      cases j with
      | zero =>
          obtain rfl : head = path := by simpa using h
          rw [placeFrom, get?_placeFrom_of_not_mem hrest.1, Table.get?_put]
          simp
      | succ j =>
          rw [placeFrom, ih hrest.2 (by simpa using h)]
          simp only [Option.some.injEq]
          omega

theorem Valid.insert {l : ImportPaths} (h : l.Valid) (path : String) :
    (l.insert path).Valid := by
  by_cases hmem : path ∈ l.ordered
  · rw [ImportPaths.insert, if_pos ((h.contains_iff path).mpr hmem)]
    exact h
  · have hsorted := sorted_insertInOrder h.sorted hmem
    rw [ImportPaths.insert, if_neg (mt (h.contains_iff path).mp hmem)]
    refine ⟨hsorted, fun q i => ?_⟩
    have hnodup : (insertInOrder path l.ordered).Nodup := hsorted.imp ne_of_lt
    have hsplit :=
      @List.takeWhile_append_dropWhile _ (fun x => decide (x < path)) l.ordered
    have hplaced := h.placed q i
    simp only [insertInOrder] at hnodup ⊢
    generalize l.ordered.takeWhile (fun x => decide (x < path)) = front at *
    generalize l.ordered.dropWhile (fun x => decide (x < path)) = back at *
    rw [List.drop_left]
    by_cases hq : q ∈ path :: back
    · -- From the new path on, every place is written anew.
      obtain ⟨j, hj⟩ := List.mem_iff_getElem?.mp hq
      have hjoined : (front ++ path :: back)[front.length + j]? = some q := by
        rw [List.getElem?_append_right (by omega), Nat.add_sub_cancel_left, hj]
      rw [get?_placeFrom_of_getElem? (List.nodup_append.mp hnodup).2.1 hj,
        Option.some.injEq]
      constructor
      · rintro rfl
        exact hjoined
      · intro hi
        have hlt := (List.getElem?_eq_some_iff.mp hjoined).1
        exact (List.getElem?_inj hlt hnodup).mp (hjoined.trans hi.symm)
    · rw [get?_placeFrom_of_not_mem hq, hplaced, ← hsplit]
      rw [List.mem_cons, not_or] at hq
      by_cases hi : i < front.length
      · rw [List.getElem?_append_left hi, List.getElem?_append_left hi]
      · have hback : ∀ k, back[k]? ≠ some q :=
          fun k hk => hq.2 (List.mem_iff_getElem?.mpr ⟨k, hk⟩)
        rw [List.getElem?_append_right (by omega),
          List.getElem?_append_right (by omega)]
        cases hk : i - front.length with
        | zero => simp [hback, Ne.symm hq.1]
        | succ k => simp [hback]

theorem Valid.mem_insert {l : ImportPaths} (h : l.Valid) {path q : String} :
    q ∈ (l.insert path).ordered ↔ q = path ∨ q ∈ l.ordered := by
  by_cases hmem : path ∈ l.ordered
  · rw [ImportPaths.insert, if_pos ((h.contains_iff path).mpr hmem)]
    constructor
    · exact Or.inr
    · rintro (rfl | hq)
      · exact hmem
      · exact hq
  · rw [ImportPaths.insert, if_neg (mt (h.contains_iff path).mp hmem)]
    exact mem_insertInOrder

/-- A run of insertions keeps the invariant and adds exactly
the inserted paths. -/
theorem Valid.foldl_insert {l : ImportPaths} (h : l.Valid)
    (paths : List String) :
    (paths.foldl ImportPaths.insert l).Valid ∧
      ∀ q, q ∈ (paths.foldl ImportPaths.insert l).ordered ↔
        q ∈ l.ordered ∨ q ∈ paths := by
  induction paths generalizing l with
  | nil => exact ⟨h, by simp⟩
  | cons path rest ih =>
      obtain ⟨hvalid, hmem⟩ := ih (h.insert path)
      refine ⟨hvalid, fun q => ?_⟩
      rw [List.foldl_cons, hmem, h.mem_insert, List.mem_cons]
      tauto

theorem valid_ofList (paths : List String) : (ofList paths).Valid :=
  (valid_empty.foldl_insert paths).1

theorem mem_ofList {paths : List String} {q : String} :
    q ∈ (ofList paths).ordered ↔ q ∈ paths := by
  rw [ofList, (valid_empty.foldl_insert paths).2]
  simp

end ImportPaths

def importedPaths : Option ImportPaths → List String
  | none => []
  | some l => l.ordered

def ImportsValid (imports : Option ImportPaths) : Prop :=
  ∀ l, imports = some l → l.Valid

/-- A list that is there is valid and holds some path. -/
def ImportsNormal (imports : Option ImportPaths) : Prop :=
  ∀ l, imports = some l → l.Valid ∧ l.ordered ≠ []

theorem importsNormal_none : ImportsNormal none := by
  intro l hl
  cases hl

theorem importsNormal_some {l : ImportPaths} (hvalid : l.Valid) {path : String}
    (hmem : path ∈ l.ordered) : ImportsNormal (some l) := by
  rintro _ ⟨⟩
  exact ⟨hvalid, List.ne_nil_of_mem hmem⟩

theorem importsNormal_ofList {path : String} {rest : List String} :
    ImportsNormal (some (.ofList (path :: rest))) :=
  importsNormal_some (ImportPaths.valid_ofList _)
    (ImportPaths.mem_ofList.mpr List.mem_cons_self)

theorem ImportsNormal.getD_valid {imports : Option ImportPaths}
    (h : ImportsNormal imports) :
    (imports.getD {}).Valid := by
  cases imports with
  | none => exact ImportPaths.valid_empty
  | some l => exact (h l rfl).1

theorem ordered_getD (imports : Option ImportPaths) :
    (imports.getD {}).ordered = importedPaths imports := by
  cases imports <;> rfl

theorem ImportsNormal.includeImport {imports : Option ImportPaths}
    (h : ImportsNormal imports) (path : String) :
    ImportsNormal (includeImport imports path) ∧
      ∀ q, q ∈ importedPaths (Typings.includeImport imports path) ↔
        q = path ∨ q ∈ importedPaths imports := by
  have hmem := fun q => @ImportPaths.Valid.mem_insert _ h.getD_valid path q
  refine ⟨importsNormal_some (h.getD_valid.insert path)
    ((hmem path).mpr (Or.inl rfl)), ?_⟩
  intro q
  rw [Typings.includeImport, importedPaths, hmem, ordered_getD]

theorem ImportsNormal.foldl_includeImport {imports : Option ImportPaths}
    (h : ImportsNormal imports) (paths : List String) :
    ImportsNormal (paths.foldl Typings.includeImport imports) ∧
      ∀ q, q ∈ importedPaths (paths.foldl Typings.includeImport imports) ↔
        q ∈ importedPaths imports ∨ q ∈ paths := by
  induction paths generalizing imports with
  | nil => exact ⟨h, by simp⟩
  | cons path rest ih =>
      obtain ⟨hnormal, hmem⟩ := ih (h.includeImport path).1
      refine ⟨hnormal, fun q => ?_⟩
      rw [List.foldl_cons, hmem, (h.includeImport path).2, List.mem_cons]
      tauto

theorem mem_importedPaths_source {source : Option String} {q : String} :
    q ∈ importedPaths (source.map fun path => .ofList [path]) ↔
      source = some q := by
  cases source with
  | none => simp [importedPaths]
  | some path => simp [importedPaths, ImportPaths.mem_ofList, eq_comm]

/-- Joining adds the paths of the other list, whatever that one looks like. -/
theorem ImportsValid.join {imports : Option ImportPaths}
    (h : ImportsValid imports) (other : Option ImportPaths) :
    ImportsValid (joinImports imports other) ∧
      ∀ q, q ∈ importedPaths (joinImports imports other) ↔
        q ∈ importedPaths imports ∨ q ∈ importedPaths other := by
  cases other with
  | none => exact ⟨h, by simp [joinImports, importedPaths]⟩
  | some l =>
      by_cases hempty : l.ordered = []
      · have hjoin : joinImports imports (some l) = imports := by
          simp [joinImports, hempty]
        rw [hjoin]
        exact ⟨h, by simp [importedPaths, hempty]⟩
      · have hne : l.ordered.isEmpty = false := by simpa using hempty
        have hfilter : (l.ordered.filter fun _ => !false) = l.ordered := by simp
        have hstart : (imports.getD {}).Valid := by
          cases imports with
          | none => exact ImportPaths.valid_empty
          | some l => exact h l rfl
        obtain ⟨hvalid, hmem⟩ := hstart.foldl_insert l.ordered
        rw [joinImports, hne, ImportPaths.mergeExcept, hfilter]
        refine ⟨?_, fun q => ?_⟩
        · rintro _ ⟨⟩
          exact hvalid
        · rw [← ordered_getD imports]
          exact hmem q

theorem ImportsNormal.valid {imports : Option ImportPaths}
    (h : ImportsNormal imports) :
    ImportsValid imports :=
  fun l hl => (h l hl).1

/-- Joining keeps the normal form: a list that is empty is not taken over. -/
theorem ImportsNormal.join {imports : Option ImportPaths}
    (h : ImportsNormal imports) (other : Option ImportPaths) :
    ImportsNormal (joinImports imports other) ∧
      ∀ q, q ∈ importedPaths (joinImports imports other) ↔
        q ∈ importedPaths imports ∨ q ∈ importedPaths other := by
  obtain ⟨hvalid, hmem⟩ := h.valid.join other
  refine ⟨fun l hl => ⟨hvalid l hl, fun hempty => ?_⟩, hmem⟩
  have hnothing : ∀ q, q ∉ importedPaths imports ∧ q ∉ importedPaths other := by
    intro q
    rw [← not_or, ← hmem, hl, importedPaths, hempty]
    exact List.not_mem_nil
  have himports : imports = none := by
    cases imports with
    | none => rfl
    | some l' =>
        exact absurd (List.eq_nil_iff_forall_not_mem.mpr fun q =>
          (hnothing q).1) (h l' rfl).2
  have hjoin : joinImports imports other = imports := by
    cases other with
    | none => rfl
    | some l' =>
        have hnil : l'.ordered = [] :=
          List.eq_nil_iff_forall_not_mem.mpr fun q => (hnothing q).2
        simp [joinImports, hnil]
  rw [hjoin, himports] at hl
  cases hl

/-- Valid lists are known by their paths. -/
theorem ImportsValid.importedPaths_eq {imports imports' : Option ImportPaths}
    (h : ImportsValid imports) (h' : ImportsValid imports')
    (hmem : ∀ q, q ∈ importedPaths imports ↔ q ∈ importedPaths imports') :
    importedPaths imports = importedPaths imports' := by
  have hsorted : ∀ {i : Option ImportPaths}, ImportsValid i →
      (importedPaths i).Pairwise (· < ·) := by
    intro i hi
    cases i with
    | none => exact List.Pairwise.nil
    | some l => exact (hi l rfl).sorted
  exact (hsorted h).eq_of_mem_iff (hsorted h') hmem

end Typings
