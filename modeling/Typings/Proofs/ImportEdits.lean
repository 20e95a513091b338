import Typings.Proofs.ImportPaths

/-!
Import lists over their whole life. A list is made of some paths and edited
from then on: paths are inserted, and other lists are merged into it. After
any edits it is valid and holds exactly the paths that were brought to it, so
it is known by them, whatever the order of the edits. Joining lists is then
the union of their paths.
-/

namespace Typings

namespace ImportPaths

/-- What can be done to a list. -/
inductive Edit where
  | insert (path : String)
  | merge (other : ImportPaths) (excluded : String → Bool)

def edit (l : ImportPaths) : Edit → ImportPaths
  | .insert path => (l.insertNew path).2
  | .merge other excluded => l.mergeExcept other excluded

/-- Does the edit bring the path to the list? -/
def Edit.Brings : Edit → String → Prop
  | .insert inserted, path => path = inserted
  | .merge other excluded, path => path ∈ other.ordered ∧ excluded path = false

/-- How a list came about: the paths that it was made of, then
the edits in order. -/
structure Life where
  initial : List String
  edits : List Edit

namespace Life

def list (p : Life) : ImportPaths :=
  p.edits.foldl edit (.ofList p.initial)

/-- Was the path brought to the list? -/
def Brings (p : Life) (path : String) : Prop :=
  path ∈ p.initial ∨ ∃ e ∈ p.edits, e.Brings path

end Life

variable {l l' : ImportPaths}

theorem insertNew_snd (l : ImportPaths) (path : String) :
    (l.insertNew path).2 = l.insert path := by
  rw [insertNew, insert]
  split
  · rfl
  · rfl

theorem Valid.insertNew_fst_eq_false_iff (h : l.Valid) {path : String} :
    (l.insertNew path).1 = false ↔ path ∈ l.ordered := by
  rw [← h.contains_iff, insertNew]
  split
  · rename_i hmem
    simp [hmem]
  · rename_i hnew
    simp [hnew]

theorem Valid.insert_of_mem (h : l.Valid) {path : String}
    (hmem : path ∈ l.ordered) : l.insert path = l := by
  rw [ImportPaths.insert, if_pos ((h.contains_iff path).mpr hmem)]

/-- An edit keeps the invariant and adds exactly the paths that it brings. -/
theorem Valid.edit (h : l.Valid) (e : Edit) :
    (l.edit e).Valid ∧ ∀ q, q ∈ (l.edit e).ordered ↔
      q ∈ l.ordered ∨ e.Brings q := by
  cases e with
  | insert path =>
      rw [ImportPaths.edit, insertNew_snd]
      exact ⟨h.insert path, fun q => h.mem_insert.trans or_comm⟩
  | merge other excluded =>
      obtain ⟨hvalid, hmem⟩ :=
        h.foldl_insert (other.ordered.filter fun path => !excluded path)
      refine ⟨hvalid, fun q => (hmem q).trans ?_⟩
      simp [Edit.Brings]

/-- A run of edits keeps the invariant and adds exactly what they bring. -/
theorem Valid.foldl_edit (h : l.Valid) (edits : List Edit) :
    (edits.foldl ImportPaths.edit l).Valid ∧
      ∀ q, q ∈ (edits.foldl ImportPaths.edit l).ordered ↔
        q ∈ l.ordered ∨ ∃ e ∈ edits, e.Brings q := by
  induction edits generalizing l with
  | nil => exact ⟨h, by simp⟩
  | cons e rest ih =>
      obtain ⟨hstep, hbrought⟩ := h.edit e
      obtain ⟨hvalid, hmem⟩ := ih hstep
      refine ⟨hvalid, fun q => ?_⟩
      rw [List.foldl_cons, hmem, hbrought, List.exists_mem_cons_iff, or_assoc]

theorem Life.valid_list (p : Life) : p.list.Valid :=
  ((valid_ofList p.initial).foldl_edit p.edits).1

theorem Life.mem_list {p : Life} {path : String} :
    path ∈ p.list.ordered ↔ p.Brings path := by
  rw [Life.list, ((valid_ofList p.initial).foldl_edit p.edits).2, mem_ofList,
    Life.Brings]

/-- Valid lists with the same paths give each of them the same place. -/
theorem Valid.get?_places_eq (h : l.Valid)
    (h' : l'.Valid) (hordered : l.ordered = l'.ordered)
    (path : String) : l.places.get? path = l'.places.get? path := by
  apply Option.ext
  intro i
  rw [h.placed, h'.placed, hordered]

end ImportPaths

/-- The lists hold the same paths in the same order; one that is
missing holds none. -/
def SamePaths (imports imports' : Option ImportPaths) : Prop :=
  importedPaths imports = importedPaths imports'

namespace ImportsValid

variable {imports other third : Option ImportPaths} (h : ImportsValid imports)

include h

theorem join_comm (hother : ImportsValid other) :
    SamePaths (joinImports imports other) (joinImports other imports) := by
  apply (h.join other).1.importedPaths_eq (hother.join imports).1
  intro q
  rw [(h.join other).2, (hother.join imports).2, or_comm]

theorem join_assoc (hother : ImportsValid other) :
    SamePaths (joinImports (joinImports imports other) third)
      (joinImports imports (joinImports other third)) := by
  apply ((h.join other).1.join third).1.importedPaths_eq
    (h.join (joinImports other third)).1
  intro q
  rw [((h.join other).1.join third).2, (h.join other).2,
    (h.join (joinImports other third)).2, (hother.join third).2, or_assoc]

theorem join_self : SamePaths (joinImports imports imports) imports := by
  apply (h.join imports).1.importedPaths_eq h
  intro q
  rw [(h.join imports).2, or_self]

theorem join_of_empty (hempty : importedPaths other = []) :
    SamePaths (joinImports imports other) imports := by
  apply (h.join other).1.importedPaths_eq h
  intro q
  rw [(h.join other).2, hempty]
  simp

end ImportsValid

/-- If the list is there, it came about by edits. -/
def IsEdited (imports : Option ImportPaths) : Prop :=
  ∀ l, imports = some l → ∃ p : ImportPaths.Life, p.list = l

theorem IsEdited.valid {imports : Option ImportPaths} (h : IsEdited imports) :
    ImportsValid imports := by
  intro l hl
  obtain ⟨p, rfl⟩ := h l hl
  exact p.valid_list

/-- After any edits a list is in order, knows the place of each of its paths,
holds exactly the paths that were brought to it, and tells a path that is new
from one that it holds. So it depends on these paths only; and joining lists
that may be missing is commutative, associative and idempotent, with the lists
that hold nothing as identities. -/
theorem edited_list_known_by_paths :
    (∀ p : ImportPaths.Life,
      p.list.ordered.Pairwise (· < ·) ∧
      (∀ path i, p.list.places.get? path = some i ↔
        p.list.ordered[i]? = some path) ∧
      (∀ path, path ∈ p.list.ordered ↔ p.Brings path) ∧
      ∀ path, ((p.list.insertNew path).1 = false ↔ p.Brings path) ∧
        (p.Brings path → (p.list.insertNew path).2 = p.list)) ∧
    (∀ p q : ImportPaths.Life, (∀ path, p.Brings path ↔ q.Brings path) →
      p.list.ordered = q.list.ordered ∧
        ∀ path, p.list.places.get? path = q.list.places.get? path) ∧
    ∀ a b c : Option ImportPaths, IsEdited a → IsEdited b →
      (∀ path, path ∈ importedPaths (joinImports a b) ↔ path ∈ importedPaths a ∨
        path ∈ importedPaths b) ∧
      SamePaths (joinImports a b) (joinImports b a) ∧
      SamePaths (joinImports (joinImports a b) c)
        (joinImports a (joinImports b c)) ∧
      SamePaths (joinImports a a) a ∧
      (importedPaths b = [] → SamePaths (joinImports a b) a ∧
        SamePaths (joinImports b a) a) := by
  refine ⟨fun p => ⟨p.valid_list.sorted,
    p.valid_list.placed, fun path => ImportPaths.Life.mem_list,
    fun path => ?_⟩, fun p q hsame => ?_, fun a b c ha hb => ?_⟩
  · rw [p.valid_list.insertNew_fst_eq_false_iff, ImportPaths.insertNew_snd,
      ← ImportPaths.Life.mem_list]
    exact ⟨Iff.rfl, p.valid_list.insert_of_mem⟩
  · have hordered : p.list.ordered = q.list.ordered := by
      apply p.valid_list.sorted.eq_of_mem_iff q.valid_list.sorted
      intro path
      rw [ImportPaths.Life.mem_list, ImportPaths.Life.mem_list, hsame]
    exact ⟨hordered, p.valid_list.get?_places_eq q.valid_list hordered⟩
  · refine ⟨(ha.valid.join b).2, ha.valid.join_comm hb.valid,
      ha.valid.join_assoc hb.valid, ha.valid.join_self, fun hempty => ?_⟩
    exact ⟨ha.valid.join_of_empty hempty,
      (hb.valid.join_comm ha.valid).trans (ha.valid.join_of_empty hempty)⟩

/-- Insertions in any order and a merge without the paths that it excludes
give the same list. -/
theorem edited_list_known_by_paths_merge :
    let inserted : ImportPaths.Life :=
      ⟨["b"], [.insert "c", .insert "a", .insert "c"]⟩
    let merged : ImportPaths.Life :=
      ⟨["c"], [.merge (.ofList ["x", "b", "a"]) (· == "x")]⟩
    (∀ path, inserted.Brings path ↔ merged.Brings path) ∧
      inserted.list.ordered = merged.list.ordered ∧
      inserted.list.ordered = ["a", "b", "c"] ∧
      (inserted.list.insertNew "b").1 = false ∧
      (inserted.list.insertNew "d").1 = true := by
  intro inserted merged
  have hsame : ∀ path, inserted.Brings path ↔ merged.Brings path := by
    have hordered : inserted.list.ordered = ["a", "b", "c"] ∧
        merged.list.ordered = ["a", "b", "c"] := by decide
    intro path
    rw [← ImportPaths.Life.mem_list, ← ImportPaths.Life.mem_list, hordered.1,
      hordered.2]
  obtain ⟨hknown, hdepends, -⟩ := edited_list_known_by_paths
  refine ⟨hsame, (hdepends inserted merged hsame).1, by decide, ?_, by decide⟩
  exact ((hknown inserted).2.2.2 "b").1.mpr (Or.inl (by decide))

end Typings
