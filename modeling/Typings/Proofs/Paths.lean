import Typings.Proofs.SymbolPath

/-!
Which paths name a symbol, and which modules have a file. A path can be split if
a separator is in it and none is at its end; a module has a file if it belongs
to one of the two roots.
-/

namespace Typings

/-- A name stands behind the last separator. -/
def HasName (path : String) : Prop :=
  (∃ front name, path = front ++ "::" ++ name) ∧ ∀ front, path ≠ front ++ "::"

/-- The path belongs to one of the two roots; a separator may stand in front. -/
def IsRooted (path : String) : Prop :=
  ∃ lead ∈ ["", "::"], ∃ root ∈ ["java", "sandstone"],
    path = lead ++ root ∨ ∃ rest, path = lead ++ root ++ "::" ++ rest

theorem toList_separated (front name : String) :
    (front ++ "::" ++ name).toList =
      front.toList ++ ':' :: ':' :: name.toList := by
  simp [String.toList_append]

theorem cutAtLast?_ne_none (front name : List Char) :
    cutAtLast? (front ++ ':' :: ':' :: name) ≠ none := by
  induction front with
  | nil =>
      rw [List.nil_append, cutAtLast?.eq_def]
      dsimp only
      split
      · exact Option.some_ne_none _
      · exact Option.some_ne_none _
  | cons c front ih =>
      obtain ⟨cut, hcut⟩ := Option.ne_none_iff_exists'.mp ih
      rw [List.cons_append, cutAtLast?_cons_of_some hcut]
      exact Option.some_ne_none _

theorem exists_splitPath_iff {path : String} :
    (∃ q name, splitPath path = .ok (q, name)) ↔ HasName path := by
  constructor
  · rintro ⟨q, name, h⟩
    rw [splitPath] at h
    split at h
    · rename_i front c rest hcut
      have hpath := append_of_cutAtLast? hcut
      refine ⟨⟨String.ofList front, String.ofList (c :: rest), ?_⟩, ?_⟩
      · rw [← String.toList_inj, toList_separated, ← hpath]
        simp
      · rintro before rfl
        have hend :
            cutAtLast? (before ++ "::").toList = some (before.toList, []) := by
          rw [String.toList_append]
          exact cutAtLast?_append List.not_mem_nil _
        rw [hend] at hcut
        cases hcut
    · cases h
  · rintro ⟨⟨front, name, rfl⟩, hend⟩
    rw [splitPath]
    split
    · exact ⟨_, _, rfl⟩
    · rename_i hcut
      obtain ⟨⟨before, behind⟩, hsome⟩ := Option.ne_none_iff_exists'.mp
        (cutAtLast?_ne_none front.toList name.toList)
      rw [← toList_separated] at hsome
      cases behind with
      | nil =>
          refine absurd ?_ (hend (String.ofList before))
          rw [← String.toList_inj, ← append_of_cutAtLast? hsome]
          simp [String.toList_append]
      | cons c rest => exact absurd hsome (hcut before c rest)

/-- Up to the next separator, characters go to the current segment. -/
theorem segmentsFrom_append {segment : List Char} (h : ':' ∉ segment)
    (done rest : List Char) :
    segmentsFrom done (segment ++ rest) =
      segmentsFrom (segment.reverse ++ done) rest := by
  induction segment generalizing done with
  | nil => rfl
  | cons c segment ih =>
      rw [List.mem_cons, not_or] at h
      have hstep : segmentsFrom done (c :: (segment ++ rest)) =
          segmentsFrom (c :: done) (segment ++ rest) := by
        rw [segmentsFrom.eq_def]
        split
        · rename_i heq
          exact absurd (List.cons.inj heq).1.symm h.1
        · rename_i heq
          obtain ⟨rfl, rfl⟩ := List.cons.inj heq
          rfl
        · rename_i heq
          cases heq
      rw [List.cons_append, hstep, ih h.2, List.reverse_cons, List.append_assoc]
      rfl

theorem segments_of_notMem {segment : String} (h : ':' ∉ segment.toList) :
    segments segment = [segment] := by
  have hall := segmentsFrom_append h [] []
  rw [List.append_nil, List.append_nil] at hall
  rw [segments, hall, segmentsFrom, List.reverse_reverse, String.ofList_toList]

theorem segments_append {segment : String} (h : ':' ∉ segment.toList)
    (rest : String) :
    segments (segment ++ "::" ++ rest) = segment :: segments rest := by
  rw [segments, toList_separated, segmentsFrom_append h, segmentsFrom,
    List.append_nil, List.reverse_reverse, String.ofList_toList]
  rfl

/-- The first segment ends with the path or before a separator. -/
theorem eq_of_segmentsFrom {done cs : List Char} {first : String}
    {rest : List String} (h : segmentsFrom done cs = first :: rest) :
    first.toList = done.reverse ++ cs ∧ rest = [] ∨
      ∃ front tail, cs = front ++ ':' :: ':' :: tail ∧
        first.toList = done.reverse ++ front ∧
        rest = segmentsFrom [] tail := by
  fun_induction segmentsFrom done cs with
  | case1 done tail =>
      obtain ⟨rfl, rfl⟩ := List.cons.inj h
      exact Or.inr ⟨[], tail, rfl, by simp, rfl⟩
  | case2 done c cs _ ih =>
      obtain ⟨hfirst, hrest⟩ | ⟨front, tail, rfl, hfirst, hrest⟩ := ih h
      · exact Or.inl ⟨by simpa using hfirst, hrest⟩
      · exact Or.inr ⟨c :: front, tail, rfl, by simpa using hfirst, hrest⟩
  | case3 done =>
      obtain ⟨rfl, rfl⟩ := List.cons.inj h
      exact Or.inl ⟨by simp, rfl⟩

theorem eq_of_segments {path first : String} {rest : List String}
    (h : segments path = first :: rest) :
    path = first ∧ rest = [] ∨ ∃ tail, path = first ++ "::" ++ tail ∧
      rest = segments tail := by
  obtain ⟨hfirst, hrest⟩ | ⟨front, tail, hpath, hfirst, hrest⟩ :=
    eq_of_segmentsFrom h
  · exact Or.inl ⟨(String.toList_inj.mp hfirst).symm, hrest⟩
  · refine Or.inr ⟨String.ofList tail, ?_, ?_⟩
    · rw [← String.toList_inj, toList_separated, hpath, hfirst]
      simp
    · rw [hrest, segments, String.toList_ofList]

/-- The file of a module is known by the segments behind the root. -/
theorem exists_importFile_iff_segments {path : String} :
    (∃ file, importFile path = .ok file) ↔
    ∃ root ∈ ["java", "sandstone"], ∃ rest, segments path = root :: rest ∨
      segments path = "" :: root :: rest := by
  constructor
  · rintro ⟨file, h⟩
    rw [importFile] at h
    split at h
    · cases h
    · rename_i root rest hparts
      have hroot : root ∈ ["java", "sandstone"] := by
        split at h
        · rename_i hjava
          simpa using Or.inl (eq_of_beq hjava)
        · split at h
          · rename_i hsandstone
            simpa using Or.inr (eq_of_beq hsandstone)
          · cases h
      refine ⟨root, hroot, rest, ?_⟩
      split at hparts
      · rename_i behind hsegments
        exact Or.inr (hparts ▸ hsegments)
      · exact Or.inl hparts
  · rintro ⟨root, hroot, rest, h⟩
    rw [List.mem_cons, List.mem_singleton] at hroot
    rw [importFile]
    rcases h with h | h <;> rcases hroot with rfl | rfl <;> rw [h] <;>
      exact ⟨_, rfl⟩

theorem exists_segments_iff {path root : String} (hroot : ':' ∉ root.toList) :
    (∃ rest, segments path = root :: rest) ↔
      path = root ∨ ∃ rest, path = root ++ "::" ++ rest := by
  constructor
  · rintro ⟨rest, h⟩
    obtain ⟨hpath, -⟩ | ⟨tail, hpath, -⟩ := eq_of_segments h
    · exact Or.inl hpath
    · exact Or.inr ⟨tail, hpath⟩
  · rintro (rfl | ⟨rest, rfl⟩)
    · exact ⟨[], segments_of_notMem hroot⟩
    · exact ⟨segments rest, segments_append hroot rest⟩

theorem segments_eq_empty_cons_iff {path root : String} {rest : List String} :
    segments path = "" :: root :: rest ↔
      ∃ tail, path = "::" ++ tail ∧ segments tail = root :: rest := by
  constructor
  · intro h
    obtain ⟨-, hnil⟩ | ⟨tail, hpath, hrest⟩ := eq_of_segments h
    · cases hnil
    · exact ⟨tail, hpath, hrest.symm⟩
  · rintro ⟨tail, rfl, h⟩
    have hempty : ':' ∉ ("" : String).toList := by decide
    rw [← h]
    exact segments_append hempty tail

/-- A module has a file exactly if it belongs to a root. -/
theorem exists_importFile_iff {path : String} :
    (∃ file, importFile path = .ok file) ↔ IsRooted path := by
  have hcolon : ∀ root ∈ ["java", "sandstone"], ':' ∉ root.toList := by decide
  rw [exists_importFile_iff_segments]
  constructor
  · rintro ⟨root, hroot, rest, h | h⟩
    · obtain hpath | ⟨tail, hpath⟩ :=
        (exists_segments_iff (hcolon root hroot)).mp ⟨rest, h⟩
      · exact ⟨"", by simp, root, hroot, Or.inl (by simpa using hpath)⟩
      · exact ⟨"", by simp, root, hroot, Or.inr ⟨tail, by simpa using hpath⟩⟩
    · obtain ⟨behind, rfl, hbehind⟩ := segments_eq_empty_cons_iff.mp h
      obtain rfl | ⟨tail, rfl⟩ :=
        (exists_segments_iff (hcolon root hroot)).mp ⟨rest, hbehind⟩
      · exact ⟨"::", by simp, _, hroot, Or.inl rfl⟩
      · exact ⟨"::", by simp, root, hroot,
          Or.inr ⟨tail, by simp [String.append_assoc]⟩⟩
  · rintro ⟨lead, hlead, root, hroot, hpath⟩
    rw [List.mem_cons, List.mem_singleton] at hlead
    refine ⟨root, hroot, ?_⟩
    rcases hlead with rfl | rfl
    · have hfront : path = root ∨ ∃ rest, path = root ++ "::" ++ rest := by
        simpa using hpath
      obtain ⟨rest, hrest⟩ :=
        (exists_segments_iff (hcolon root hroot)).mpr hfront
      exact ⟨rest, Or.inl hrest⟩
    · have hbehind : ∃ behind, path = "::" ++ behind ∧
          (behind = root ∨ ∃ rest, behind = root ++ "::" ++ rest) := by
        rcases hpath with rfl | ⟨rest, rfl⟩
        · exact ⟨root, rfl, Or.inl rfl⟩
        · exact ⟨root ++ "::" ++ rest, by simp [String.append_assoc],
            Or.inr ⟨rest, rfl⟩⟩
      obtain ⟨behind, rfl, hbehind⟩ := hbehind
      obtain ⟨rest, hrest⟩ :=
        (exists_segments_iff (hcolon root hroot)).mpr hbehind
      exact ⟨rest, Or.inr (segments_eq_empty_cons_iff.mpr ⟨behind, rfl, hrest⟩)⟩

end Typings
