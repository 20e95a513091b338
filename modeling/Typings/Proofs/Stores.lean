import Typings.Session
import Typings.Proofs.Steps

/-!
What file operations do, seen through what is at every full path. Where a
location leads is known from its parts alone; the files decide only whether
one gets there. Making a folder puts folders on the whole way to it and
changes nothing else.
-/

namespace Typings

theorem Text.pieces_of_notMem {separates : Char → Bool} {cs : List Char}
    (h : ∀ c ∈ cs, separates c = false) :
    pieces separates cs = [cs] := by
  induction cs with
  | nil => rfl
  | cons c rest ih =>
      rw [List.forall_mem_cons] at h
      simp [pieces, h.1, ih h.2]

theorem Text.pieces_append {separates : Char → Bool}
    {cs : List Char} (h : ∀ c ∈ cs, separates c = false)
    {c : Char} (hc : separates c = true) (rest : List Char) :
    pieces separates (cs ++ c :: rest) = cs :: pieces separates rest := by
  induction cs with
  | nil => simp [pieces, hc]
  | cons d cs ih =>
      rw [List.forall_mem_cons] at h
      simp [pieces, h.1, ih h.2]

/-- Pieces that are joined by a separating character can be told apart again. -/
theorem Text.pieces_intercalate {separates : Char → Bool} {c : Char}
    (hc : separates c = true) {parts : List (List Char)} (hne : parts ≠ [])
    (h : ∀ part ∈ parts, ∀ d ∈ part, separates d = false) :
    pieces separates ([c].intercalate parts) = parts := by
  induction parts with
  | nil => exact absurd rfl hne
  | cons part rest ih =>
      rw [List.forall_mem_cons] at h
      cases rest with
      | nil =>
          rw [List.intercalate_singleton]
          exact pieces_of_notMem h.1
      | cons next rest =>
          rw [List.intercalate_cons_cons, List.append_assoc,
            List.singleton_append, pieces_append h.1 hc, ih (by simp) h.2]

/-- A part that is kept as it is: it says something, and no slash is in it. -/
structure Location.IsPart (part : String) : Prop where
  ne_empty : part ≠ ""
  ne_dot : part ≠ "."
  noSlash : '/' ∉ part.toList

/-- A path that is put together from parts has these parts. -/
theorem Location.ofText_intercalate {parts : List String} (hne : parts ≠ [])
    (h : ∀ part ∈ parts, IsPart part) :
    ofText ("/".intercalate parts) = { parts } := by
  have hpieces : Text.pieces (· == '/') ("/".intercalate parts).toList =
      parts.map String.toList := by
    rw [String.toList_intercalate]
    refine Text.pieces_intercalate (by decide) (by simpa using hne)
      fun cs hcs d hd => ?_
    obtain ⟨part, hpart, rfl⟩ := List.mem_map.mp hcs
    have hslash : d ≠ '/' := fun he => (h part hpart).noSlash (he ▸ hd)
    simpa using hslash
  have hanchor : ("/".intercalate parts).toList.takeWhile (· == '/') = [] := by
    obtain ⟨first, rest, rfl⟩ := List.exists_cons_of_ne_nil hne
    have hfirst := h first List.mem_cons_self
    obtain ⟨c, cs, hcs⟩ := List.exists_cons_of_ne_nil
      (mt String.toList_eq_nil_iff.mp hfirst.ne_empty)
    have hc : (c == '/') = false := by
      have hslash := hfirst.noSlash
      rw [hcs, List.mem_cons, not_or] at hslash
      simpa using Ne.symm hslash.1
    have hstart :
        ∃ more, ("/".intercalate (first :: rest)).toList = c :: more := by
      cases rest with
      | nil => exact ⟨cs, by rw [String.intercalate_singleton, hcs]⟩
      | cons next rest =>
          rw [String.intercalate_cons_cons, String.toList_append,
            String.toList_append, hcs]
          exact ⟨_, rfl⟩
    obtain ⟨more, hmore⟩ := hstart
    rw [hmore, List.takeWhile_cons, hc]
    rfl
  have hkept : (parts.filter fun p => p != "" && p != ".") = parts := by
    refine List.filter_eq_self.mpr fun part hpart => ?_
    simp [(h part hpart).ne_empty, (h part hpart).ne_dot]
  have hparts : partsOf ("/".intercalate parts).toList = parts := by
    rw [partsOf, hpieces, List.map_map]
    simpa using hkept
  rw [ofText, hanchor, hparts]
  rfl

theorem Location.child_intercalate {parts : List String} (hne : parts ≠ [])
    (h : ∀ part ∈ parts, IsPart part) (l : Location) :
    l.child ("/".intercalate parts) = { l with parts := l.parts ++ parts } := by
  rw [child, ofText_intercalate hne h]
  rfl

/-- Nothing about the location itself stands in the way: there is no NUL in it,
and nothing is too long. -/
structure Location.IsUsable (l : Location) : Prop where
  noNul : l.hasNul = false
  short : l.text.utf8ByteSize ≤ Store.pathLimit
  names : ∀ part ∈ l.parts, part.utf8ByteSize ≤ Store.nameLimit

theorem utf8ByteSize_intercalate_append_le (separator : String)
    (xs ys : List String) :
    (separator.intercalate xs).utf8ByteSize ≤
      (separator.intercalate (xs ++ ys)).utf8ByteSize := by
  by_cases hxs : xs = []
  · simp [hxs]
  · by_cases hys : ys = []
    · simp [hys]
    · rw [String.intercalate_append_of_ne_nil hxs hys,
        String.utf8ByteSize_append, String.utf8ByteSize_append]
      omega

/-- On the way to a usable location all locations are usable. -/
theorem Location.IsUsable.of_append {anchor : String} {parts more : List String}
    (h : Location.IsUsable { anchor, parts := parts ++ more }) :
    Location.IsUsable { anchor, parts } where
  noNul := by
    have hnul := h.noNul
    rw [hasNul, List.any_append, Bool.or_eq_false_iff] at hnul
    exact hnul.1
  short := by
    have hshort := h.short
    simp only [text] at hshort ⊢
    split
    · decide
    · rename_i hparts
      have hmore : ¬ (anchor = "" ∧ parts ++ more = []) :=
        fun ⟨hanchor, hnil⟩ =>
        hparts ⟨hanchor, (List.append_eq_nil_iff.mp hnil).1⟩
      rw [if_neg hmore, String.utf8ByteSize_append] at hshort
      rw [String.utf8ByteSize_append]
      have := utf8ByteSize_intercalate_append_le "/" parts more
      omega
  names part hpart := h.names part (List.mem_append_left _ hpart)

namespace Store

/-- The full path one part further. -/
def step (path : List String) (part : String) : List String :=
  if part = ".." then path.dropLast else path ++ [part]

/-- The full paths from which a walk along parts goes on. -/
def passed (path : List String) : List String → List (List String)
  | [] => []
  | part :: rest => path :: passed (step path part) rest

/-- The full path at which the walk to a location starts. -/
def origin (s : Store) (l : Location) : List String :=
  if l.anchor = "" then s.working else []

/-- The full path of a location, whether anything is there or not. -/
def fullPath (s : Store) (l : Location) : List String :=
  l.parts.foldl step (s.origin l)

/-- The full paths on the way to a location. -/
def way (s : Store) (l : Location) : List (List String) :=
  passed (s.origin l) l.parts

def trail (s : Store) (l : Location) : List (List String) :=
  s.way l ++ [s.fullPath l]

/-- Is there a file at the full path? -/
def HasFile (s : Store) (path : List String) : Prop :=
  ∃ bytes, s.node? path = some (.file bytes)

theorem passed_append (path : List String) (parts more : List String) :
    passed path (parts ++ more) =
      passed path parts ++ passed (parts.foldl step path) more := by
  induction parts generalizing path with
  | nil => rfl
  | cons part rest ih =>
      rw [List.cons_append, passed, passed, ih, List.cons_append,
        List.foldl_cons]

variable {s s' : Store} {l : Location} {path p q : List String}
  {bytes : List UInt8}

theorem trail_eq_way (part : String) :
    s.trail l = s.way { l with parts := l.parts ++ [part] } := by
  rw [way, passed_append]
  rfl

theorem origin_eq (hworking : s'.working = s.working) :
    s'.origin l = s.origin l := by
  rw [origin, origin, hworking]

theorem fullPath_eq (hworking : s'.working = s.working) :
    s'.fullPath l = s.fullPath l := by
  rw [fullPath, fullPath, origin_eq hworking]

theorem way_eq (hworking : s'.working = s.working) : s'.way l = s.way l := by
  rw [way, way, origin_eq hworking]

theorem trail_eq (hworking : s'.working = s.working) :
    s'.trail l = s.trail l := by
  rw [trail, trail, way_eq hworking, fullPath_eq hworking]

theorem walk_eq_ok_iff {parts : List String} : s.walk path parts = .ok p ↔
    (∀ part ∈ parts, part.utf8ByteSize ≤ nameLimit) ∧
      (∀ q ∈ passed path parts, s.node? q = some .folder) ∧
      p = parts.foldl step path := by
  induction parts generalizing path with
  | nil => simp [walk, passed, eq_comm]
  | cons part rest ih =>
      rw [walk, passed, List.forall_mem_cons, List.forall_mem_cons,
        List.foldl_cons]
      cases hnode : s.node? path with
      | none => simp
      | some node =>
          cases node with
          | file bytes => simp
          | folder =>
              by_cases hlong : nameLimit < part.utf8ByteSize
              · have hnot : ¬ part.utf8ByteSize ≤ nameLimit :=
                  Nat.not_le_of_lt hlong
                simp [hlong, hnot]
              · have hshort : part.utf8ByteSize ≤ nameLimit :=
                  Nat.le_of_not_lt hlong
                dsimp only
                rw [if_neg hlong]
                refine ih.trans ?_
                simp [hshort, step]

/-- Where no file is on the way and no name is too long, only a missing
folder stops a walk. -/
theorem walk_eq_missing {parts : List String}
    (hnames : ∀ part ∈ parts, part.utf8ByteSize ≤ nameLimit)
    (hfiles : ∀ q ∈ passed path parts, ¬ s.HasFile q)
    (hmissing : ¬ ∀ q ∈ passed path parts, s.node? q = some .folder) :
    s.walk path parts = .error .missing := by
  induction parts generalizing path with
  | nil => exact absurd (fun q hq => nomatch hq) hmissing
  | cons part rest ih =>
      rw [passed, List.forall_mem_cons] at hfiles hmissing
      rw [walk]
      cases hnode : s.node? path with
      | none => rfl
      | some node =>
          cases node with
          | file bytes => exact absurd ⟨bytes, hnode⟩ hfiles.1
          | folder =>
              have hshort : ¬ nameLimit < part.utf8ByteSize :=
                Nat.not_lt_of_le (hnames part List.mem_cons_self)
              have hrest : ¬ ∀ q ∈ passed (step path part) rest,
                  s.node? q = some .folder :=
                fun h => hmissing ⟨hnode, h⟩
              dsimp only
              rw [if_neg hshort]
              exact ih (fun p hp => hnames p (List.mem_cons_of_mem _ hp))
                hfiles.2 hrest

theorem resolve_eq_ok_iff : s.resolve l = .ok p ↔
    l.IsUsable ∧ (∀ q ∈ s.way l, s.node? q = some .folder) ∧
      p = s.fullPath l := by
  have hstart : (if l.anchor = "" then s.working else []) = s.origin l := rfl
  rw [resolve, hstart]
  by_cases hnul : l.hasNul = true
  · rw [if_pos hnul]
    refine iff_of_false (by simp) fun h => ?_
    rw [h.1.noNul] at hnul
    cases hnul
  · by_cases hlong : pathLimit < l.text.utf8ByteSize
    · rw [if_neg hnul, if_pos hlong]
      exact iff_of_false (by simp) fun h => Nat.not_lt_of_le h.1.short hlong
    · rw [if_neg hnul, if_neg hlong, walk_eq_ok_iff]
      constructor
      · rintro ⟨hnames, hway, hp⟩
        exact ⟨⟨Bool.eq_false_iff.mpr hnul, Nat.le_of_not_lt hlong, hnames⟩,
          hway, hp⟩
      · rintro ⟨husable, hway, hp⟩
        exact ⟨husable.names, hway, hp⟩

theorem resolve_eq_ok (husable : l.IsUsable)
    (hway : ∀ q ∈ s.way l, s.node? q = some .folder) :
    s.resolve l = .ok (s.fullPath l) :=
  resolve_eq_ok_iff.mpr ⟨husable, hway, rfl⟩

theorem resolve_eq_missing (husable : l.IsUsable)
    (hfiles : ∀ q ∈ s.way l, ¬ s.HasFile q)
    (hmissing : ¬ ∀ q ∈ s.way l, s.node? q = some .folder) :
    s.resolve l = .error .missing := by
  have hnul : ¬ l.hasNul = true := by simp [husable.noNul]
  rw [resolve, if_neg hnul, if_neg (Nat.not_lt_of_le husable.short)]
  exact walk_eq_missing husable.names hfiles hmissing

theorem lookup_filter_ne {nodes : List (List String × StoreNode)}
    (h : q ≠ path) :
    (nodes.filter fun n => n.1 != path).lookup q = nodes.lookup q := by
  induction nodes with
  | nil => rfl
  | cons n rest ih =>
      obtain ⟨at?, node⟩ := n
      by_cases hpath : at? = path
      · have hne : (q == at?) = false := by simpa [hpath] using h
        rw [List.filter_cons_of_neg (by simp [hpath]), ih,
          List.lookup_cons, hne]
      · rw [List.filter_cons_of_pos (by simpa using hpath), List.lookup_cons,
          List.lookup_cons, ih]

theorem node?_nil (s : Store) : s.node? [] = some .folder :=
  rfl

/-- Putting something at a full path changes what is there and nothing else. The
top stays a folder. -/
theorem node?_put (hpath : path ≠ []) (node : StoreNode) :
    (s.put path node).node? q = if q = path then some node else s.node? q := by
  by_cases hnil : q = []
  · rw [hnil, node?_nil, node?_nil, if_neg (Ne.symm hpath)]
  · rw [node?, if_neg hnil, put, List.lookup_cons]
    by_cases hq : q = path
    · simp [hq]
    · have hne : (q == path) = false := by simpa using hq
      rw [hne, if_neg hq, lookup_filter_ne hq, node?, if_neg hnil]

theorem ne_nil_of_node? (h : s.node? path ≠ some .folder) : path ≠ [] := by
  rintro rfl
  exact h (node?_nil s)

theorem write_eq_ok_iff : s.write l bytes = .ok s' ↔
    l.IsUsable ∧ (∀ q ∈ s.way l, s.node? q = some .folder) ∧
      s.node? (s.fullPath l) ≠ some .folder ∧
      s' = s.put (s.fullPath l) (.file bytes) := by
  rw [write, bind_eq_ok_iff]
  simp only [resolve_eq_ok_iff]
  constructor
  · rintro ⟨p, ⟨husable, hway, rfl⟩, h⟩
    split at h
    · cases h
    · rename_i hfolder
      exact ⟨husable, hway, hfolder, (pure_eq_ok_iff.mp h).symm⟩
  · rintro ⟨husable, hway, hfolder, rfl⟩
    refine ⟨_, ⟨husable, hway, rfl⟩, ?_⟩
    split
    · rename_i h
      exact absurd h hfolder
    · rfl

theorem read_eq_ok_iff : s.read l = .ok bytes ↔
    l.IsUsable ∧ (∀ q ∈ s.way l, s.node? q = some .folder) ∧
      s.node? (s.fullPath l) = some (.file bytes) := by
  rw [read, bind_eq_ok_iff]
  simp only [resolve_eq_ok_iff]
  constructor
  · rintro ⟨p, ⟨husable, hway, rfl⟩, h⟩
    split at h
    · rename_i hfile
      rw [← pure_eq_ok_iff.mp h]
      exact ⟨husable, hway, hfile⟩
    · cases h
    · cases h
  · rintro ⟨husable, hway, hfile⟩
    refine ⟨_, ⟨husable, hway, rfl⟩, ?_⟩
    rw [hfile]
    rfl

/-- Nothing is at a usable location if the way there breaks off or
ends at nothing. -/
theorem has_eq_false (husable : l.IsUsable)
    (hfiles : ∀ q ∈ s.way l, ¬ s.HasFile q)
    (hnode : s.node? (s.fullPath l) = none) : s.has l = .ok false := by
  by_cases hway : ∀ q ∈ s.way l, s.node? q = some .folder
  · rw [has, at?, resolve_eq_ok husable hway]
    exact congrArg (fun node => Except.ok (Option.isSome node)) hnode
  · rw [has, at?, resolve_eq_missing husable hfiles hway]
    rfl

theorem has_of_read (h : s.read l = .ok bytes) : s.has l = .ok true := by
  obtain ⟨husable, hway, hfile⟩ := read_eq_ok_iff.mp h
  rw [has, at?, resolve_eq_ok husable hway]
  exact congrArg (fun node => Except.ok (Option.isSome node)) hfile

/-- The second store is the first one with folders at the given places. -/
structure Gains (places : List (List String)) (s s' : Store) : Prop where
  working : s'.working = s.working
  node : ∀ q, s'.node? q = if q ∈ places then some .folder else s.node? q

theorem makeFolder_eq_ok_iff : s.makeFolder l = .ok s' ↔
    l.IsUsable ∧ (∀ q ∈ s.way l, s.node? q = some .folder) ∧
      (s.node? (s.fullPath l) = some .folder ∧ s' = s ∨
        s.node? (s.fullPath l) = none ∧ s' = s.put (s.fullPath l) .folder) := by
  rw [makeFolder, bind_eq_ok_iff]
  simp only [resolve_eq_ok_iff]
  constructor
  · rintro ⟨p, ⟨husable, hway, rfl⟩, h⟩
    refine ⟨husable, hway, ?_⟩
    split at h
    · rename_i hfolder
      exact Or.inl ⟨hfolder, (pure_eq_ok_iff.mp h).symm⟩
    · cases h
    · rename_i hnone
      exact Or.inr ⟨hnone, (pure_eq_ok_iff.mp h).symm⟩
  · rintro ⟨husable, hway, h⟩
    refine ⟨_, ⟨husable, hway, rfl⟩, ?_⟩
    rcases h with ⟨hnode, rfl⟩ | ⟨hnode, rfl⟩
    · rw [hnode]
      rfl
    · rw [hnode]
      rfl

theorem not_hasFile_of_folder (h : s.node? q = some .folder) :
    ¬ s.HasFile q := by
  rintro ⟨bytes, hfile⟩
  rw [h] at hfile
  cases hfile

theorem not_hasFile_of_none (h : s.node? q = none) : ¬ s.HasFile q := by
  rintro ⟨bytes, hfile⟩
  rw [h] at hfile
  cases hfile

/-- Making one folder, where the folders on the way are there. -/
theorem gains_makeFolder (h : s.makeFolder l = .ok s') :
    l.IsUsable ∧ (∀ q ∈ s.trail l, ¬ s.HasFile q) ∧ Gains (s.trail l) s s' := by
  obtain ⟨husable, hway, hend⟩ := makeFolder_eq_ok_iff.mp h
  have hmem : ∀ q, q ∈ s.trail l ↔ q ∈ s.way l ∨ q = s.fullPath l := by
    simp [trail]
  refine ⟨husable, fun q hq => ?_, ?_, fun q => ?_⟩
  · rcases (hmem q).mp hq with hq | rfl
    · exact not_hasFile_of_folder (hway q hq)
    · rcases hend with ⟨hnode, -⟩ | ⟨hnode, -⟩
      · exact not_hasFile_of_folder hnode
      · exact not_hasFile_of_none hnode
  · rcases hend with ⟨-, rfl⟩ | ⟨-, rfl⟩ <;> rfl
  · rcases hend with ⟨hnode, rfl⟩ | ⟨hnode, rfl⟩
    · split
      · rename_i hq
        rcases (hmem q).mp hq with hq | rfl
        · exact hway q hq
        · exact hnode
      · rfl
    · have hne : s.node? (s.fullPath l) ≠ some .folder := by simp [hnode]
      rw [node?_put (ne_nil_of_node? hne)]
      by_cases hq : q = s.fullPath l
      · rw [if_pos hq, if_pos ((hmem q).mpr (Or.inr hq))]
      · rw [if_neg hq]
        split
        · rename_i hqtrail
          exact hway q (((hmem q).mp hqtrail).resolve_right hq)
        · rfl

theorem exists_makeFolder (husable : l.IsUsable)
    (hway : ∀ q ∈ s.way l, s.node? q = some .folder)
    (hend : ¬ s.HasFile (s.fullPath l)) : ∃ s', s.makeFolder l = .ok s' := by
  cases hnode : s.node? (s.fullPath l) with
  | none =>
      exact ⟨_, makeFolder_eq_ok_iff.mpr ⟨husable, hway, Or.inr ⟨hnode, rfl⟩⟩⟩
  | some node =>
      cases node with
      | folder =>
          exact ⟨_,
            makeFolder_eq_ok_iff.mpr ⟨husable, hway, Or.inl ⟨hnode, rfl⟩⟩⟩
      | file bytes => exact absurd ⟨bytes, hnode⟩ hend

/-- A folder after the folders on the way to it. -/
theorem Gains.makeFolder {around : List String} {part anchor : String}
    {s₁ : Store}
    (hfiles : ∀ q ∈ s.trail { anchor, parts := around }, ¬ s.HasFile q)
    (hgains : Gains (s.trail { anchor, parts := around }) s s₁)
    (h : s₁.makeFolder { anchor, parts := around ++ [part] } = .ok s') :
    (∀ q ∈ s.trail { anchor, parts := around ++ [part] }, ¬ s.HasFile q) ∧
      Gains (s.trail { anchor, parts := around ++ [part] }) s s' := by
  have hway : s.trail { anchor, parts := around } =
      s.way { anchor, parts := around ++ [part] } :=
    trail_eq_way (l := { anchor, parts := around }) part
  have hmem : ∀ q, q ∈ s.trail { anchor, parts := around ++ [part] } ↔
      q ∈ s.trail { anchor, parts := around } ∨
        q = s.fullPath { anchor, parts := around ++ [part] } := by
    intro q
    rw [hway]
    simp [trail]
  obtain ⟨-, hfiles', hgains'⟩ := gains_makeFolder h
  rw [trail_eq hgains.working] at hfiles' hgains'
  refine ⟨fun q hq => ?_, hgains'.working.trans hgains.working, fun q => ?_⟩
  · by_cases hq' : q ∈ s.trail { anchor, parts := around }
    · exact hfiles q hq'
    · have hsame := hgains.node q
      rw [if_neg hq'] at hsame
      rintro ⟨bytes, hfile⟩
      exact hfiles' q hq ⟨bytes, hsame.trans hfile⟩
  · rw [hgains'.node q]
    by_cases hq : q ∈ s.trail { anchor, parts := around ++ [part] }
    · rw [if_pos hq, if_pos hq]
    · have hq' : q ∉ s.trail { anchor, parts := around } :=
        fun h => hq ((hmem q).mpr (Or.inl h))
      rw [if_neg hq, if_neg hq, hgains.node q, if_neg hq']

/-- What making folders from the inside out comes to. -/
theorem makeFoldersAt_eq_ok {anchor : String} {around : List String}
    (h : makeFoldersAt anchor around s = (.ok ⟨⟩, s')) :
    Location.IsUsable { anchor, parts := around.reverse } ∧
      (∀ q ∈ s.trail { anchor, parts := around.reverse }, ¬ s.HasFile q) ∧
      Gains (s.trail { anchor, parts := around.reverse }) s s' := by
  induction around generalizing s s' with
  | nil =>
      rw [makeFoldersAt] at h
      split at h
      · rename_i hmade
        cases h
        exact gains_makeFolder hmade
      · cases h
  | cons part around ih =>
      rw [makeFoldersAt] at h
      split at h
      · rename_i hmade
        cases h
        exact gains_makeFolder hmade
      · split at h
        · rename_i s₁ hrest
          split at h
          · rename_i hmade
            cases h
            obtain ⟨-, hfiles, hgains⟩ := ih hrest
            rw [List.reverse_cons] at hmade ⊢
            exact ⟨(makeFolder_eq_ok_iff.mp hmade).1,
              hgains.makeFolder hfiles hmade⟩
          · cases h
        · rename_i hfailed
          exact absurd h (hfailed s')
      · cases h

theorem exists_makeFoldersAt {anchor : String} {around : List String}
    (husable : Location.IsUsable { anchor, parts := around.reverse })
    (hfiles : ∀ q ∈ s.trail { anchor, parts := around.reverse },
      ¬ s.HasFile q) :
    ∃ s', makeFoldersAt anchor around s = (.ok ⟨⟩, s') := by
  induction around generalizing s with
  | nil =>
      obtain ⟨s', hmade⟩ := exists_makeFolder (s := s) (l := { anchor }) husable
        (fun q hq => nomatch hq)
        (hfiles _ (List.mem_append_right _ (List.mem_singleton.mpr rfl)))
      exact ⟨s', by rw [makeFoldersAt, hmade]⟩
  | cons part around ih =>
      rw [List.reverse_cons] at husable hfiles
      have hway : s.trail { anchor, parts := around.reverse } =
          s.way { anchor, parts := around.reverse ++ [part] } :=
        trail_eq_way (l := { anchor, parts := around.reverse }) part
      have hend : ¬ s.HasFile
          (s.fullPath { anchor, parts := around.reverse ++ [part] }) :=
        hfiles _ (List.mem_append_right _ (List.mem_singleton.mpr rfl))
      have hbefore : ∀ q ∈ s.way { anchor, parts := around.reverse ++ [part] },
          ¬ s.HasFile q :=
        fun q hq => hfiles q (List.mem_append_left _ hq)
      rw [makeFoldersAt, List.reverse_cons]
      by_cases hthere : ∀ q ∈ s.way
        { anchor, parts := around.reverse ++ [part] }, s.node? q = some .folder
      · obtain ⟨s', hmade⟩ := exists_makeFolder husable hthere hend
        exact ⟨s', by rw [hmade]⟩
      -- A folder on the way is missing: those around this one are made first,
      -- and then there is nothing missing.
      · have hmissing :
            s.makeFolder { anchor, parts := around.reverse ++ [part] } =
              .error .missing := by
          rw [makeFolder, resolve_eq_missing husable hbefore hthere]
          rfl
        obtain ⟨s₁, hrest⟩ := ih husable.of_append (hway ▸ hbefore)
        obtain ⟨-, -, hgains⟩ := makeFoldersAt_eq_ok hrest
        have hthere₁ :
            ∀ q ∈ s₁.way { anchor, parts := around.reverse ++ [part] },
            s₁.node? q = some .folder := by
          intro q hq
          rw [way_eq hgains.working, ← hway] at hq
          rw [hgains.node, if_pos hq]
        have hend₁ : ¬ s₁.HasFile
            (s₁.fullPath { anchor, parts := around.reverse ++ [part] }) := by
          rw [fullPath_eq hgains.working]
          rintro ⟨bytes, hfile⟩
          rw [hgains.node] at hfile
          split at hfile
          · cases hfile
          · exact hend ⟨bytes, hfile⟩
        obtain ⟨s', hmade⟩ := exists_makeFolder husable hthere₁ hend₁
        exact ⟨s', by rw [hmissing, hrest]; dsimp only; rw [hmade]⟩

/-- A folder can be made if no file is on the way to it. -/
theorem exists_makeFolders_iff : (∃ s', s.makeFolders l = (.ok ⟨⟩, s')) ↔
    l.IsUsable ∧ ∀ q ∈ s.trail l, ¬ s.HasFile q := by
  have hreverse :
      ({ anchor := l.anchor, parts := l.parts.reverse.reverse } : Location) =
        l := by
    rw [List.reverse_reverse]
  constructor
  · rintro ⟨s', h⟩
    obtain ⟨husable, hfiles, -⟩ := makeFoldersAt_eq_ok h
    rw [hreverse] at husable hfiles
    exact ⟨husable, hfiles⟩
  · rintro ⟨husable, hfiles⟩
    rw [← hreverse] at husable hfiles
    exact exists_makeFoldersAt husable hfiles

/-- Making a folder puts folders on the way to it. -/
theorem gains_makeFolders (h : s.makeFolders l = (.ok ⟨⟩, s')) :
    Gains (s.trail l) s s' := by
  have hgains := (makeFoldersAt_eq_ok h).2.2
  rw [List.reverse_reverse] at hgains
  exact hgains

/-- A file can be written at the location once the folders on
the way are made. -/
structure Admits (s : Store) (l : Location) : Prop where
  usable : l.IsUsable
  files : ∀ q ∈ s.way l, ¬ s.HasFile q
  apart : s.fullPath l ∉ s.way l
  node : s.node? (s.fullPath l) ≠ some .folder

/-- The second store is the first one with a file at the location and folders
on the way there. -/
structure Receives (l : Location) (bytes : List UInt8) (s s' : Store) :
    Prop where
  working : s'.working = s.working
  node : ∀ q, s'.node? q =
    if q = s.fullPath l then some (.file bytes)
    else if q ∈ s.way l then some .folder
    else s.node? q

variable {s₁ : Store} {t : Location} {bytes' : List UInt8}

theorem admits_of_write (hfiles : ∀ q ∈ s.way l, ¬ s.HasFile q)
    (hgains : Gains (s.way l) s s₁)
    (h : s₁.write l bytes = .ok s') : s.Admits l ∧ Receives l bytes s s' := by
  obtain ⟨husable, -, hnode, rfl⟩ := write_eq_ok_iff.mp h
  have hput := ne_nil_of_node? hnode
  rw [fullPath_eq hgains.working] at hnode hput ⊢
  rw [hgains.node] at hnode
  have hapart : s.fullPath l ∉ s.way l := fun hmem => hnode (if_pos hmem)
  rw [if_neg hapart] at hnode
  refine ⟨⟨husable, hfiles, hapart, hnode⟩, hgains.working, fun q => ?_⟩
  rw [node?_put hput, hgains.node]

theorem Admits.write (h : s.Admits l) (hgains : Gains (s.way l) s s₁)
    (bytes : List UInt8) :
    ∃ s', s₁.write l bytes = .ok s' := by
  refine ⟨_, write_eq_ok_iff.mpr ⟨h.usable, fun q hq => ?_, ?_, rfl⟩⟩
  · rw [way_eq hgains.working] at hq
    rw [hgains.node, if_pos hq]
  · rw [fullPath_eq hgains.working, hgains.node, if_neg h.apart]
    exact h.node

namespace Receives

theorem read (h : Receives l bytes s s') (hadmits : s.Admits l) :
    s'.read l = .ok bytes := by
  refine read_eq_ok_iff.mpr ⟨hadmits.usable, fun q hq => ?_, ?_⟩
  · rw [way_eq h.working] at hq
    have hne : q ≠ s.fullPath l := fun he => hadmits.apart (he ▸ hq)
    rw [h.node, if_neg hne, if_pos hq]
  · rw [fullPath_eq h.working, h.node, if_pos rfl]

/-- A file can still be written where neither of the two is on the
way to the other. -/
theorem admits (h : Receives l bytes s s')
    (ht : s.Admits t) (hlt : s.fullPath l ∉ s.way t)
    (htl : s.fullPath t ∉ s.way l) : s'.Admits t where
  usable := ht.usable
  files q hq := by
    rw [way_eq h.working] at hq
    have hne : q ≠ s.fullPath l := fun he => hlt (he ▸ hq)
    have hfile := ht.files q hq
    rintro ⟨bytes', hnode⟩
    rw [h.node, if_neg hne] at hnode
    split at hnode
    · cases hnode
    · exact hfile ⟨bytes', hnode⟩
  apart := by
    rw [fullPath_eq h.working, way_eq h.working]
    exact ht.apart
  node := by
    rw [fullPath_eq h.working, h.node, if_neg htl]
    split
    · simp
    · exact ht.node

/-- A file can be written next to one that was written a moment ago if it could
be written before. -/
theorem write_beside_iff (h : Receives l bytes s s₁) (hadmits : s.Admits l)
    (hway : s.way t = s.way l) (hne : s.fullPath t ≠ s.fullPath l) :
    s₁.write t bytes' = .ok s' ↔
      s.Admits t ∧ s' = s₁.put (s.fullPath t) (.file bytes') := by
  have hthere : ∀ q ∈ s.way l, s₁.node? q = some .folder := by
    intro q hq
    have hother : q ≠ s.fullPath l := fun he => hadmits.apart (he ▸ hq)
    rw [h.node, if_neg hother, if_pos hq]
  have hnode : s₁.node? (s.fullPath t) ≠ some .folder ↔
      s.fullPath t ∉ s.way t ∧ s.node? (s.fullPath t) ≠ some .folder := by
    rw [h.node, if_neg hne, hway]
    split
    · rename_i hmem
      simp [hmem]
    · rename_i hmem
      simp [hmem]
  rw [write_eq_ok_iff, way_eq h.working, fullPath_eq h.working, hnode, hway]
  constructor
  · rintro ⟨husable, -, ⟨hapart, hnode⟩, hs'⟩
    exact ⟨⟨husable, hway ▸ hadmits.files, hway ▸ hapart, hnode⟩, hs'⟩
  · rintro ⟨ht, hs'⟩
    exact ⟨ht.usable, hthere, ⟨hway ▸ ht.apart, ht.node⟩, hs'⟩

end Receives

end Store

namespace Job

variable {α : Type} {s s' : Session}

theorem compute_eq_ok_iff {x : Except Fault α} {a : α} :
    compute x s = (.ok a, s') ↔ x = .ok a ∧ s = s' :=
  iff_of_eq (Prod.mk.injEq ..)

theorem ofStore_eq_ok_iff {x : Except StoreTrouble α} {a : α} :
    ofStore x = .ok a ↔ x = .ok a := by
  cases x <;> simp [ofStore]

theorem inspect_eq_ok_iff {f : Store → Except StoreTrouble α} {a : α} :
    inspect f s = (.ok a, s') ↔ f s.store = .ok a ∧ s = s' := by
  have hrun : inspect f s = (ofStore (f s.store), s) := rfl
  rw [hrun, ← ofStore_eq_ok_iff]
  exact iff_of_eq (Prod.mk.injEq ..)

theorem change_eq_ok_iff {f : Store → Except StoreTrouble Store} :
    change f s = (.ok ⟨⟩, s') ↔
      ∃ store, f s.store = .ok store ∧ s' = { s with store } := by
  rw [change, Step.bind_eq_ok_iff]
  simp only [inspect_eq_ok_iff]
  constructor
  · rintro ⟨store, _, ⟨hstore, rfl⟩, hs'⟩
    cases hs'
    exact ⟨store, hstore, rfl⟩
  · rintro ⟨store, hstore, rfl⟩
    exact ⟨store, s, ⟨hstore, rfl⟩, rfl⟩

theorem makeFolders_eq_ok_iff {l : Location} : makeFolders l s = (.ok ⟨⟩, s') ↔
    ∃ store, s.store.makeFolders l = (.ok ⟨⟩, store) ∧
      s' = { s with store } := by
  have hrun : makeFolders l s = (ofStore (s.store.makeFolders l).1,
      { s with store := (s.store.makeFolders l).2 }) := rfl
  rw [hrun]
  constructor
  · intro h
    obtain ⟨hmade, rfl⟩ := Prod.mk.inj h
    exact ⟨_, Prod.ext (ofStore_eq_ok_iff.mp hmade) rfl, rfl⟩
  · rintro ⟨store, hmade, rfl⟩
    rw [hmade]
    rfl

end Job

end Typings
