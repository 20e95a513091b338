import Typings.Proofs.Address
import Typings.Proofs.Names
import Mathlib.Data.List.Induction

/-!
Where the parts of a struct stand in its body. The body is the intersection of
what the struct inherits, the object of its fixed keys and what is merged in, so
the way to a part depends on how many parts of each kind come before it and on
how many there are.
-/

namespace Typings

/-- What a field can add to its struct. -/
inductive PartKind where
  | own
  | mapped
  | spread

def Part.kind : Part → PartKind
  | .own _ _ _ _ => .own
  | .mapped _ _ _ => .mapped
  | .spread _ => .spread

/-- How many types a struct inherits, how many fixed keys it has, and how many
types it merges in. -/
structure Layout where
  inherited : Nat := 0
  own : Nat := 0
  merged : Nat := 0

namespace Layout

def next (l : Layout) : PartKind → Layout
  | .own => { l with own := l.own + 1 }
  | .mapped => { l with inherited := l.inherited + 1 }
  | .spread => if l.own = 0 then { l with inherited := l.inherited + 1 }
    else { l with merged := l.merged + 1 }

def of (kinds : List PartKind) : Layout :=
  kinds.foldl next {}

/-- How many types the struct is the intersection of. -/
def size (l : Layout) : Nat :=
  l.inherited + (if l.own = 0 then 0 else 1) + l.merged

/-- The way to a member of the intersection, which is not there if
it has only one. -/
def member (whole : Layout) (i : Nat) : List Turn :=
  if whole.size = 1 then [] else [.member i]

/-- The way to the part that comes after those of the layout `before`. -/
def turns (whole before : Layout) : PartKind → List Turn
  | .own => whole.member whole.inherited ++ [.property before.own]
  | .mapped => whole.member before.inherited
  | .spread =>
    if before.own = 0 then whole.member before.inherited
    else whole.member (whole.inherited + 1 + before.merged)

end Layout

namespace Part

variable {xs ys : List Part}

theorem properties_append :
    properties (xs ++ ys) = properties xs ++ properties ys :=
  List.filterMap_append ..

theorem inherited_cons_own {key : String} {optional : Bool} {docs : List String}
    {v : Compiled} :
    inherited (own key optional docs v :: xs) = xs.filterMap mappedType? :=
  rfl

theorem merged_cons_own {key : String} {optional : Bool} {docs : List String}
    {v : Compiled} :
    merged (own key optional docs v :: xs) = xs.filterMap spreadType? :=
  rfl

theorem inherited_cons {p : Part} {t : TypeExpr}
    (h : p.inheritedType? = some t) :
    inherited (p :: xs) = t :: inherited xs := by
  cases p <;> cases h <;>
    simp [inherited, front, back, isOwn, inheritedType?, mappedType?,
      spreadType?]

theorem merged_cons {p : Part} {t : TypeExpr} (h : p.inheritedType? = some t) :
    merged (p :: xs) = merged xs := by
  cases p <;> cases h <;> simp [merged, back, isOwn]

/-- Behind a fixed key only dynamic fields are inherited. -/
theorem inherited_append : inherited (xs ++ ys) =
    inherited xs ++ if properties xs = [] then inherited ys
      else ys.filterMap mappedType? := by
  induction xs with
  | nil => rfl
  | cons p rest ih =>
      cases p with
      | own key optional docs v =>
          simp [inherited_cons_own, properties, property?]
      | mapped keys imports v =>
          rw [List.cons_append, inherited_cons rfl, inherited_cons rfl, ih]
          rfl
      | spread v =>
          rw [List.cons_append, inherited_cons rfl, inherited_cons rfl, ih]
          rfl

/-- Behind a fixed key every spread is merged in. -/
theorem merged_append : merged (xs ++ ys) =
    merged xs ++ if properties xs = [] then merged ys
      else ys.filterMap spreadType? := by
  induction xs with
  | nil => rfl
  | cons p rest ih =>
      cases p with
      | own key optional docs v =>
          simp [merged_cons_own, properties, property?]
      | mapped keys imports v =>
          rw [List.cons_append, merged_cons rfl, merged_cons rfl, ih]
          rfl
      | spread v =>
          rw [List.cons_append, merged_cons rfl, merged_cons rfl, ih]
          rfl

def layout (parts : List Part) : Layout :=
  .of (parts.map (·.kind))

theorem layout_concat (p : Part) :
    layout (xs ++ [p]) = (layout xs).next p.kind := by
  simp [layout, Layout.of]

/-- The layout counts the three lists. -/
theorem layout_eq (parts : List Part) : layout parts =
    ⟨(inherited parts).length, (properties parts).length,
      (merged parts).length⟩ := by
  induction parts using List.reverseRecOn with
  | nil => rfl
  | append_singleton xs p ih =>
      rw [layout_concat, ih, inherited_append, merged_append, properties_append]
      simp only [List.length_append]
      by_cases hnone : properties xs = []
      · rw [if_pos hnone, if_pos hnone]
        cases p with
        | spread v =>
            rw [kind, Layout.next, if_pos (List.length_eq_zero_iff.mpr hnone)]
            rfl
        | _ => rfl
      · rw [if_neg hnone, if_neg hnone]
        cases p with
        | spread v =>
            rw [kind, Layout.next, if_neg (mt List.length_eq_zero_iff.mp hnone)]
            rfl
        | _ => rfl

end Part

section Ways

variable {parts before after : List Part} {ps : List Property}

theorem at?_allOf {ts : List TypeExpr} {t : TypeExpr} {i : Nat}
    (h : ts[i]? = some t) :
    (TypeExpr.allOf ts).at? (if ts.length = 1 then [] else [.member i]) =
      some t := by
  match ts with
  | [] => cases h
  | [u] =>
      cases i with
      | zero => exact h
      | succ i => cases h
  | u :: v :: rest =>
      have hturn : (TypeExpr.intersection (u :: v :: rest)).part? (.member i) =
          some t := h
      rw [if_neg (by simp)]
      exact (TypeExpr.at?_cons hturn).trans (TypeExpr.at?_nil t)

/-- A type that the struct is put together from stands where the layout says. -/
theorem at?_composeParts {t : TypeExpr} {i : Nat}
    (hps : ps.length = (Part.properties parts).length)
    (h : (Part.inherited parts ++
      (if ps.isEmpty then [] else [TypeExpr.object ps]) ++
      Part.merged parts)[i]? = some t) :
    (composeParts parts ps).at? ((Part.layout parts).member i) = some t := by
  have hsize : (Part.layout parts).size = (Part.inherited parts ++
      (if ps.isEmpty then [] else [TypeExpr.object ps]) ++
      Part.merged parts).length := by
    rw [Part.layout_eq, Layout.size, ← hps, List.length_append,
      List.length_append]
    cases ps <;> rfl
  rw [composeParts, Layout.member, hsize]
  split
  · rename_i hnil
    rw [hnil] at h
    cases h
  · exact at?_allOf h

theorem at?_composeParts_own {q : Property}
    (hps : ps.length = (Part.properties (before ++ after)).length)
    (h : ps[(Part.properties before).length]? = some q) :
    (composeParts (before ++ after) ps).at?
      ((Part.layout (before ++ after)).turns (Part.layout before) .own) =
        some q.type := by
  have hne : ps.isEmpty = false := by
    cases ps with
    | nil => cases h
    | cons p rest => rfl
  have hobject : (composeParts (before ++ after) ps).at?
      ((Part.layout (before ++ after)).member
          (Part.layout (before ++ after)).inherited) =
        some (.object ps) := by
    refine at?_composeParts hps ?_
    simp [hne, Part.layout_eq]
  have hturn : (TypeExpr.object ps).part? (.property (Part.layout before).own) =
      some q.type := by
    rw [Part.layout_eq, TypeExpr.part?, h, Option.map_some]
  rw [Layout.turns, TypeExpr.at?_append hobject, TypeExpr.at?_cons hturn,
    TypeExpr.at?_nil]

/-- What is inherited stands in order in front of the fixed keys. -/
theorem at?_composeParts_inherited {t : TypeExpr} {types : List TypeExpr}
    (hps : ps.length = (Part.properties (before ++ after)).length)
    (h : (if Part.properties before = [] then Part.inherited after
      else after.filterMap Part.mappedType?) = t :: types) :
    (composeParts (before ++ after) ps).at?
      ((Part.layout (before ++ after)).member (Part.layout before).inherited) =
        some t := by
  refine at?_composeParts hps ?_
  rw [Part.inherited_append, h, Part.layout_eq]
  simp

theorem at?_composeParts_mapped {keys : TypeExpr}
    {imports : Option ImportPaths} {v : Compiled}
    (hps : ps.length =
      (Part.properties (before ++ .mapped keys imports v :: after)).length) :
    (composeParts (before ++ .mapped keys imports v :: after) ps).at?
      ((Part.layout (before ++ .mapped keys imports v :: after)).turns
          (Part.layout before) .mapped) =
        some (.mapped "Key" keys v.expr true none) := by
  by_cases hnone : Part.properties before = []
  · exact at?_composeParts_inherited hps
      ((if_pos hnone).trans (Part.inherited_cons rfl))
  · exact at?_composeParts_inherited hps
      ((if_neg hnone).trans (List.filterMap_cons_some rfl))

/-- A spread is inherited before the first fixed key, and merged in after it. -/
theorem at?_composeParts_spread {v : Compiled}
    (hps : ps.length =
      (Part.properties (before ++ .spread v :: after)).length) :
    (composeParts (before ++ .spread v :: after) ps).at?
      ((Part.layout (before ++ .spread v :: after)).turns
          (Part.layout before) .spread) =
        some v.expr := by
  have hown : (Part.layout before).own = (Part.properties before).length := by
    rw [Part.layout_eq]
  rw [Layout.turns, hown]
  by_cases hnone : Part.properties before = []
  · rw [if_pos (List.length_eq_zero_iff.mpr hnone)]
    exact at?_composeParts_inherited hps
      ((if_pos hnone).trans (Part.inherited_cons rfl))
  · rw [if_neg (mt List.length_eq_zero_iff.mp hnone)]
    have hne : ps.isEmpty = false := by
      have hpos := List.length_pos_iff.mpr hnone
      rw [Part.properties_append, List.length_append] at hps
      cases ps with
      | nil =>
          rw [List.length_nil] at hps
          omega
      | cons q rest => rfl
    refine at?_composeParts hps ?_
    rw [Part.merged_append, if_neg hnone, Part.layout_eq, Part.layout_eq before,
      hne, List.getElem?_append_right (by simp)]
    simp [Part.spreadType?]

end Ways

section Selection

variable {name : String} {values : TypeExpr} {before behind ps : List Property}
  {p : Property}

/-- The last property of the name is selected. -/
theorem selectProperty_append (hname : p.name = name)
    (hbehind : ∀ q ∈ behind, q.name ≠ name) :
    selectProperty name (before ++ p :: behind) =
      some (p.type, before ++ p.withType discriminator :: behind) := by
  induction before with
  | nil =>
      have hnone := selectProperty_eq_none_iff.mpr hbehind
      rw [List.nil_append, selectProperty, hnone]
      exact if_pos (by simpa using hname)
  | cons q rest ih =>
      rw [List.cons_append, selectProperty, ih, List.cons_append]

/-- Every other property stays in its place. -/
theorem getElem?_selectProperty
    (h : selectProperty name (before ++ p :: behind) = some (values, ps))
    (hother : p.name = name → ∃ q ∈ behind, q.name = name) :
    ps[before.length]? = some p := by
  induction before generalizing ps with
  | nil =>
      rw [List.nil_append, selectProperty] at h
      split at h
      · cases h
        rfl
      · rename_i hnone
        split at h
        · rename_i hname
          obtain ⟨q, hq, hqname⟩ := hother (by simpa using hname)
          exact absurd hqname (selectProperty_eq_none_iff.mp hnone q hq)
        · cases h
  | cons q rest ih =>
      rw [List.cons_append, selectProperty] at h
      split at h
      · rename_i hrest
        cases h
        exact ih hrest
      · split at h
        · cases h
          simp
        · cases h

theorem length_selectProperty {all : List Property}
    (h : selectProperty name all = some (values, ps)) :
    ps.length = all.length := by
  obtain ⟨before, q, behind, rfl, -, -, rfl, -⟩ := selectProperty_eq_some h
  simp

end Selection

end Typings
