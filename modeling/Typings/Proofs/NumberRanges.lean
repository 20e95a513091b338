import Typings.Proofs.WholeRanges

/-!
Ranges of any numbers as type arguments. The object of a range has flags
beside its bounds, which say whether a bound is left out. It admits every
number of the range, and exactly those while both bounds are whole and few
whole numbers lie between them. Of every other range one bound is kept,
weakened to zero or one away from it; what the flag has to say then depends on
whether the bound was moved.
-/

namespace Typings

/-- A bound of an object with the flag beside it. -/
structure FlaggedBound where
  bound : Int
  omits : Bool
  deriving DecidableEq

/-- What an object keeps of a range. -/
structure KeptBounds where
  low : Option FlaggedBound := none
  high : Option FlaggedBound := none
  deriving DecidableEq

/-- The truth value that a literal stands for. -/
def TypeExpr.truthValue? : TypeExpr → Option Bool
  | .truth b => some b
  | _ => none

/-- The properties of an object that are truth values. -/
def TypeExpr.truthEntries : TypeExpr → List (String × Bool)
  | .object ps =>
      ps.filterMap fun p => p.type.truthValue?.map fun b => (p.name, b)
  | _ => []

/-- What an object says of numbers. A bound without a flag is included. -/
def TypeExpr.bounds (t : TypeExpr) : Bounds where
  low := t.numberEntries.lookup "min"
  high := t.numberEntries.lookup "max"
  omitsLow := (t.truthEntries.lookup "leftExclusive").getD false
  omitsHigh := (t.truthEntries.lookup "rightExclusive").getD false

def flagProperty (name : String) (omits : Bool) : Property :=
  .plain name (.truth omits)

namespace KeptBounds

/-- The properties of the object: first the flags, then the bounds. -/
def properties (k : KeptBounds) : List Property :=
  k.low.toList.map (flagProperty "leftExclusive" ·.omits) ++
    k.high.toList.map (flagProperty "rightExclusive" ·.omits) ++
    (k.low.toList.map (boundProperty "min" ·.bound) ++
      k.high.toList.map (boundProperty "max" ·.bound))

def object (k : KeptBounds) : TypeExpr :=
  .object k.properties

/-- What the object says of numbers. -/
def bounds (k : KeptBounds) : Bounds where
  low := k.low.map (·.bound)
  high := k.high.map (·.bound)
  omitsLow := k.low.any (·.omits)
  omitsHigh := k.high.any (·.omits)

theorem bounds_object (k : KeptBounds) : k.object.bounds = k.bounds := by
  obtain ⟨_ | low, _ | high⟩ := k <;> rfl

end KeptBounds

namespace Bounds

/-- A lower bound that is not negative, weakened to zero or one. A bound that
was moved is left out: the range begins behind it. -/
def weakLow (a : Rat) (omits : Bool) : FlaggedBound :=
  let bound : Int := if 1 ≤ a then 1 else 0
  { bound, omits := if a = bound then omits else true }

/-- An upper bound that is not positive, weakened to zero or minus one. -/
def weakHigh (c : Rat) (omits : Bool) : FlaggedBound :=
  let bound : Int := if c ≤ -1 then -1 else 0
  { bound, omits := if c = bound then omits else true }

/-- The one bound that is kept of many numbers: a lower one that is not
negative, or else an upper one that is not positive. -/
def weakened (b : Bounds) : KeptBounds where
  low := (b.low.filter (0 ≤ ·)).map (weakLow · b.omitsLow)
  high := if b.low.any (0 ≤ ·) then none else (b.high.filter (· ≤ 0)).map
    (weakHigh · b.omitsHigh)

variable {b : Bounds} {a c x : Rat} {omits : Bool}

theorem weakLow_cases (a : Rat) (omits : Bool) :
    (weakLow a omits).bound = 0 ∨ (weakLow a omits).bound = 1 := by
  rw [weakLow]
  split <;> simp

theorem weakHigh_cases (c : Rat) (omits : Bool) :
    (weakHigh c omits).bound = 0 ∨ (weakHigh c omits).bound = -1 := by
  rw [weakHigh]
  split <;> simp

theorem weakLow_bound_le (ha : 0 ≤ a) :
    ((weakLow a omits).bound : Rat) ≤ a := by
  rw [weakLow]
  split
  · rwa [Int.cast_one]
  · rwa [Int.cast_zero]

theorem le_weakHigh_bound (hc : c ≤ 0) :
    c ≤ ((weakHigh c omits).bound : Rat) := by
  rw [weakHigh]
  split
  · rwa [Int.cast_neg, Int.cast_one]
  · rwa [Int.cast_zero]

/-- Weakening a lower bound excludes no number above it. -/
theorem weakLow_admits (ha : 0 ≤ a) (hx : if omits then a < x else a ≤ x) :
    if (weakLow a omits).omits then ((weakLow a omits).bound : Rat) < x
    else (weakLow a omits).bound ≤ x := by
  have hle : ((weakLow a omits).bound : Rat) ≤ a := weakLow_bound_le ha
  have hflag : (weakLow a omits).omits =
      if a = (weakLow a omits).bound then omits else true := rfl
  by_cases hsame : a = (weakLow a omits).bound
  -- The bound stays where it is, and so does its flag.
  · rw [hflag, if_pos hsame, ← hsame]
    exact hx
  · have hbehind : a ≤ x := by
      split at hx
      · exact hx.le
      · exact hx
    rw [hflag, if_neg hsame, if_pos rfl]
    exact lt_of_lt_of_le (lt_of_le_of_ne hle (Ne.symm hsame)) hbehind

/-- Weakening an upper bound excludes no number below it. -/
theorem weakHigh_admits (hc : c ≤ 0) (hx : if omits then x < c else x ≤ c) :
    if (weakHigh c omits).omits then x < ((weakHigh c omits).bound : Rat)
    else x ≤ (weakHigh c omits).bound := by
  have hle : c ≤ ((weakHigh c omits).bound : Rat) := le_weakHigh_bound hc
  have hflag : (weakHigh c omits).omits =
      if c = (weakHigh c omits).bound then omits else true := rfl
  by_cases hsame : c = (weakHigh c omits).bound
  · rw [hflag, if_pos hsame, ← hsame]
    exact hx
  · have hbefore : x ≤ c := by
      split at hx
      · exact hx.le
      · exact hx
    rw [hflag, if_neg hsame, if_pos rfl]
    exact lt_of_le_of_lt hbefore (lt_of_le_of_ne hle hsame)

theorem any_eq_false_of_not_exists {v : Option Rat} {p : Rat → Prop}
    [DecidablePred p] (h : ¬ ∃ q ∈ v, p q) :
    v.any (fun q => decide (p q)) = false := by
  simpa [Option.any_eq_false] using h

theorem filter_eq_none_of_not_exists {v : Option Rat} {p : Rat → Prop}
    [DecidablePred p] (h : ¬ ∃ q ∈ v, p q) :
    v.filter (fun q => decide (p q)) = none := by
  simpa [Option.filter_eq_none_iff] using h

/-- A lower bound that is not negative comes first, then an upper bound that
is not positive. -/
theorem weakened_spec (b : Bounds) :
    (∃ a ∈ b.low, 0 ≤ a ∧ b.weakened = { low := some (weakLow a b.omitsLow) }) ∨
      b.low.any (0 ≤ ·) = false ∧
        ((∃ c ∈ b.high, c ≤ 0 ∧
            b.weakened = { high := some (weakHigh c b.omitsHigh) }) ∨
          b.high.any (· ≤ 0) = false ∧ b.weakened = {}) := by
  obtain ⟨low, high, omitsLow, omitsHigh⟩ := b
  by_cases hl : ∃ a ∈ low, 0 ≤ a
  · obtain ⟨a, rfl, ha⟩ := hl
    exact Or.inl ⟨a, rfl, ha, by simp [weakened, ha]⟩
  · have hneg := any_eq_false_of_not_exists hl
    have hnone := filter_eq_none_of_not_exists hl
    refine Or.inr ⟨hneg, ?_⟩
    by_cases hh : ∃ c ∈ high, c ≤ 0
    · obtain ⟨c, rfl, hc⟩ := hh
      exact Or.inl ⟨c, rfl, hc, by simp [weakened, hneg, hnone, hc]⟩
    · refine Or.inr ⟨any_eq_false_of_not_exists hh, ?_⟩
      simp [weakened, hneg, hnone, filter_eq_none_of_not_exists hh]

/-- One weakened bound admits every number of the range. -/
theorem Contains.weakened (hx : b.Contains x) :
    b.weakened.bounds.Contains x := by
  rcases b.weakened_spec with ⟨a, ha, hnonneg, hkept⟩ |
    ⟨-, ⟨c, hc, hnonpos, hkept⟩ | ⟨-, hkept⟩⟩
  · rw [hkept]
    refine ⟨?_, by rintro _ ⟨⟩⟩
    rintro _ ⟨⟩
    exact weakLow_admits hnonneg (hx.low a ha)
  · rw [hkept]
    refine ⟨by rintro _ ⟨⟩, ?_⟩
    rintro _ ⟨⟩
    exact weakHigh_admits hnonpos (hx.high c hc)
  · rw [hkept]
    exact ⟨by rintro _ ⟨⟩, by rintro _ ⟨⟩⟩

end Bounds

theorem Number.same_int_iff {n : Number} {q : Rat} (hn : n.toRat? = some q)
    (k : Int) :
    n.same (.int k) = true ↔ q = k := by
  have hk : position? (.int k) = some (0, (k : Rat)) := position?_eq rfl
  rw [same, position?_eq hn, hk]
  simp

namespace Range

variable {r : Range} {b : Bounds}

def keptEntries (k : KeptBounds) : List (String × Json) :=
  k.low.toList.map (("leftExclusive", .bool ·.omits)) ++
    k.high.toList.map (("rightExclusive", .bool ·.omits)) ++
    (k.low.toList.map (("min", .int ·.bound)) ++
      k.high.toList.map (("max", .int ·.bound)))

theorem boundedEntries_of_isSpelledOut (hr : r.Means b)
    (hspelled : isSpelledOut r.low r.high = .ok true) :
    r.boundedEntries = .ok [("leftExclusive", .bool b.omitsLow),
      ("rightExclusive", .bool b.omitsHigh),
      ("min", r.low), ("max", r.high)] := by
  rw [boundedEntries, hspelled, hr.omitsLow, hr.omitsHigh]
  rfl

theorem exists_asNumber {bound : Json} {q : Rat}
    (hbound : bound.Measures (some q)) :
    ∃ n : Number, bound.asNumber = .ok n ∧ n.toRat? = some q := by
  generalize hv : some q = v at hbound
  cases hbound with
  | nothing => cases hv
  | @number n q' hq => exact ⟨n, asNumber_ofNumber n, hv ▸ hq⟩

section Weakening

variable {n : Number} {q : Rat} (hn : n.toRat? = some q)

include hn

theorem lowBound_eq (omits : Bool) : (if (Number.int 1).le n then 1 else 0) =
    (Bounds.weakLow q omits).bound := by
  have hone : (Number.int 1).le n = true ↔ 1 ≤ q := by
    rw [Number.le_iff rfl hn, Int.cast_one]
  simp only [hone]
  rfl

theorem highBound_eq (omits : Bool) :
    (if n.le (.int (-1)) then -1 else 0) = (Bounds.weakHigh q omits).bound := by
  have hone : n.le (.int (-1)) = true ↔ q ≤ -1 := by
    rw [Number.le_iff hn rfl, Int.cast_neg, Int.cast_one]
  simp only [hone]
  rfl

/-- A bound is compared with what it is weakened to, in order
to find its flag. -/
theorem lowFlag_eq (omits : Bool) (hq : 0 ≤ q) :
    (if n.same (.int (Bounds.weakLow q omits).bound) then omits
      else (Number.int (Bounds.weakLow q omits).bound).lt n) =
        (Bounds.weakLow q omits).omits := by
  have hflag : (Bounds.weakLow q omits).omits =
      if q = (Bounds.weakLow q omits).bound then omits else true := rfl
  rw [hflag]
  simp only [Number.same_int_iff hn]
  split
  · rfl
  · rename_i hne
    rw [Number.lt_iff rfl hn]
    exact lt_of_le_of_ne (Bounds.weakLow_bound_le hq) (Ne.symm hne)

theorem highFlag_eq (omits : Bool) (hq : q ≤ 0) :
    (if n.same (.int (Bounds.weakHigh q omits).bound) then omits
      else n.lt (.int (Bounds.weakHigh q omits).bound)) =
        (Bounds.weakHigh q omits).omits := by
  have hflag : (Bounds.weakHigh q omits).omits =
      if q = (Bounds.weakHigh q omits).bound then omits else true := rfl
  rw [hflag]
  simp only [Number.same_int_iff hn]
  split
  · rfl
  · rename_i hne
    rw [Number.lt_iff hn rfl]
    exact lt_of_le_of_ne (Bounds.le_weakHigh_bound hq) hne

end Weakening

/-- Where the flag of one bound is found by a test, the entries differ
in the flag only. -/
theorem ite_flag_eq (p : Prop) [Decidable p] (flag name : String) (x y : Bool)
    (k : Int) :
    (if p then Except.ok [(flag, Json.bool x), (name, .int k)] else .ok
      [(flag, .bool y), (name, .int k)] :
      Except Misuse (List (String × Json))) =
      .ok [(flag, .bool (if p then x else y)), (name, .int k)] := by
  split <;> rfl

theorem boundedEntries_of_not_isSpelledOut (hr : r.Means b)
    (hspelled : isSpelledOut r.low r.high = .ok false) :
    r.boundedEntries = .ok (keptEntries b.weakened) := by
  have hleast := atLeast_eq hr.low 0
  have hmost := atMost_eq hr.high 0
  rw [Int.cast_zero] at hleast hmost
  rw [boundedEntries, hspelled, hleast, hmost]
  rcases b.weakened_spec with ⟨q, hq, hnonneg, hkept⟩ |
    ⟨hneg, ⟨q, hq, hnonpos, hkept⟩ | ⟨hpos, hkept⟩⟩
  · obtain ⟨n, hnumber, hn⟩ := exists_asNumber (hq ▸ hr.low)
    rw [hkept, hnumber, hr.omitsLow,
      (Option.any_eq_true _ _).mpr ⟨q, hq, decide_eq_true hnonneg⟩]
    refine (ite_flag_eq _ _ _ _ _ _).trans ?_
    rw [lowBound_eq hn b.omitsLow, lowFlag_eq hn b.omitsLow hnonneg]
    rfl
  · obtain ⟨n, hnumber, hn⟩ := exists_asNumber (hq ▸ hr.high)
    rw [hkept, hnumber, hr.omitsHigh, hneg,
      (Option.any_eq_true _ _).mpr ⟨q, hq, decide_eq_true hnonpos⟩]
    refine (ite_flag_eq _ _ _ _ _ _).trans ?_
    rw [highBound_eq hn b.omitsHigh, highFlag_eq hn b.omitsHigh hnonpos]
    rfl
  · rw [hkept, hneg, hpos]
    rfl

/-- The object is made entry by entry. -/
theorem objectOf_eq_ok {entries : List (String × Json)} {ps : List Property}
    (h : List.Forall₂ (fun e p => ∃ t, entryType e.2 = .ok t ∧ p = .plain e.1 t)
      entries ps) :
    objectOf entries = .ok (.object ps) := by
  rw [objectOf, bind_eq_ok_iff]
  refine ⟨ps, mapM_eq_ok_iff.mpr (h.imp ?_), rfl⟩
  rintro e _ ⟨t, ht, rfl⟩
  rw [ht]
  rfl

theorem objectOf_keptEntries {k : KeptBounds}
    (hlow : ∀ f ∈ k.low, entryType (.int f.bound) =
      .ok (.number (.int f.bound)))
    (hhigh : ∀ f ∈ k.high, entryType (.int f.bound) =
      .ok (.number (.int f.bound))) :
    objectOf (keptEntries k) = .ok k.object := by
  apply objectOf_eq_ok
  refine List.rel_append (List.rel_append ?_ ?_) (List.rel_append ?_ ?_)
  · rw [List.forall₂_map_left_iff, List.forall₂_map_right_iff,
      List.forall₂_same]
    exact fun f _ => ⟨.truth f.omits, rfl, rfl⟩
  · rw [List.forall₂_map_left_iff, List.forall₂_map_right_iff,
      List.forall₂_same]
    exact fun f _ => ⟨.truth f.omits, rfl, rfl⟩
  · rw [List.forall₂_map_left_iff, List.forall₂_map_right_iff,
      List.forall₂_same]
    exact fun f hf => ⟨.number (.int f.bound),
      hlow f (Option.mem_toList.mp hf), rfl⟩
  · rw [List.forall₂_map_left_iff, List.forall₂_map_right_iff,
      List.forall₂_same]
    exact fun f hf => ⟨.number (.int f.bound),
      hhigh f (Option.mem_toList.mp hf), rfl⟩

theorem entryType_unit {k : Int} (hk : k = 0 ∨ k = 1 ∨ k = -1) :
    entryType (.int k) = .ok (.number (.int k)) := by
  have hfits : ∀ k ∈ [(0 : Int), 1, -1], (Binary64.ofInt? k).isSome = true := by
    decide +kernel
  exact entryType_int (hfits k (by simpa using hk))

theorem objectOf_weakened (b : Bounds) :
    objectOf (keptEntries b.weakened) = .ok b.weakened.object := by
  rcases b.weakened_spec with ⟨a, -, -, hkept⟩ |
    ⟨-, ⟨c, -, -, hkept⟩ | ⟨-, hkept⟩⟩
  · rw [hkept]
    refine objectOf_keptEntries ?_ (by rintro _ ⟨⟩)
    rintro _ ⟨⟩
    exact entryType_unit ((Bounds.weakLow_cases a _).imp_right Or.inl)
  · rw [hkept]
    refine objectOf_keptEntries (by rintro _ ⟨⟩) ?_
    rintro _ ⟨⟩
    exact entryType_unit ((Bounds.weakHigh_cases c _).imp_right Or.inr)
  · rw [hkept]
    rfl

/-- What is kept of a range: both bounds, if there are few numbers, or else one
bound, weakened. -/
def IsKept (b : Bounds) (k : KeptBounds) : Prop :=
  (∃ a c : Int, b.low = some (a : Rat) ∧ b.high = some (c : Rat) ∧
      IsFew b.low b.high ∧
      k = { low := some ⟨a, b.omitsLow⟩, high := some ⟨c, b.omitsHigh⟩ }) ∨
    ¬ IsFew b.low b.high ∧ k = b.weakened

theorem boundedObject_eq_ok (hr : r.Means b) {spelled : Bool}
    (hspelled : isSpelledOut r.low r.high = .ok spelled) :
    ∃ k, (r.boundedEntries >>= objectOf) = .ok k.object ∧ IsKept b k := by
  have hfew := isSpelledOut_iff hr.low hr.high hspelled
  cases spelled with
  | true =>
      obtain ⟨hwholeLow, hwholeHigh⟩ := isWholeBound_of_isSpelledOut hspelled
      obtain ⟨a, ha⟩ := (isWholeBound_iff hr.low hwholeLow).mp rfl
      obtain ⟨c, hc⟩ := (isWholeBound_iff hr.high hwholeHigh).mp rfl
      refine ⟨_, ?_, Or.inl ⟨a, c, ha, hc, hfew.mp rfl, rfl⟩⟩
      refine bind_eq_ok_iff.mpr ⟨_, boundedEntries_of_isSpelledOut hr hspelled,
        objectOf_eq_ok ?_⟩
      exact .cons ⟨_, rfl, rfl⟩ (.cons ⟨_, rfl, rfl⟩
        (.cons ⟨_, entryType_eq (ha ▸ hr.low) hwholeLow, rfl⟩
          (.cons ⟨_, entryType_eq (hc ▸ hr.high) hwholeHigh, rfl⟩ .nil)))
  | false =>
      refine ⟨b.weakened, ?_,
        Or.inr ⟨fun h => absurd (hfew.mpr h) (by decide), rfl⟩⟩
      exact bind_eq_ok_iff.mpr ⟨_,
        boundedEntries_of_not_isSpelledOut hr hspelled, objectOf_weakened b⟩

theorem exists_openEndDocs (hr : r.Means b) :
    ∃ docs, r.openEndDocs = .ok docs := by
  rw [openEndDocs, hr.omitsLow, hr.omitsHigh]
  cases r.low.isNull <;> cases r.high.isNull <;> cases b.omitsLow <;>
    cases b.omitsHigh <;> exact ⟨_, rfl⟩

/-- The heading has no part in the object. -/
theorem boundsArgument_eq (r : Range) (heading : String) :
    r.boundsArgument heading = do
    let shown ← r.text
    let docs ← r.openEndDocs
    let type ← r.boundedEntries >>= objectOf
    return (type, (heading ++ ": " ++ shown) :: docs) := by
  simp only [bind_assoc]
  rfl

theorem map_fst_boundsArgument (r : Range) (heading heading' : String) :
    (r.boundsArgument heading).map Prod.fst =
      (r.boundsArgument heading').map Prod.fst := by
  rw [boundsArgument_eq, boundsArgument_eq]
  cases r.text with
  | error fault => rfl
  | ok shown =>
      cases r.openEndDocs with
      | error fault => rfl
      | ok docs => cases r.boundedEntries >>= objectOf <;> rfl

/-- Nothing but the object can fail. -/
theorem boundsArgument_eq_ok_iff (hr : r.Means b) {heading : String}
    {t : TypeExpr} :
    (∃ docs, r.boundsArgument heading = .ok (t, docs)) ↔
      (r.boundedEntries >>= objectOf) = .ok t := by
  obtain ⟨shown, hshown⟩ := exists_text hr
  obtain ⟨docs, hdocs⟩ := exists_openEndDocs hr
  rw [boundsArgument_eq, hshown, hdocs]
  cases r.boundedEntries >>= objectOf with
  | error fault => exact iff_of_false (by rintro ⟨_, ⟨⟩⟩) (by rintro ⟨⟩)
  | ok t' =>
      constructor
      · rintro ⟨_, hpair⟩
        cases hpair
        rfl
      · rintro ⟨⟩
        exact ⟨_, rfl⟩

/-- Of two bounds the lower one is taken for a binary64 number, and the upper
one if the lower one is whole. -/
theorem exists_isSpelledOut_iff {low high : Json} {l h : Option Rat}
    (hlow : low.Measures l) (hhigh : high.Measures h) :
    (∃ spelled, isSpelledOut low high = .ok spelled) ↔
      ∀ a ∈ l, h.isSome = true → low.IsConvertible ∧
        ((∃ i : Int, a = i) → high.IsConvertible) := by
  rw [isSpelledOut, isNull_of_measures hlow, isNull_of_measures hhigh]
  cases l with
  | none => exact iff_of_true ⟨false, rfl⟩ (by rintro _ ⟨⟩)
  | some a =>
      cases h with
      | none => exact iff_of_true ⟨false, rfl⟩ (by rintro _ _ ⟨⟩)
      | some c =>
          constructor
          · rintro ⟨spelled, hsmall⟩ _ ⟨⟩ -
            rcases isSmall_cases hsmall with ⟨hbl, -⟩ | ⟨hbl, hrest⟩
            · refine ⟨isConvertible_of_isWholeBound hbl, ?_⟩
              rintro ⟨i, rfl⟩
              exact absurd ((isWholeBound_iff hlow hbl).mpr ⟨i, rfl⟩)
                (by decide)
            · refine ⟨isConvertible_of_isWholeBound hbl, fun _ => ?_⟩
              rcases hrest with ⟨hbh, -⟩ | ⟨hbh, -⟩
              · exact isConvertible_of_isWholeBound hbh
              · exact isConvertible_of_isWholeBound hbh
          · intro hfits
            obtain ⟨hlowFits, hhighFits⟩ := hfits a rfl rfl
            obtain ⟨whole, hwhole⟩ := exists_isWholeBound hlow hlowFits
            cases whole with
            | false => exact ⟨false, isSmall_of_fraction hwhole⟩
            | true =>
                obtain ⟨i, hi⟩ := (isWholeBound_iff hlow hwhole).mp rfl
                exact exists_isSmall hlow hhigh hlowFits
                  (hhighFits ⟨i, Option.some.inj hi⟩)

theorem isSpelledOut_of_boundedEntries {entries : List (String × Json)}
    (h : r.boundedEntries = .ok entries) :
    ∃ spelled, isSpelledOut r.low r.high = .ok spelled := by
  obtain ⟨spelled, hspelled, -⟩ := bind_eq_ok_iff.mp h
  exact ⟨spelled, hspelled⟩

/-- The object of a range is one of what is kept of it. -/
theorem exists_isKept_of_boundsArgument (hr : r.Means b)
    {heading : String} {t : TypeExpr} {docs : List String}
    (h : r.boundsArgument heading = .ok (t, docs)) :
    ∃ k, t = k.object ∧ IsKept b k := by
  have ht := (boundsArgument_eq_ok_iff hr).mp ⟨docs, h⟩
  obtain ⟨entries, hentries, -⟩ := bind_eq_ok_iff.mp ht
  obtain ⟨spelled, hspelled⟩ := isSpelledOut_of_boundedEntries hentries
  obtain ⟨k, hk, hkept⟩ := boundedObject_eq_ok hr hspelled
  exact ⟨k, Except.ok.inj (ht.symm.trans hk), hkept⟩

theorem exists_boundsArgument_iff (hr : r.Means b) {heading : String} :
    (∃ t docs, r.boundsArgument heading = .ok (t, docs)) ↔
      ∃ spelled, isSpelledOut r.low r.high = .ok spelled := by
  simp only [boundsArgument_eq_ok_iff hr]
  constructor
  · rintro ⟨t, ht⟩
    obtain ⟨entries, hentries, -⟩ := bind_eq_ok_iff.mp ht
    exact isSpelledOut_of_boundedEntries hentries
  · rintro ⟨spelled, hspelled⟩
    obtain ⟨k, hk, -⟩ := boundedObject_eq_ok hr hspelled
    exact ⟨k.object, hk⟩

/-- The kept bounds admit every number of the range. -/
theorem IsKept.contains {k : KeptBounds} (hk : IsKept b k) {x : Rat}
    (hx : b.Contains x) : k.bounds.Contains x := by
  rcases hk with ⟨a, c, ha, hc, -, rfl⟩ | ⟨-, rfl⟩
  · exact ⟨fun q hq => hx.low q (ha ▸ hq), fun q hq => hx.high q (hc ▸ hq)⟩
  · exact hx.weakened

/-- Both bounds that are kept of few numbers say what the range says. -/
theorem bounds_eq_of_few {a c : Int} (ha : b.low = some (a : Rat))
    (hc : b.high = some (c : Rat)) :
    KeptBounds.bounds
      { low := some ⟨a, b.omitsLow⟩, high := some ⟨c, b.omitsHigh⟩ } = b := by
  obtain ⟨low, high, omitsLow, omitsHigh⟩ := b
  obtain rfl : low = some (a : Rat) := ha
  obtain rfl : high = some (c : Rat) := hc
  rfl

theorem isFew_iff_exists {l h : Option Rat} :
    IsFew l h ↔ ∃ a c : Int, l = some (a : Rat) ∧ h = some (c : Rat) ∧
      c - a + 1 ≤ 100 := by
  constructor
  · rintro ⟨a, c, rfl, rfl, hcard⟩
    exact ⟨a, c, rfl, rfl, isFew_intCast_iff.mp ⟨a, c, rfl, rfl, hcard⟩⟩
  · rintro ⟨a, c, rfl, rfl, hsize⟩
    exact isFew_intCast_iff.mpr hsize

/-- The one object that is kept of many numbers. -/
theorem weakened_object_cases (b : Bounds) :
    b.weakened.object = .object [] ∧ (∀ a ∈ b.low, a < 0) ∧
      (∀ c ∈ b.high, 0 < c) ∨ ∃ omits,
      (∃ k ∈ [(0 : Int), 1], b.weakened.object =
        .object [flagProperty "leftExclusive" omits, boundProperty "min" k]) ∨
      ∃ k ∈ [(0 : Int), -1], b.weakened.object =
        .object [flagProperty "rightExclusive" omits,
          boundProperty "max" k] := by
  rcases b.weakened_spec with ⟨a, -, -, hkept⟩ |
    ⟨hlow, ⟨c, -, -, hkept⟩ | ⟨hhigh, hkept⟩⟩
  · refine Or.inr ⟨_, Or.inl ⟨_, ?_, by rw [hkept]; rfl⟩⟩
    simpa using Bounds.weakLow_cases a b.omitsLow
  · refine Or.inr ⟨_, Or.inr ⟨_, ?_, by rw [hkept]; rfl⟩⟩
    simpa using Bounds.weakHigh_cases c b.omitsHigh
  · refine Or.inl ⟨by rw [hkept]; rfl, ?_, ?_⟩
    · intro a ha
      simpa using (Option.any_eq_false _ _).mp hlow a ha
    · intro c hc
      simpa using (Option.any_eq_false _ _).mp hhigh c hc

/-- The type arguments of ranges of fractional numbers and of lengths, of every
kind and with bounds that are open or finite. Both have the same object. It
exists exactly if the size of the range can be found, and it admits every number
of the range. If both bounds are whole and at most a hundred whole numbers lie
between them, it has both bounds with their flags and admits no other number.
Otherwise it has at most one bound, weakened and with its flag, and none only
where no bound has a sign. -/
theorem fractionalArgument_covers (kind : Int) {low high : Json}
    {l h : Option Rat} (hlow : low.Measures l) (hhigh : high.Measures h) :
    let r : Range := { kind := .int kind, low, high }
    let b : Bounds :=
      { low := l, high := h, omitsLow := decide (kind / 2 % 2 = 1),
        omitsHigh := decide (kind % 2 = 1) }
    ((∃ t docs, r.fractionalArgument = .ok (t, docs)) ↔
      ∀ a ∈ l, h.isSome = true → low.IsConvertible ∧
        ((∃ i : Int, a = i) → high.IsConvertible)) ∧
    (∀ label, (r.lengthArgument label).map Prod.fst =
      r.fractionalArgument.map Prod.fst) ∧
    ∀ t docs, r.fractionalArgument = .ok (t, docs) →
      (∀ x, b.Contains x → t.bounds.Contains x) ∧
      (∀ a c : Int, l = some (a : Rat) → h = some (c : Rat) → c - a + 1 ≤ 100 →
        t = .object [flagProperty "leftExclusive" b.omitsLow,
          flagProperty "rightExclusive" b.omitsHigh, boundProperty "min" a,
          boundProperty "max" c] ∧ ∀ x, t.bounds.Contains x ↔ b.Contains x) ∧
      ((¬ ∃ a c : Int, l = some (a : Rat) ∧ h = some (c : Rat) ∧
          c - a + 1 ≤ 100) →
        t = .object [] ∧ (∀ a ∈ l, a < 0) ∧ (∀ c ∈ h, 0 < c) ∨ ∃ omits,
          (∃ k ∈ [(0 : Int), 1], t = .object
            [flagProperty "leftExclusive" omits, boundProperty "min" k]) ∨
          ∃ k ∈ [(0 : Int), -1], t = .object
            [flagProperty "rightExclusive" omits, boundProperty "max" k]) := by
  intro r b
  have hr : r.Means b := ⟨hlow, hhigh, rfl, by
    change Except.ok (decide (kind / 1 % 2 = 1)) = _
    rw [Int.ediv_one]⟩
  refine ⟨(exists_boundsArgument_iff hr).trans
    (exists_isSpelledOut_iff hlow hhigh),
    fun label => map_fst_boundsArgument r _ _, fun t docs ht => ?_⟩
  obtain ⟨k, rfl, hk⟩ := exists_isKept_of_boundsArgument hr ht
  rw [k.bounds_object]
  refine ⟨fun x => hk.contains, fun a c ha hc hsize => ?_, fun hmany => ?_⟩
  · have hfew : IsFew l h := isFew_iff_exists.mpr ⟨a, c, ha, hc, hsize⟩
    rcases hk with ⟨a', c', ha', hc', -, rfl⟩ | ⟨hmany, -⟩
    · cases Int.cast_inj.mp (Option.some.inj (ha.symm.trans ha'))
      cases Int.cast_inj.mp (Option.some.inj (hc.symm.trans hc'))
      rw [bounds_eq_of_few ha' hc']
      exact ⟨rfl, fun _ => Iff.rfl⟩
    · exact absurd hfew hmany
  · rcases hk with ⟨_, _, -, -, hfew, -⟩ | ⟨-, rfl⟩
    · exact absurd (isFew_iff_exists.mp hfew) hmany
    · exact weakened_object_cases b

/-- All numbers between minus five and ninety-four, which are both left out. -/
theorem fractionalArgument_covers_hundred :
    ∃ t docs, fractionalArgument
        { kind := .int 3, low := .int (-5), high := .int 94 } =
          .ok (t, docs) ∧
      t = .object [flagProperty "leftExclusive" true,
        flagProperty "rightExclusive" true,
        boundProperty "min" (-5), boundProperty "max" 94] ∧
      ∀ x : Rat, t.bounds.Contains x ↔ -5 < x ∧ x < 94 := by
  have hlow : (Json.int (-5)).Measures (some ((-5 : Int) : Rat)) :=
    @Json.Measures.number (.int (-5)) _ rfl
  have hhigh : (Json.int 94).Measures (some ((94 : Int) : Rat)) :=
    @Json.Measures.number (.int 94) _ rfl
  obtain ⟨hreturns, -, hargument⟩ := fractionalArgument_covers 3 hlow hhigh
  obtain ⟨t, docs, ht⟩ := hreturns.mpr (by
    rintro _ ⟨⟩ -
    refine ⟨?_, fun _ => ?_⟩
    · rintro _ ⟨⟩
      decide +kernel
    · rintro _ ⟨⟩
      decide +kernel)
  obtain ⟨hobject, hexact⟩ :=
    (hargument t docs ht).2.1 (-5) 94 rfl rfl (by decide)
  refine ⟨t, docs, ht, hobject, fun x => (hexact x).trans ?_⟩
  constructor
  · intro hx
    exact ⟨by simpa using hx.low _ rfl, by simpa using hx.high _ rfl⟩
  · rintro ⟨hlt, hlt'⟩
    refine ⟨?_, ?_⟩
    · rintro _ ⟨⟩
      simpa using hlt
    · rintro _ ⟨⟩
      simpa using hlt'

end Range

end Typings
