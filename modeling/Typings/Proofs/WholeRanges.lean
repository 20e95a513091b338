import Typings.Proofs.Bounds

/-!
Ranges of whole numbers as type arguments. The object of a range admits
every whole number of the range, and exactly those while there are few of
them. For that the bounds have to be whole: a bound that is left out is
moved inward by one, which is too far for a fraction, and below one the
object then loses the zero.
-/

namespace Typings

/-- The number that a number literal stands for. -/
def TypeExpr.numberValue? : TypeExpr → Option Rat
  | .number v => v.number?.bind (·.toRat?)
  | _ => none

/-- The properties of an object that are number literals. -/
def TypeExpr.numberEntries : TypeExpr → List (String × Rat)
  | .object ps =>
      ps.filterMap fun p => p.type.numberValue?.map fun q => (p.name, q)
  | _ => []

/-- The number satisfies the bounds of an object, both of them included. -/
def TypeExpr.Admits (t : TypeExpr) (x : Rat) : Prop :=
  ∀ e ∈ t.numberEntries, (e.1 = "min" → e.2 ≤ x) ∧ (e.1 = "max" → x ≤ e.2)

def boundProperty (name : String) (v : Int) : Property :=
  .plain name (.number (.int v))

def boundObject (entries : List (String × Int)) : TypeExpr :=
  .object (entries.map fun e => boundProperty e.1 e.2)

theorem admits_boundObject_iff {entries : List (String × Int)} {x : Rat} :
    (boundObject entries).Admits x ↔
      ∀ e ∈ entries, (e.1 = "min" → (e.2 : Rat) ≤ x) ∧
        (e.1 = "max" → x ≤ (e.2 : Rat)) := by
  have hentries : (boundObject entries).numberEntries = entries.map fun e =>
      (e.1, (e.2 : Rat)) := by
    rw [boundObject, TypeExpr.numberEntries, List.filterMap_map]
    exact congrFun List.filterMap_eq_map' entries
  rw [TypeExpr.Admits, hentries, List.forall_mem_map]

theorem admits_min_iff {v : Int} {x : Rat} :
    (boundObject [("min", v)]).Admits x ↔ (v : Rat) ≤ x := by
  simp [admits_boundObject_iff]

theorem admits_max_iff {v : Int} {x : Rat} :
    (boundObject [("max", v)]).Admits x ↔ x ≤ (v : Rat) := by
  simp [admits_boundObject_iff]

theorem admits_min_max_iff {v w : Int} {x : Rat} :
    (boundObject [("min", v), ("max", w)]).Admits x ↔
      (v : Rat) ≤ x ∧ x ≤ (w : Rat) := by
  simp [admits_boundObject_iff]

namespace Range

/-- The one bound that is left of many numbers, weakened to its sign. -/
def signEntries (low high : Option Rat) : List (String × Int) :=
  if low.any (0 ≤ ·) then [("min", if low.any (1 ≤ ·) then 1 else 0)]
  else if high.any (· ≤ 0) then [("max", if high.any (· < 0) then -1 else 0)]
  else []

variable {low high : Json} {l h : Option Rat}

theorem wholeEntries_of_isSpelledOut
    (hspelled : isSpelledOut low high = .ok true) :
    wholeEntries low high = .ok [("min", low), ("max", high)] := by
  rw [wholeEntries, hspelled]
  rfl

/-- The sign of a bound that is there. -/
theorem lt_zero_of_measures (hhigh : high.Measures h)
    (hsome : h.isSome = true) :
    ∃ n, high.asNumber = .ok n ∧ n.lt (.int 0) = h.any (· < 0) := by
  cases hhigh with
  | nothing => cases hsome
  | @number n q hq =>
      refine ⟨n, asNumber_ofNumber n, Bool.eq_iff_iff.mpr ?_⟩
      rw [Number.lt_iff hq rfl, Option.any_some, decide_eq_true_iff,
        Int.cast_zero]

theorem wholeEntries_of_not_isSpelledOut (hlow : low.Measures l)
    (hhigh : high.Measures h) (hspelled : isSpelledOut low high = .ok false) :
    wholeEntries low high =
      .ok ((signEntries l h).map fun e => (e.1, .int e.2)) := by
  have hzero := atLeast_eq hlow 0
  have hone := atLeast_eq hlow 1
  have hmost := atMost_eq hhigh 0
  rw [Int.cast_zero] at hzero hmost
  rw [Int.cast_one] at hone
  rw [wholeEntries, hspelled, hzero, hone, hmost, signEntries]
  cases hl : l.any (0 ≤ ·) with
  | true => rfl
  | false =>
      cases hh : h.any (· ≤ 0) with
      | true =>
          have hsome : h.isSome = true := by
            cases h with
            | none => cases hh
            | some q => rfl
          obtain ⟨n, hn, hsign⟩ := lt_zero_of_measures hhigh hsome
          rw [hn, ← hsign]
          rfl
      | false => rfl

/-- The object of entries that are all written as whole numbers. -/
theorem objectOf_eq {entries : List (String × Json)}
    {bounds : List (String × Int)}
    (h : List.Forall₂ (fun e p => e.1 = p.1 ∧
      entryType e.2 = .ok (.number (.int p.2))) entries bounds) :
    objectOf entries = .ok (boundObject bounds) := by
  rw [objectOf, bind_eq_ok_iff]
  refine ⟨bounds.map fun p => boundProperty p.1 p.2, mapM_eq_ok_iff.mpr ?_, rfl⟩
  rw [List.forall₂_map_right_iff]
  apply h.imp
  rintro ⟨name, v⟩ ⟨_, i⟩ ⟨rfl, htype⟩
  rw [htype]
  rfl

theorem entryType_int {i : Int} (hfits : (Binary64.ofInt? i).isSome = true) :
    entryType (.int i) = .ok (.number (.int i)) := by
  have hbound : (Json.int i).Measures (some (i : Rat)) :=
    @Json.Measures.number (.int i) _ rfl
  obtain ⟨whole, hwhole⟩ :=
    exists_isWholeBound hbound (by rintro _ ⟨⟩; exact hfits)
  have htrue : whole = true := (isWholeBound_iff hbound hwhole).mpr ⟨i, rfl⟩
  exact entryType_eq hbound (htrue ▸ hwhole)

/-- There are five objects for the sign of a bound. -/
theorem signEntries_cases (l h : Option Rat) :
    signEntries l h ∈ [[], [("min", 0)], [("min", 1)], [("max", 0)],
      [("max", -1)]] := by
  rw [signEntries]
  split
  · split <;> simp
  · split
    · split <;> simp
    · simp

theorem objectOf_signEntries (l h : Option Rat) :
    objectOf ((signEntries l h).map fun e => (e.1, .int e.2)) =
      .ok (boundObject (signEntries l h)) := by
  apply objectOf_eq
  rw [List.forall₂_map_left_iff, List.forall₂_same]
  intro e he
  have hvalue : e.2 = 0 ∨ e.2 = 1 ∨ e.2 = -1 := by
    have hcases := signEntries_cases l h
    simp only [List.mem_cons, List.not_mem_nil, or_false] at hcases
    rcases hcases with hs | hs | hs | hs | hs <;> rw [hs] at he <;> simp_all
  refine ⟨rfl, entryType_int ?_⟩
  rcases hvalue with hv | hv | hv <;> rw [hv] <;> decide +kernel

/-- What a range of whole numbers keeps: both bounds, if there are few
numbers, or else a sign. -/
def IsWholeObject (l h : Option Rat) (t : TypeExpr) : Prop :=
  (∃ a b : Int, l = some (a : Rat) ∧ h = some (b : Rat) ∧ IsFew l h ∧
      t = boundObject [("min", a), ("max", b)]) ∨
    ¬ IsFew l h ∧ t = boundObject (signEntries l h)

theorem wholeObject_eq_ok (hlow : low.Measures l) (hhigh : high.Measures h)
    {spelled : Bool} (hspelled : isSpelledOut low high = .ok spelled) :
    ∃ t, (wholeEntries low high >>= objectOf) = .ok t ∧
      IsWholeObject l h t := by
  have hfew := isSpelledOut_iff hlow hhigh hspelled
  cases spelled with
  | true =>
      obtain ⟨hwholeLow, hwholeHigh⟩ := isWholeBound_of_isSpelledOut hspelled
      obtain ⟨a, rfl⟩ := (isWholeBound_iff hlow hwholeLow).mp rfl
      obtain ⟨b, rfl⟩ := (isWholeBound_iff hhigh hwholeHigh).mp rfl
      refine ⟨boundObject [("min", a), ("max", b)], ?_,
        Or.inl ⟨a, b, rfl, rfl, hfew.mp rfl, rfl⟩⟩
      apply bind_eq_ok_iff.mpr ⟨_, wholeEntries_of_isSpelledOut hspelled,
        objectOf_eq _⟩
      exact .cons ⟨rfl, entryType_eq hlow hwholeLow⟩
        (.cons ⟨rfl, entryType_eq hhigh hwholeHigh⟩ .nil)
  | false =>
      have hmany : ¬ IsFew l h := fun hl => absurd (hfew.mpr hl) (by decide)
      refine ⟨boundObject (signEntries l h), ?_, Or.inr ⟨hmany, rfl⟩⟩
      apply bind_eq_ok_iff.mpr
      exact ⟨_, wholeEntries_of_not_isSpelledOut hlow hhigh hspelled,
        objectOf_signEntries l h⟩

theorem isWholeObject_of_eq_ok (hlow : low.Measures l) (hhigh : high.Measures h)
    {t : TypeExpr} (ht : (wholeEntries low high >>= objectOf) = .ok t) :
    IsWholeObject l h t := by
  obtain ⟨entries, hentries, -⟩ := bind_eq_ok_iff.mp ht
  obtain ⟨spelled, hspelled, -⟩ := bind_eq_ok_iff.mp hentries
  obtain ⟨t', ht', hobject⟩ := wholeObject_eq_ok hlow hhigh hspelled
  rwa [Except.ok.inj (ht.symm.trans ht')]

variable {r : Range} {b : Bounds}

theorem exists_text (hr : r.Means b) : ∃ s, r.text = .ok s := by
  rw [text]
  split
  · exact ⟨_, rfl⟩
  · rw [hr.omitsLow, hr.omitsHigh]
    exact ⟨_, rfl⟩

theorem exists_movedText {bound : Json} (hfits : bound.IsConvertible) :
    ∃ s, movedText bound = .ok s := by
  cases bound with
  | int i =>
      rw [movedText, if_pos (Binary64.natAbs_lt_of_ofInt? (hfits i rfl))]
      exact ⟨_, rfl⟩
  | null => exact ⟨_, rfl⟩
  | bool v => exact ⟨_, rfl⟩
  | double x => exact ⟨_, rfl⟩
  | str s => exact ⟨_, rfl⟩
  | arr xs => exact ⟨_, rfl⟩
  | obj xs => exact ⟨_, rfl⟩

/-- The line on a bound that has been moved. -/
def movedDocs (label : String) (moved : Bool) (bound : Json) :
    Except Misuse (List String) :=
  if moved then do return [label ++ (← movedText bound)] else return []

theorem exists_movedDocs {label : String} {moved : Bool} {bound : Json}
    (hfits : bound.IsConvertible) :
    ∃ docs, movedDocs label moved bound = .ok docs := by
  obtain ⟨s, hs⟩ := exists_movedText hfits
  rw [movedDocs, hs]
  cases moved <;> exact ⟨_, rfl⟩

theorem movedDocs_bind {α : Type} (label : String) (moved : Bool) (bound : Json)
    (f : List String → Except Misuse α) :
    (movedDocs label moved bound >>= f) =
      if moved then movedText bound >>= fun shown => f [label ++ shown]
      else f [] := by
  cases moved with
  | true => exact bind_assoc _ _ _
  | false => rfl

theorem wholeArgument_eq (r : Range) : r.wholeArgument = do
    let shown ← r.text
    let low ← r.effectiveLow
    let left ← r.omitsLow
    let lowDocs ← movedDocs "Effective minimum: " (!r.low.isNull && left) low
    let high ← r.effectiveHigh
    let right ← r.omitsHigh
    let highDocs ←
      movedDocs "Effective maximum: " (!r.high.isNull && right) high
    let type ← wholeEntries low high >>= objectOf
    return (type, ("Range: " ++ shown) :: (lowDocs ++ highDocs)) := by
  simp only [movedDocs_bind, bind_assoc]
  rfl

/-- The arithmetic of the range is exact: bounds that are left out
are moved by one. -/
structure FoldsTo (r : Range) (b : Bounds) (low high : Json) : Prop where
  means : r.Means b
  lowFolds : r.effectiveLow = .ok low
  highFolds : r.effectiveHigh = .ok high
  lowExact : low.Measures b.effectiveLow
  highExact : high.Measures b.effectiveHigh

/-- The object of the type argument is that of the moved bounds. -/
theorem isWholeObject_of_wholeArgument (hr : r.FoldsTo b low high)
    {t : TypeExpr} {docs : List String} (ht : r.wholeArgument = .ok (t, docs)) :
    IsWholeObject b.effectiveLow b.effectiveHigh t := by
  rw [wholeArgument_eq] at ht
  obtain ⟨_, -, ht⟩ := bind_eq_ok_iff.mp ht
  obtain ⟨low', hlow, ht⟩ := bind_eq_ok_iff.mp ht
  obtain ⟨_, -, ht⟩ := bind_eq_ok_iff.mp ht
  obtain ⟨_, -, ht⟩ := bind_eq_ok_iff.mp ht
  obtain ⟨high', hhigh, ht⟩ := bind_eq_ok_iff.mp ht
  obtain ⟨_, -, ht⟩ := bind_eq_ok_iff.mp ht
  obtain ⟨_, -, ht⟩ := bind_eq_ok_iff.mp ht
  obtain ⟨t', ht', hpair⟩ := bind_eq_ok_iff.mp ht
  cases hr.lowFolds.symm.trans hlow
  cases hr.highFolds.symm.trans hhigh
  cases hpair
  exact isWholeObject_of_eq_ok hr.lowExact hr.highExact ht'

theorem exists_wholeArgument (hr : r.FoldsTo b low high)
    (hlow : low.IsConvertible) (hhigh : high.IsConvertible) :
    ∃ t docs, r.wholeArgument = .ok (t, docs) := by
  obtain ⟨shown, hshown⟩ := exists_text hr.means
  obtain ⟨lowDocs, hlowDocs⟩ :=
    @exists_movedDocs "Effective minimum: " (!r.low.isNull && b.omitsLow) _ hlow
  obtain ⟨highDocs, hhighDocs⟩ := @exists_movedDocs "Effective maximum: "
    (!r.high.isNull && b.omitsHigh) _ hhigh
  obtain ⟨spelled, hspelled⟩ :=
    exists_isSpelledOut hr.lowExact hr.highExact hlow hhigh
  obtain ⟨t, ht, -⟩ := wholeObject_eq_ok hr.lowExact hr.highExact hspelled
  refine ⟨t, ("Range: " ++ shown) :: (lowDocs ++ highDocs), ?_⟩
  simp only [wholeArgument_eq, bind_eq_ok_iff]
  exact ⟨shown, hshown, low, hr.lowFolds, _, hr.means.omitsLow,
    lowDocs, hlowDocs, high, hr.highFolds, _,
    hr.means.omitsHigh, highDocs, hhighDocs, t, bind_eq_ok_iff.mp ht, rfl⟩

/-- A lower bound that is not negative comes first, then an upper bound that
is not positive. -/
theorem signEntries_spec (l h : Option Rat) :
    (∃ a ∈ l, 0 ≤ a ∧ signEntries l h = [("min", if 1 ≤ a then 1 else 0)]) ∨
      (∀ a ∈ l, a < 0) ∧ ((∃ c ∈ h, c ≤ 0 ∧
          signEntries l h = [("max", if c < 0 then -1 else 0)]) ∨
        (∀ c ∈ h, 0 < c) ∧ signEntries l h = []) := by
  by_cases hl : ∃ a ∈ l, 0 ≤ a
  · obtain ⟨a, rfl, ha⟩ := hl
    exact Or.inl ⟨a, rfl, ha, by simp [signEntries, ha]⟩
  · have hnone : l.any (0 ≤ ·) = false := by
      simpa [Option.any_eq_false] using hl
    push Not at hl
    refine Or.inr ⟨hl, ?_⟩
    by_cases hh : ∃ c ∈ h, c ≤ 0
    · obtain ⟨c, rfl, hc⟩ := hh
      exact Or.inl ⟨c, rfl, hc, by simp [signEntries, hnone, hc]⟩
    · have hnone' : h.any (· ≤ 0) = false := by
        simpa [Option.any_eq_false] using hh
      push Not at hh
      exact Or.inr ⟨hh, by simp [signEntries, hnone, hnone']⟩

theorem signs_of_signEntries_eq_nil (hnil : signEntries l h = []) :
    (∀ a ∈ l, a < 0) ∧ ∀ c ∈ h, 0 < c := by
  rcases signEntries_spec l h with ⟨_, -, -, hmin⟩ |
    ⟨hlow, ⟨_, -, -, hmax⟩ | ⟨hhigh, -⟩⟩
  · cases hmin.symm.trans hnil
  · cases hmax.symm.trans hnil
  · exact ⟨hlow, hhigh⟩

end Range

namespace Bounds

variable {b : Bounds} {a c : Rat} {k n : Int}

/-- What a moved lower bound says of whole numbers. -/
theorem Contains.le_of_effectiveLow (hn : b.Contains n)
    (ha : a ∈ b.effectiveLow) (hk : (k : Rat) ≤ a) : k ≤ n := by
  obtain ⟨low, hlow, rfl⟩ := Option.map_eq_some_iff.mp ha
  have hbound := hn.low low hlow
  cases hopen : b.omitsLow with
  | true =>
      rw [hopen] at hbound hk
      have hlt : ((k - 1 : Int) : Rat) < n := by
        push_cast
        linarith [show low < n from hbound, show (k : Rat) ≤ low + 1 from hk]
      have := Int.cast_lt.mp hlt
      omega
  | false =>
      rw [hopen] at hbound hk
      exact Int.cast_le.mp (le_trans (show (k : Rat) ≤ low from hk) hbound)

/-- What a moved upper bound says of whole numbers. -/
theorem Contains.le_of_effectiveHigh (hn : b.Contains n)
    (hc : c ∈ b.effectiveHigh) (hk : c ≤ k) : n ≤ k := by
  obtain ⟨high, hhigh, rfl⟩ := Option.map_eq_some_iff.mp hc
  have hbound := hn.high high hhigh
  cases hopen : b.omitsHigh with
  | true =>
      rw [hopen] at hbound hk
      have hlt : (n : Rat) < ((k + 1 : Int) : Rat) := by
        push_cast
        linarith [show (n : Rat) < high from hbound, show high - 1 ≤ k from hk]
      have := Int.cast_lt.mp hlt
      omega
  | false =>
      rw [hopen] at hbound hk
      exact Int.cast_le.mp (le_trans (show (n : Rat) ≤ high from hbound) hk)

/-- Zero lies in the range, and the object of the range rejects it: the upper
bound is left out, and moved below zero from between zero and one. -/
structure LosesZero (b : Bounds) : Prop where
  omitsHigh : b.omitsHigh = true
  high : ∃ c ∈ b.high, 0 < c ∧ c < 1
  low : ∀ a ∈ b.effectiveLow, a < 0

theorem LosesZero.contains_zero (h : b.LosesZero) : b.Contains 0 := by
  constructor
  · intro a ha
    have hlow := h.low _ (Option.mem_map.mpr ⟨a, ha, rfl⟩)
    cases hopen : b.omitsLow with
    | true =>
        rw [hopen] at hlow
        show a < 0
        linarith [show a + 1 < 0 from hlow]
    | false =>
        rw [hopen] at hlow
        exact (show a < 0 from hlow).le
  · intro c hc
    obtain ⟨c', hc', hpos, -⟩ := h.high
    cases Option.mem_unique hc hc'
    rw [h.omitsHigh]
    exact hpos

theorem LosesZero.exists_effectiveHigh (h : b.LosesZero) :
    ∃ c ∈ b.effectiveHigh, c < 0 := by
  obtain ⟨c, hc, -, hone⟩ := h.high
  refine ⟨_, Option.mem_map.mpr ⟨c, hc, rfl⟩, ?_⟩
  rw [h.omitsHigh]
  exact sub_neg.mpr hone

/-- Below a moved bound that is negative there are no whole numbers but negative
ones, or zero is lost. -/
theorem Contains.neg_of_effectiveHigh (hn : b.Contains n)
    (hc : c ∈ b.effectiveHigh) (hneg : c < 0)
    (hlow : ∀ a ∈ b.effectiveLow, a < 0) (hkeeps : ¬ b.LosesZero) : n ≤ -1 := by
  obtain ⟨high, hhigh, rfl⟩ := Option.map_eq_some_iff.mp hc
  have hbound := hn.high high hhigh
  have hlt : (n : Rat) < 0 := by
    cases hopen : b.omitsHigh with
    | true =>
        rw [hopen] at hbound hneg
        have hle : high ≤ 0 := by
          by_contra hpos
          have hone : high < 1 := by linarith [show high - 1 < 0 from hneg]
          exact hkeeps ⟨hopen, ⟨high, hhigh, not_le.mp hpos, hone⟩, hlow⟩
        exact lt_of_lt_of_le hbound hle
    | false =>
        rw [hopen] at hbound hneg
        exact lt_of_le_of_lt hbound hneg
  have := Int.cast_lt_zero.mp hlt
  omega

/-- One bound, weakened to its sign, admits every whole number of the range,
unless zero is lost. -/
theorem admits_signEntries_iff (b : Bounds) :
    (∀ n : Int, b.Contains n → (boundObject
        (Range.signEntries b.effectiveLow b.effectiveHigh)).Admits n) ↔
      ¬ b.LosesZero := by
  rcases Range.signEntries_spec b.effectiveLow b.effectiveHigh with
    ⟨a, ha, hnonneg, hentries⟩ |
      ⟨hlow, ⟨c, hc, hnonpos, hentries⟩ | ⟨hhigh, hentries⟩⟩
  -- Weakening a lower bound is always sound: a bound that is moved from below
  -- zero stays below one.
  · refine iff_of_true ?_ fun h => absurd (h.low a ha) (not_lt.mpr hnonneg)
    intro n hn
    rw [hentries, admits_min_iff, Int.cast_le]
    apply hn.le_of_effectiveLow ha
    split
    · rwa [Int.cast_one]
    · rwa [Int.cast_zero]
  -- An upper bound that is moved from above zero may end below it, and then the
  -- bound is one too low.
  · rw [hentries]
    simp only [admits_max_iff, Int.cast_le]
    split
    · rename_i hneg
      constructor
      · intro hsound hloses
        exact absurd (hsound 0 (by exact_mod_cast hloses.contains_zero))
          (by decide)
      · intro hkeeps n hn
        exact hn.neg_of_effectiveHigh hc hneg hlow hkeeps
    · rename_i hzero
      refine iff_of_true (fun n hn =>
        hn.le_of_effectiveHigh hc (by rwa [Int.cast_zero])) fun hloses => ?_
      obtain ⟨c', hc', hneg⟩ := hloses.exists_effectiveHigh
      cases Option.mem_unique hc hc'
      exact hzero hneg
  · refine iff_of_true (fun n hn => ?_) fun hloses => ?_
    · rw [hentries]
      exact admits_boundObject_iff.mpr (by simp)
    · obtain ⟨c, hc, hneg⟩ := hloses.exists_effectiveHigh
      exact absurd (hhigh c hc) (not_lt.mpr hneg.le)

/-- Moving a bound by one does not make it whole. -/
theorem exists_low_of_effectiveLow {i : Int}
    (h : b.effectiveLow = some (i : Rat)) :
    ∃ j : Int, b.low = some (j : Rat) := by
  obtain ⟨low, hlow, hi⟩ := Option.map_eq_some_iff.mp h
  cases hopen : b.omitsLow with
  | true =>
      rw [hopen] at hi
      have hi : low + 1 = i := hi
      exact ⟨i - 1, by rw [hlow]; push_cast; rw [← hi, add_sub_cancel_right]⟩
  | false =>
      rw [hopen] at hi
      exact ⟨i, by rw [hlow]; exact congrArg some hi⟩

theorem exists_high_of_effectiveHigh {i : Int}
    (h : b.effectiveHigh = some (i : Rat)) :
    ∃ j : Int, b.high = some (j : Rat) := by
  obtain ⟨high, hhigh, hi⟩ := Option.map_eq_some_iff.mp h
  cases hopen : b.omitsHigh with
  | true =>
      rw [hopen] at hi
      have hi : high - 1 = i := hi
      exact ⟨i + 1, by rw [hhigh]; push_cast; rw [← hi, sub_add_cancel]⟩
  | false =>
      rw [hopen] at hi
      exact ⟨i, by rw [hhigh]; exact congrArg some hi⟩

/-- A bound that is there is not a whole number. -/
def HasFraction (b : Bounds) : Prop :=
  ∃ q, (q ∈ b.low ∨ q ∈ b.high) ∧ ∀ i : Int, q ≠ i

theorem HasFraction.not_isFew (h : b.HasFraction) :
    ¬ Range.IsFew b.effectiveLow b.effectiveHigh := by
  rintro ⟨low, high, hlow, hhigh, -⟩
  obtain ⟨i, hi⟩ := exists_low_of_effectiveLow hlow
  obtain ⟨j, hj⟩ := exists_high_of_effectiveHigh hhigh
  obtain ⟨q, hq | hq, hfraction⟩ := h
  · exact hfraction i (Option.mem_unique hq hi)
  · exact hfraction j (Option.mem_unique hq hj)

end Bounds

namespace Range

/-- The type argument of a range of whole numbers with a bound that is not
whole, where moving the bounds is exact. The whole numbers of the range satisfy
it exactly if the range is not one below a fraction between zero and one. -/
theorem wholeArgument_sound_iff_of_hasFraction {r : Range} {b : Bounds}
    {low high : Json} (hr : r.FoldsTo b low high) (hfraction : b.HasFraction) :
    (low.IsConvertible → high.IsConvertible → ∃ t docs,
        r.wholeArgument = .ok (t, docs)) ∧
      ∀ t docs, r.wholeArgument = .ok (t, docs) →
        ((∀ n : Int, b.Contains n → t.Admits n) ↔ ¬ b.LosesZero) := by
  refine ⟨exists_wholeArgument hr, ?_⟩
  intro t docs ht
  rcases isWholeObject_of_wholeArgument hr ht with ⟨_, _, -, -, hfew,
    -⟩ | ⟨-, rfl⟩
  · exact absurd hfew hfraction.not_isFew
  · exact b.admits_signEntries_iff

def half : Binary64 :=
  .finite false 4503599627370496 (-53)

/-- All whole numbers below one half: zero is lost. -/
theorem wholeArgument_sound_iff_of_hasFraction_half :
    let r : Range := { kind := .int 1, high := .double half }
    let b : Bounds := { high := some (1 / 2), omitsHigh := true }
    ∃ low high, r.FoldsTo b low high ∧ b.HasFraction ∧
      ∃ t docs, r.wholeArgument = .ok (t, docs) ∧
      ¬ ∀ n : Int, b.Contains n → t.Admits n := by
  intro r b
  have hr : r.FoldsTo b .null (.double (half.addInt (-1))) :=
    { means := ⟨.nothing,
        @Json.Measures.number (.double half) _ (by decide +kernel), rfl, rfl⟩
      lowFolds := rfl
      highFolds := rfl
      lowExact := .nothing
      highExact := @Json.Measures.number (.double (half.addInt (-1))) _
        (by decide +kernel) }
  have hfraction : b.HasFraction := by
    refine ⟨1 / 2, Or.inr rfl, ?_⟩
    intro i hi
    have := congrArg Rat.den hi
    rw [Rat.den_intCast] at this
    exact absurd this (by decide +kernel)
  have hloses : b.LosesZero :=
    ⟨rfl, ⟨1 / 2, rfl, by norm_num, by norm_num⟩, by rintro a ⟨⟩⟩
  obtain ⟨hreturns, hsound⟩ :=
    wholeArgument_sound_iff_of_hasFraction hr hfraction
  obtain ⟨t, docs, ht⟩ := hreturns (by rintro i ⟨⟩) (by rintro i ⟨⟩)
  exact ⟨_, _, hr, hfraction, t, docs, ht,
    fun h => (hsound t docs ht).mp h hloses⟩

def intBound : Option Int → Json
  | none => .null
  | some i => .int i

/-- A range between whole numbers. -/
def ofInts (kind : Int) (low high : Option Int) : Range :=
  { kind := .int kind, low := intBound low, high := intBound high }

/-- The least whole number that the lower bound admits. -/
def least (kind : Int) (low : Option Int) : Option Int :=
  low.map fun a => if kind / 2 % 2 = 1 then a + 1 else a

/-- The greatest whole number that the upper bound admits. -/
def greatest (kind : Int) (high : Option Int) : Option Int :=
  high.map fun c => if kind % 2 = 1 then c - 1 else c

/-- What a range between whole numbers says of numbers. -/
def boundsOfInts (kind : Int) (low high : Option Int) : Bounds :=
  { low := low.map Int.cast, high := high.map Int.cast,
    omitsLow := decide (kind / 2 % 2 = 1),
    omitsHigh := decide (kind % 2 = 1) }

variable {kind : Int} {low high : Option Int}

theorem measures_intBound (i : Option Int) :
    (intBound i).Measures (i.map Int.cast) := by
  cases i with
  | none => exact .nothing
  | some i => exact @Json.Measures.number (.int i) _ rfl

theorem isConvertible_intBound {i : Option Int}
    (h : ∀ a ∈ i, (Binary64.ofInt? a).isSome = true) :
    (intBound i).IsConvertible := by
  intro a ha
  cases i with
  | none => cases ha
  | some i =>
      cases ha
      exact h a rfl

theorem effectiveLow_boundsOfInts :
    (boundsOfInts kind low high).effectiveLow =
      (least kind low).map Int.cast := by
  cases low with
  | none => rfl
  | some a =>
      by_cases h : kind / 2 % 2 = 1 <;>
        simp [boundsOfInts, Bounds.effectiveLow, least, h]

theorem effectiveHigh_boundsOfInts :
    (boundsOfInts kind low high).effectiveHigh =
      (greatest kind high).map Int.cast := by
  cases high with
  | none => rfl
  | some a =>
      by_cases h : kind % 2 = 1 <;> simp [boundsOfInts, Bounds.effectiveHigh,
        greatest, h]

theorem omitsLow_ofInts :
    (ofInts kind low high).omitsLow = .ok (decide (kind / 2 % 2 = 1)) :=
  rfl

theorem omitsHigh_ofInts :
    (ofInts kind low high).omitsHigh = .ok (decide (kind % 2 = 1)) := by
  change Except.ok (decide (kind / 1 % 2 = 1)) = _
  rw [Int.ediv_one]

/-- Whole bounds are moved without loss. -/
theorem foldsTo_ofInts : (ofInts kind low high).FoldsTo
    (boundsOfInts kind low high) (intBound (least kind low))
    (intBound (greatest kind high)) where
  means := ⟨measures_intBound low, measures_intBound high, omitsLow_ofInts,
    omitsHigh_ofInts⟩
  lowFolds := by
    rw [effectiveLow, omitsLow_ofInts]
    cases low with
    | none => rfl
    | some a =>
        by_cases h : kind / 2 % 2 = 1 <;>
          simp [h, ofInts, intBound, least] <;> rfl
  highFolds := by
    rw [effectiveHigh, omitsHigh_ofInts]
    cases high with
    | none => rfl
    | some a =>
        by_cases h : kind % 2 = 1 <;>
          simp [h, ofInts, intBound, greatest] <;> rfl
  lowExact := by
    rw [effectiveLow_boundsOfInts]
    exact measures_intBound _
  highExact := by
    rw [effectiveHigh_boundsOfInts]
    exact measures_intBound _

theorem forall_low_boundsOfInts_iff {n : Int} :
    (∀ q ∈ (boundsOfInts kind low high).low,
      if (boundsOfInts kind low high).omitsLow then q < n else q ≤ n) ↔
        ∀ a ∈ least kind low, a ≤ n := by
  cases low with
  | none => simp [boundsOfInts, least]
  | some a =>
      by_cases h : kind / 2 % 2 = 1
      · simp only [boundsOfInts, least, h, Option.map_some, Option.mem_some_iff,
          forall_eq', decide_true, if_true, Int.cast_lt, Int.add_one_le_iff]
      · simp [boundsOfInts, least, h]

theorem forall_high_boundsOfInts_iff {n : Int} :
    (∀ q ∈ (boundsOfInts kind low high).high,
      if (boundsOfInts kind low high).omitsHigh then n < q else n ≤ q) ↔
        ∀ c ∈ greatest kind high, n ≤ c := by
  cases high with
  | none => simp [boundsOfInts, greatest]
  | some c =>
      by_cases h : kind % 2 = 1
      · simp only [boundsOfInts, greatest, h, Option.map_some,
          Option.mem_some_iff, forall_eq', decide_true, if_true,
          Int.cast_lt, Int.le_sub_one_iff]
      · simp [boundsOfInts, greatest, h]

theorem contains_boundsOfInts_iff {n : Int} :
    (boundsOfInts kind low high).Contains n ↔
    (∀ a ∈ least kind low, a ≤ n) ∧ ∀ c ∈ greatest kind high, n ≤ c := by
  rw [← @forall_low_boundsOfInts_iff kind low high,
    ← @forall_high_boundsOfInts_iff kind low high]
  exact ⟨fun h => ⟨h.low, h.high⟩, fun h => ⟨h.1, h.2⟩⟩

theorem not_losesZero_boundsOfInts :
    ¬ (boundsOfInts kind low high).LosesZero := by
  rintro ⟨-, ⟨q, hq, hpos, hone⟩, -⟩
  obtain ⟨c, -, rfl⟩ := Option.map_eq_some_iff.mp hq
  have hpos : 0 < c := Int.cast_pos.mp hpos
  have hone : c < 1 := by exact_mod_cast hone
  omega

/-- Few whole numbers between whole bounds. -/
theorem isFew_map_intCast_iff {l h : Option Int} :
    IsFew (l.map Int.cast) (h.map Int.cast) ↔
    ∃ a ∈ l, ∃ c ∈ h, (Finset.Icc a c).card ≤ 100 := by
  constructor
  · rintro ⟨a, c, ha, hc, hcard⟩
    obtain ⟨a', ha', hcast⟩ := Option.map_eq_some_iff.mp ha
    obtain ⟨c', hc', hcast'⟩ := Option.map_eq_some_iff.mp hc
    cases Int.cast_inj.mp hcast
    cases Int.cast_inj.mp hcast'
    exact ⟨a, ha', c, hc', Int.ofNat_le.mp hcard⟩
  · rintro ⟨a, rfl, c, rfl, hcard⟩
    exact ⟨a, c, rfl, rfl, Int.ofNat_le.mpr hcard⟩

theorem isWholeObject_intCast {l h : Option Int} {t : TypeExpr}
    (hobject : IsWholeObject (l.map Int.cast) (h.map Int.cast) t) :
    (∃ a ∈ l, ∃ c ∈ h, (Finset.Icc a c).card ≤ 100 ∧
        t = boundObject [("min", a), ("max", c)]) ∨
      (¬ ∃ a ∈ l, ∃ c ∈ h, (Finset.Icc a c).card ≤ 100) ∧
        t = boundObject (signEntries (l.map Int.cast) (h.map Int.cast)) := by
  rcases hobject with ⟨a, c, ha, hc, hfew, rfl⟩ | ⟨hmany, rfl⟩
  · obtain ⟨a', ha', c', hc', hcard⟩ := isFew_map_intCast_iff.mp hfew
    cases ha'
    cases hc'
    cases Int.cast_inj.mp (Option.some.inj ha)
    cases Int.cast_inj.mp (Option.some.inj hc)
    exact Or.inl ⟨_, rfl, _, rfl, hcard, rfl⟩
  · exact Or.inr ⟨fun hfew => hmany (isFew_map_intCast_iff.mpr hfew), rfl⟩

/-- The type argument of a range between whole numbers. It is satisfied by every
number of the range. Up to a hundred numbers it has both bounds and is satisfied
by no others; of more it keeps at most the sign of one bound, and nothing only
where no bound has a sign. -/
theorem wholeArgument_ofInts (kind : Int) (low high : Option Int)
    (hlow : ∀ a ∈ least kind low, (Binary64.ofInt? a).isSome = true)
    (hhigh : ∀ c ∈ greatest kind high, (Binary64.ofInt? c).isSome = true) :
    ∃ t docs, (ofInts kind low high).wholeArgument = .ok (t, docs) ∧
      (∀ n : Int, (boundsOfInts kind low high).Contains n → t.Admits n) ∧
      (∀ a ∈ least kind low, ∀ c ∈ greatest kind high,
        (Finset.Icc a c).card ≤ 100 →
        t = boundObject [("min", a), ("max", c)] ∧
          ∀ n : Int, t.Admits n ↔ (boundsOfInts kind low high).Contains n) ∧
      ((¬ ∃ a ∈ least kind low, ∃ c ∈ greatest kind high,
          (Finset.Icc a c).card ≤ 100) →
        ∃ entries ∈ [[], [("min", 0)], [("min", 1)], [("max", 0)],
            [("max", -1)]], t = boundObject entries ∧
          (entries = [] → (∀ a ∈ least kind low, a < 0) ∧
            ∀ c ∈ greatest kind high, 0 < c)) := by
  have hfolds : (ofInts kind low high).FoldsTo _ _ _ := foldsTo_ofInts
  obtain ⟨t, docs, ht⟩ :=
    exists_wholeArgument hfolds (isConvertible_intBound hlow)
      (isConvertible_intBound hhigh)
  refine ⟨t, docs, ht, ?_⟩
  have hobject := isWholeObject_of_wholeArgument hfolds ht
  have hsign := (boundsOfInts kind low high).admits_signEntries_iff.mpr
    not_losesZero_boundsOfInts
  simp only [contains_boundsOfInts_iff] at hsign ⊢
  rw [effectiveLow_boundsOfInts, effectiveHigh_boundsOfInts] at hobject hsign
  rcases isWholeObject_intCast hobject with ⟨a, ha, c, hc, hfew, rfl⟩ |
    ⟨hmany, rfl⟩
  · have hexact : ∀ n : Int, (boundObject [("min", a), ("max", c)]).Admits n ↔
        (∀ a ∈ least kind low, a ≤ n) ∧ ∀ c ∈ greatest kind high, n ≤ c := by
      intro n
      rw [admits_min_max_iff, Int.cast_le, Int.cast_le, ha, hc]
      simp
    refine ⟨fun n => (hexact n).mpr, ?_,
      fun hmany => absurd ⟨a, ha, c, hc, hfew⟩ hmany⟩
    intro a' ha' c' hc' _
    cases Option.mem_unique ha ha'
    cases Option.mem_unique hc hc'
    exact ⟨rfl, hexact⟩
  · refine ⟨hsign, fun a ha c hc hfew => absurd ⟨a, ha, c, hc, hfew⟩ hmany,
      fun _ => ?_⟩
    refine ⟨_, signEntries_cases _ _, rfl, fun hnil => ?_⟩
    obtain ⟨hneg, hpos⟩ := signs_of_signEntries_eq_nil hnil
    constructor
    · intro a ha
      exact Int.cast_lt_zero.mp (hneg _ (Option.mem_map.mpr ⟨a, ha, rfl⟩))
    · intro c hc
      exact Int.cast_pos.mp (hpos _ (Option.mem_map.mpr ⟨c, hc, rfl⟩))

/-- From minus five, left out, up to ninety-six, left out: a
hundred whole numbers. -/
theorem wholeArgument_ofInts_hundred :
    ∃ t docs, (ofInts 3 (some (-5)) (some 96)).wholeArgument = .ok (t, docs) ∧
    t = boundObject [("min", -4), ("max", 95)] ∧
    ∀ n : Int, t.Admits n ↔
      (boundsOfInts 3 (some (-5)) (some 96)).Contains n := by
  obtain ⟨t, docs, ht, -, hfew, -⟩ :=
    wholeArgument_ofInts 3 (some (-5)) (some 96)
    (by rintro a ⟨⟩; decide +kernel) (by rintro c ⟨⟩; decide +kernel)
  exact ⟨t, docs, ht, hfew (-4) rfl 95 rfl (by decide +kernel)⟩

end Range

end Typings
