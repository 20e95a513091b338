import Typings.RangeEncoding
import Typings.Proofs.Outcome
import Mathlib.Data.Int.ConditionallyCompleteOrder
import Mathlib.Data.Int.Interval
import Mathlib.Data.Rat.Floor
import Mathlib.Tactic.Linarith

/-!
What the bounds of a range say about numbers. A bound is open or has a rational
value, and the tests that an encoding makes of a bound, whether it is whole,
how many whole numbers there are and how it compares with another number, are
tests of that value. Only a whole number that is too large for a binary64
number has no answer.
-/

namespace Typings

namespace Binary64

theorem twoTo_pos (n : Nat) : 0 < twoTo n :=
  Nat.pow_pos (by decide)

theorem tenTo_pos (n : Nat) : 0 < tenTo n :=
  Nat.pow_pos (by decide)

/-- What the exponent adds below the point, or above it. -/
theorem twoTo_dvd_magnitude_iff (mantissa : Nat) (exponent : Int) :
    twoTo (-exponent).toNat ∣ mantissa * twoTo exponent.toNat ↔
      twoTo (-exponent).toNat ∣ mantissa := by
  rcases le_total 0 exponent with h | h
  · have hnone : (-exponent).toNat = 0 := by omega
    simp [hnone, twoTo]
  · have hnone : exponent.toNat = 0 := by omega
    simp [hnone, twoTo]

theorem mkRat_eq_intCast_iff {n i : Int} {d : Nat} (hd : 0 < d) :
    mkRat n d = i ↔ n = i * d := by
  have hne : (d : Rat) ≠ 0 := Nat.cast_ne_zero.mpr hd.ne'
  rw [Rat.mkRat_eq_div, div_eq_iff hne]
  exact_mod_cast Iff.rfl

/-- A signed quotient is whole exactly if the division leaves nothing over. -/
theorem mkRat_signed_iff {negative : Bool} {m d : Nat} (hd : 0 < d) :
    ((∃ i : Int, mkRat (if negative then -(m : Int) else m) d = i) ↔ d ∣ m) ∧
      ∀ i : Int, mkRat (if negative then -(m : Int) else m) d = i →
        (if negative then -((m / d : Nat) : Int) else (m / d : Nat)) = i := by
  have hcast : ∀ c : Int, (m : Int) = c * d →
      d ∣ m ∧ ((m / d : Nat) : Int) = c := by
    intro c hc
    have hdvd : (d : Int) ∣ m := ⟨c, by rw [hc, mul_comm]⟩
    refine ⟨Int.natCast_dvd_natCast.mp hdvd, ?_⟩
    rw [Int.natCast_div, hc, Int.mul_ediv_cancel _ (by omega)]
  have hdvd : ∀ c : Int, (m : Int) = c * d ↔ -(m : Int) = -c * d := by
    intro c
    rw [neg_mul, neg_inj]
  simp only [mkRat_eq_intCast_iff hd]
  cases negative with
  | true =>
      simp only [if_true]
      refine ⟨⟨?_, ?_⟩, ?_⟩
      · rintro ⟨i, hi⟩
        exact (hcast (-i) ((hdvd (-i)).mpr (by rw [neg_neg, hi]))).1
      · rintro ⟨c, rfl⟩
        exact ⟨-c, by push_cast; ring⟩
      · intro i hi
        rw [(hcast (-i) ((hdvd (-i)).mpr (by rw [neg_neg, hi]))).2, neg_neg]
  | false =>
      simp only [Bool.false_eq_true, if_false]
      refine ⟨⟨?_, ?_⟩, ?_⟩
      · rintro ⟨i, hi⟩
        exact (hcast i hi).1
      · rintro ⟨c, rfl⟩
        exact ⟨c, by push_cast; ring⟩
      · intro i hi
        exact (hcast i hi).2

variable {x : Binary64} {q : Rat}

/-- A number is whole exactly if its value is, and then nothing is cut off. -/
theorem isWhole_iff (h : x.toRat? = some q) :
    (x.isWhole = true ↔ ∃ i : Int, q = i) ∧ ∀ i : Int, q = i →
      x.truncate? = some i := by
  cases x with
  | infinite negative => cases h
  | nan => cases h
  | finite negative mantissa exponent =>
      obtain ⟨hwhole, htruncate⟩ :=
        @mkRat_signed_iff negative (mantissa * twoTo exponent.toNat) _
          (twoTo_pos (-exponent).toNat)
      rw [twoTo_dvd_magnitude_iff] at hwhole
      rw [toRat?, Option.some.injEq] at h
      subst h
      constructor
      · rw [isWhole, beq_iff_eq, ← Nat.dvd_iff_mod_eq_zero, ← hwhole]
        push_cast
        rfl
      · intro i hi
        rw [truncate?, Option.some.injEq]
        apply htruncate
        rw [← hi]
        push_cast
        rfl

theorem isWhole_finite_iff {negative : Bool} {mantissa : Nat} {exponent : Int} :
    (finite negative mantissa exponent).isWhole = true ↔
      twoTo (-exponent).toNat ∣ mantissa := by
  rw [isWhole, beq_iff_eq, Nat.dvd_iff_mod_eq_zero]

/-- A carry to 54 bits keeps a number whole. -/
theorem isWhole_settle {negative : Bool} {mantissa : Nat} {exponent : Int}
    (h : twoTo (-exponent).toNat ∣ mantissa) :
    settle negative mantissa exponent = .infinite negative ∨
      (settle negative mantissa exponent).isWhole = true := by
  rw [settle]
  split
  · rename_i hcarry
    split
    · right
      rw [isWhole_finite_iff]
      rw [hcarry] at h
      have hle : (-exponent).toNat ≤ 53 :=
        (Nat.pow_dvd_pow_iff_le_right (by decide)).mp h
      exact Nat.pow_dvd_pow 2 (by omega)
    · exact Or.inl rfl
  · split
    · exact Or.inr (isWhole_finite_iff.mpr h)
    · exact Or.inl rfl

theorem roundHalfEven_one (n : Nat) : roundHalfEven n 1 = n := by
  simp [roundHalfEven, Nat.mod_one]

/-- Below the point of a whole number nothing is lost, and above it
there is nothing. -/
theorem twoTo_dvd_roundHalfEven (n : Nat) (exponent : Int) :
    twoTo (-exponent).toNat ∣
    roundHalfEven (n * twoTo (-exponent).toNat) (1 * twoTo exponent.toNat) := by
  rcases le_total 0 exponent with h | h
  · have hnone : (-exponent).toNat = 0 := by omega
    rw [hnone]
    exact Nat.one_dvd _
  · have hnone : exponent.toNat = 0 := by omega
    rw [hnone, one_mul]
    change _ ∣ roundHalfEven _ 1
    rw [roundHalfEven_one]
    exact Nat.dvd_mul_left _ _

/-- Rounding leaves a whole number whole. -/
theorem isWhole_of_ofInt? {i : Int} (h : ofInt? i = some x) :
    x.isWhole = true := by
  have hquotient :
      ofQuotient (decide (i < 0)) i.natAbs 1 = .infinite (decide (i < 0)) ∨
      (ofQuotient (decide (i < 0)) i.natAbs 1).isWhole = true := by
    rw [ofQuotient]
    split
    · exact Or.inr (isWhole_finite_iff.mpr (Nat.dvd_zero _))
    · exact isWhole_settle (twoTo_dvd_roundHalfEven _ _)
  rw [ofInt?] at h
  rcases hquotient with hinfinite | hwhole
  · rw [hinfinite] at h
    cases h
  · split at h
    · cases h
    · cases h
      exact hwhole

theorem settle_of_lt {negative : Bool} {mantissa : Nat} {exponent : Int}
    (h : maxExponent < exponent) :
    settle negative mantissa exponent = .infinite negative := by
  have hcarry : ¬ exponent + 1 ≤ maxExponent := by omega
  rw [settle, if_neg hcarry, if_neg (not_le.mpr h), ite_self]

theorem le_floorLog2 (num den : Nat) :
    (num.log2 - den.log2 - 1 : Int) ≤ floorLog2 num den := by
  rw [floorLog2]
  split <;> omega

theorem twoTo_le_tenTo {m n : Nat} (h : m ≤ n) : twoTo m ≤ tenTo n :=
  (Nat.pow_le_pow_left (by decide) m).trans (Nat.pow_le_pow_right (by decide) h)

theorem le_log2_of_twoTo_le {k n : Nat} (hn : n ≠ 0) (h : twoTo k ≤ n) :
    k ≤ n.log2 :=
  (Nat.le_log2 hn).mpr h

/-- What fits into a binary64 number has far fewer digits
than may be written. -/
theorem natAbs_lt_of_ofInt? {i : Int} (h : (ofInt? i).isSome = true) :
    i.natAbs < tenTo Json.digitLimit := by
  by_contra hlarge
  have hpos : i.natAbs ≠ 0 := by
    intro hzero
    rw [hzero] at hlarge
    exact hlarge (tenTo_pos _)
  have hlog : 1030 ≤ i.natAbs.log2 :=
    le_log2_of_twoTo_le hpos
      ((twoTo_le_tenTo (by decide)).trans (not_lt.mp hlarge))
  have hfloor := le_floorLog2 i.natAbs 1
  have hone : Nat.log2 1 = 0 := by decide
  have hinfinite :
      ofQuotient (decide (i < 0)) i.natAbs 1 = .infinite (decide (i < 0)) := by
    rw [ofQuotient, if_neg hpos]
    apply settle_of_lt
    rw [maxExponent]
    omega
  rw [ofInt?, hinfinite] at h
  cases h

end Binary64

namespace Number

variable {m n : Number} {p q : Rat}

theorem position?_eq (h : n.toRat? = some q) : n.position? = some (0, q) := by
  have hmap := congrArg (Option.map fun q : Rat => ((0 : Int), q)) h
  cases n with
  | int i => exact hmap
  | double x =>
      cases x with
      | finite negative mantissa exponent => exact hmap
      | infinite negative => cases h
      | nan => cases h

theorem lt_iff (hm : m.toRat? = some p) (hn : n.toRat? = some q) :
    m.lt n = true ↔ p < q := by
  rw [lt, position?_eq hm, position?_eq hn]
  simp

theorem le_iff (hm : m.toRat? = some p) (hn : n.toRat? = some q) :
    m.le n = true ↔ p ≤ q := by
  rw [le, Bool.or_eq_true, lt_iff hm hn, same, position?_eq hm, position?_eq hn,
    le_iff_lt_or_eq]
  simp

end Number

/-- The bound is open, or a finite number of this value. -/
inductive Json.Measures : Json → Option Rat → Prop where
  | nothing : Measures .null none
  | number {n : Number} {q : Rat} (h : n.toRat? = some q) :
      Measures (.ofNumber n) (some q)

/-- The bound can be taken for a binary64 number. -/
def Json.IsConvertible (bound : Json) : Prop :=
  ∀ i, bound = .int i → (Binary64.ofInt? i).isSome = true

namespace Range

variable {bound low high : Json} {v l h : Option Rat} {n : Number} {q : Rat}

theorem asNumber_ofNumber (n : Number) :
    (Json.ofNumber n).asNumber = .ok n := by
  cases n <;> rfl

theorem atLeast_ofNumber (n : Number) (k : Int) :
    atLeast (.ofNumber n) k = .ok ((Number.int k).le n) := by
  cases n <;> rfl

theorem atMost_ofNumber (n : Number) (k : Int) :
    atMost (.ofNumber n) k = .ok (n.le (.int k)) := by
  cases n <;> rfl

theorem atLeast_eq (hbound : bound.Measures v) (k : Int) :
    atLeast bound k = .ok (v.any fun q : Rat => decide (k ≤ q)) := by
  cases hbound with
  | nothing => rfl
  | number hq =>
      rw [atLeast_ofNumber, Option.any_some]
      exact congrArg Except.ok
        (Bool.eq_iff_iff.mpr (by rw [Number.le_iff rfl hq, decide_eq_true_iff]))

theorem atMost_eq (hbound : bound.Measures v) (k : Int) :
    atMost bound k = .ok (v.any fun q : Rat => decide (q ≤ k)) := by
  cases hbound with
  | nothing => rfl
  | number hq =>
      rw [atMost_ofNumber, Option.any_some]
      exact congrArg Except.ok
        (Bool.eq_iff_iff.mpr (by rw [Number.le_iff hq rfl, decide_eq_true_iff]))

/-- A whole number has to fit into a binary64 number to be recognized;
nothing else fails. -/
theorem exists_isWholeBound (hbound : bound.Measures v)
    (hfits : bound.IsConvertible) :
    ∃ b, isWholeBound bound = .ok b := by
  cases hbound with
  | nothing => exact ⟨_, rfl⟩
  | @number n q hq =>
      cases n with
      | int i =>
          obtain ⟨x, hx⟩ := Option.isSome_iff_exists.mp (hfits i rfl)
          exact ⟨x.isWhole, by simp [isWholeBound, Json.ofNumber, Json.asDouble,
            Json.number?, hx, Except.map]⟩
      | double x => exact ⟨x.isWhole, rfl⟩

theorem isConvertible_of_isWholeBound {b : Bool}
    (h : isWholeBound bound = .ok b) : bound.IsConvertible := by
  rintro i rfl
  cases hx : Binary64.ofInt? i with
  | none =>
      simp [isWholeBound, Json.asDouble, Json.number?, hx, Except.map] at h
  | some x => rfl

/-- The test for a whole bound is one of its value. -/
theorem isWholeBound_iff (hbound : bound.Measures v) {b : Bool}
    (h : isWholeBound bound = .ok b) :
    b = true ↔ ∃ i : Int, v = some (i : Rat) := by
  cases hbound with
  | nothing =>
      cases h
      simp
  | @number n q hq =>
      cases n with
      | int i =>
          cases hq
          obtain ⟨x, hx⟩ :=
            Option.isSome_iff_exists.mp (isConvertible_of_isWholeBound h i rfl)
          have hb : x.isWhole = b := by
            simpa [isWholeBound, Json.ofNumber, Json.asDouble, Json.number?, hx,
              Except.map] using h
          rw [← hb, Binary64.isWhole_of_ofInt? hx]
          exact iff_of_true rfl ⟨i, rfl⟩
      | double x =>
          have hb : x.isWhole = b := Except.ok.inj h
          rw [← hb, (Binary64.isWhole_iff hq).1]
          simp

/-- A whole bound is cut off to its value. -/
theorem asWhole_eq {i : Int} (hbound : bound.Measures (some (i : Rat))) :
    bound.asWhole = .ok i := by
  generalize hv : some (i : Rat) = v at hbound
  cases hbound with
  | nothing => cases hv
  | @number n q hq =>
      cases hv
      cases n with
      | int j =>
          have hij : (j : Rat) = i := Option.some.inj hq
          rw [Int.cast_inj.mp hij]
          rfl
      | double x =>
          have htruncate := (Binary64.isWhole_iff hq).2 i rfl
          cases x with
          | finite negative mantissa exponent =>
              simp [Json.asWhole, Json.ofNumber, Json.number?, htruncate]
          | infinite negative => cases hq
          | nan => cases hq

/-- Both bounds are whole, and at most a hundred whole numbers
lie between them. -/
def IsFew (low high : Option Rat) : Prop :=
  ∃ a b : Int, low = some (a : Rat) ∧ high = some (b : Rat) ∧
    ((Finset.Icc a b).card : Int) ≤ cardinalityLimit

theorem isFew_intCast_iff {a b : Int} :
    IsFew (some (a : Rat)) (some (b : Rat)) ↔ b - a + 1 ≤ cardinalityLimit := by
  have hcard : ((Finset.Icc a b).card : Int) ≤ cardinalityLimit ↔
      b - a + 1 ≤ cardinalityLimit := by
    rw [Int.card_Icc, cardinalityLimit]
    omega
  rw [← hcard, IsFew]
  simp

theorem isSmall_of_fraction (hlow : isWholeBound low = .ok false) :
    isSmall low high = .ok false := by
  rw [isSmall, cardinality?, hlow]
  rfl

theorem isSmall_of_whole_of_fraction (hlow : isWholeBound low = .ok true)
    (hhigh : isWholeBound high = .ok false) : isSmall low high = .ok false := by
  rw [isSmall, cardinality?, hlow, hhigh]
  rfl

theorem isSmall_of_whole {a b : Int} (hlow : isWholeBound low = .ok true)
    (hhigh : isWholeBound high = .ok true)
    (ha : low.asWhole = .ok a) (hb : high.asWhole = .ok b) :
    isSmall low high = .ok (decide (b - a + 1 ≤ cardinalityLimit)) := by
  have hmax : max (b - a + 1) 0 ≤ cardinalityLimit ↔
      b - a + 1 ≤ cardinalityLimit := by
    rw [cardinalityLimit]
    omega
  rw [isSmall, cardinality?, hlow, hhigh, ha, hb, ← decide_eq_decide.mpr hmax]
  rfl

theorem exists_isSmall (hlow : low.Measures l)
    (hhigh : high.Measures h) (hlowFits : low.IsConvertible)
    (hhighFits : high.IsConvertible) : ∃ b, isSmall low high = .ok b := by
  obtain ⟨bl, hbl⟩ := exists_isWholeBound hlow hlowFits
  obtain ⟨bh, hbh⟩ := exists_isWholeBound hhigh hhighFits
  cases bl with
  | false => exact ⟨_, isSmall_of_fraction hbl⟩
  | true =>
      cases bh with
      | false => exact ⟨_, isSmall_of_whole_of_fraction hbl hbh⟩
      | true =>
          obtain ⟨a, rfl⟩ := (isWholeBound_iff hlow hbl).mp rfl
          obtain ⟨b, rfl⟩ := (isWholeBound_iff hhigh hbh).mp rfl
          exact ⟨_,
            isSmall_of_whole hbl hbh (asWhole_eq hlow) (asWhole_eq hhigh)⟩

/-- What the test for few whole numbers has found. The upper bound is not looked
at behind a lower one that is not whole. -/
theorem isSmall_cases {b : Bool} (hb : isSmall low high = .ok b) :
    isWholeBound low = .ok false ∧ b = false ∨ isWholeBound low = .ok true ∧
      (isWholeBound high = .ok false ∧ b = false ∨
        isWholeBound high = .ok true ∧
        ∃ m n, low.asWhole = .ok m ∧ high.asWhole = .ok n ∧
        b = decide (n - m + 1 ≤ cardinalityLimit)) := by
  obtain ⟨count?, hcount, hanswer⟩ := bind_eq_ok_iff.mp hb
  obtain ⟨bl, hbl, hcount⟩ := bind_eq_ok_iff.mp hcount
  cases bl with
  | false =>
      exact Or.inl ⟨hbl,
        Except.ok.inj (hb.symm.trans (isSmall_of_fraction hbl))⟩
  | true =>
      obtain ⟨bh, hbh, hcount⟩ := bind_eq_ok_iff.mp hcount
      refine Or.inr ⟨hbl, ?_⟩
      cases bh with
      | false =>
          exact Or.inl ⟨hbh, Except.ok.inj
            (hb.symm.trans (isSmall_of_whole_of_fraction hbl hbh))⟩
      | true =>
          obtain ⟨n, hn, hcount⟩ := bind_eq_ok_iff.mp hcount
          obtain ⟨m, hm, hcount⟩ := bind_eq_ok_iff.mp hcount
          exact Or.inr ⟨hbh, m, n, hm, hn,
            Except.ok.inj (hb.symm.trans (isSmall_of_whole hbl hbh hm hn))⟩

theorem isSmall_iff (hlow : low.Measures l) (hhigh : high.Measures h) {b : Bool}
    (hb : isSmall low high = .ok b) : b = true ↔ IsFew l h := by
  rcases isSmall_cases hb with ⟨hbl, rfl⟩ |
    ⟨hbl, ⟨hbh, rfl⟩ | ⟨hbh, m, n, hm, hn, rfl⟩⟩
  · refine iff_of_false (by decide) ?_
    rintro ⟨m, n, hm, -⟩
    exact absurd ((isWholeBound_iff hlow hbl).mpr ⟨m, hm⟩) (by decide)
  · refine iff_of_false (by decide) ?_
    rintro ⟨m, n, -, hn, -⟩
    exact absurd ((isWholeBound_iff hhigh hbh).mpr ⟨n, hn⟩) (by decide)
  · obtain ⟨m', rfl⟩ := (isWholeBound_iff hlow hbl).mp rfl
    obtain ⟨n', rfl⟩ := (isWholeBound_iff hhigh hbh).mp rfl
    cases hm.symm.trans (asWhole_eq hlow)
    cases hn.symm.trans (asWhole_eq hhigh)
    rw [decide_eq_true_iff, isFew_intCast_iff]

theorem isNull_of_measures (hbound : bound.Measures v) :
    bound.isNull = v.isNone := by
  cases hbound with
  | nothing => rfl
  | @number n q hq => cases n <;> rfl

/-- Few whole numbers are spelled out. -/
theorem isSpelledOut_iff (hlow : low.Measures l) (hhigh : high.Measures h)
    {b : Bool} (hb : isSpelledOut low high = .ok b) : b = true ↔ IsFew l h := by
  rw [isSpelledOut, isNull_of_measures hlow, isNull_of_measures hhigh] at hb
  split at hb
  · rename_i hopen
    cases hb
    refine iff_of_false (by decide) ?_
    rintro ⟨a, b, rfl, rfl, -⟩
    cases hopen
  · exact isSmall_iff hlow hhigh hb

theorem exists_isSpelledOut (hlow : low.Measures l)
    (hhigh : high.Measures h) (hlowFits : low.IsConvertible)
    (hhighFits : high.IsConvertible) : ∃ b, isSpelledOut low high = .ok b := by
  rw [isSpelledOut]
  split
  · exact ⟨false, rfl⟩
  · exact exists_isSmall hlow hhigh hlowFits hhighFits

/-- Bounds are spelled out only if both have been recognized as whole. -/
theorem isWholeBound_of_isSpelledOut (hb : isSpelledOut low high = .ok true) :
    isWholeBound low = .ok true ∧ isWholeBound high = .ok true := by
  rw [isSpelledOut] at hb
  split at hb
  · cases hb
  · rcases isSmall_cases hb with ⟨-, hfalse⟩ | ⟨hbl, ⟨-, hfalse⟩ | ⟨hbh, -⟩⟩
    · cases hfalse
    · cases hfalse
    · exact ⟨hbl, hbh⟩

/-- A whole bound is written without a fraction part, however it is held. -/
theorem entryType_eq {i : Int} (hbound : bound.Measures (some (i : Rat)))
    (hwhole : isWholeBound bound = .ok true) :
    entryType bound = .ok (.number (.int i)) := by
  have hvalue := asWhole_eq hbound
  generalize hv : some (i : Rat) = v at hbound
  cases hbound with
  | nothing => cases hv
  | @number n q hq =>
      cases n with
      | int j =>
          rw [entryType.eq_def]
          dsimp only [Json.ofNumber] at hwhole hvalue ⊢
          rw [hwhole, hvalue]
          rfl
      | double x =>
          rw [entryType.eq_def]
          dsimp only [Json.ofNumber] at hwhole hvalue ⊢
          rw [hwhole, hvalue]
          rfl

end Range

/-- What a range says of numbers: its bounds, as far as it has any, and which of
them are left out. -/
structure Bounds where
  low : Option Rat := none
  high : Option Rat := none
  omitsLow : Bool := false
  omitsHigh : Bool := false

namespace Bounds

/-- The number lies within the bounds. -/
structure Contains (b : Bounds) (x : Rat) : Prop where
  low : ∀ a ∈ b.low, if b.omitsLow then a < x else a ≤ x
  high : ∀ a ∈ b.high, if b.omitsHigh then x < a else x ≤ a

/-- The lower bound moved inward by one, if it is left out. -/
def effectiveLow (b : Bounds) : Option Rat :=
  b.low.map fun a => if b.omitsLow then a + 1 else a

/-- The upper bound moved inward by one, if it is left out. -/
def effectiveHigh (b : Bounds) : Option Rat :=
  b.high.map fun a => if b.omitsHigh then a - 1 else a

end Bounds

/-- The range has these bounds. -/
structure Range.Means (r : Range) (b : Bounds) : Prop where
  low : r.low.Measures b.low
  high : r.high.Measures b.high
  omitsLow : r.omitsLow = .ok b.omitsLow
  omitsHigh : r.omitsHigh = .ok b.omitsHigh

end Typings
