import Typings.Json.Numeral
import Typings.Number.Shortest
import Typings.Proofs.Rounding
import Mathlib.Data.List.TakeWhile
import Mathlib.Tactic.IntervalCases

/-!
The shortest text of a number is read back as that number. Seventeen digits
always hit the interval of a number, so the search for fewer digits ends inside
it; and the text spells the digits that were found, in either form.
-/

namespace Typings.Binary64

section Interval

variable {mantissa digits : Nat} {exponent power : Int}

/-- What the tests of an interval compare, over the common
unit of both sides. -/
theorem quarters_eq (a digits : Nat) (exponent power : Int) :
    ((a * twoTo exponent.toNat * tenTo (-power).toNat : Nat) : ℚ) =
        (a : ℚ) / 4 * (4 * twoTo exponent.toNat * tenTo (-power).toNat) ∧
      ((digits * tenTo power.toNat * (4 * twoTo (-exponent).toNat) : Nat) : ℚ) =
        (digits : ℚ) * 10 ^ power / 2 ^ exponent *
          (4 * twoTo exponent.toNat * tenTo (-power).toNat) := by
  have htwo : (twoTo exponent.toNat : ℚ) ≠ 0 := by
    exact_mod_cast (twoTo_pos _).ne'
  have htwo' : (twoTo (-exponent).toNat : ℚ) ≠ 0 := by
    exact_mod_cast (twoTo_pos _).ne'
  have hten : (tenTo (-power).toNat : ℚ) ≠ 0 := by
    exact_mod_cast (tenTo_pos _).ne'
  rw [← tenTo_ratio, ← twoTo_ratio]
  push_cast
  constructor
  · field_simp
  · field_simp

theorem quarters_pos (exponent power : Int) :
    (0 : ℚ) < 4 * twoTo exponent.toNat * tenTo (-power).toNat := by
  have htwo : (0 : ℚ) < twoTo exponent.toNat := by exact_mod_cast twoTo_pos _
  have hten : (0 : ℚ) < tenTo (-power).toNat := by exact_mod_cast tenTo_pos _
  positivity

theorem quarters_le_iff {a : Nat} :
    a * twoTo exponent.toNat * tenTo (-power).toNat ≤
    digits * tenTo power.toNat * (4 * twoTo (-exponent).toNat) ↔
      (a : ℚ) / 4 ≤ digits * 10 ^ power / 2 ^ exponent := by
  obtain ⟨hleft, hright⟩ := quarters_eq a digits exponent power
  rw [← @Nat.cast_le ℚ, hleft, hright,
    mul_le_mul_iff_left₀ (quarters_pos exponent power)]

theorem quarters_lt_iff {a : Nat} :
    a * twoTo exponent.toNat * tenTo (-power).toNat <
    digits * tenTo power.toNat * (4 * twoTo (-exponent).toNat) ↔
      (a : ℚ) / 4 < digits * 10 ^ power / 2 ^ exponent := by
  obtain ⟨hleft, hright⟩ := quarters_eq a digits exponent power
  rw [← @Nat.cast_lt ℚ, hleft, hright,
    mul_lt_mul_iff_left₀ (quarters_pos exponent power)]

/-- The interval holds exactly what is rounded to the number. -/
theorem contains_iff (hmantissa : 0 < mantissa) :
    (roundingInterval mantissa exponent).contains digits power = true ↔
      Catches mantissa exponent (digits * 10 ^ power / 2 ^ exponent) := by
  have hreach : reach mantissa exponent ≤ 4 * mantissa :=
    le_trans reach_le (by omega)
  have hlow : ((4 * mantissa - reach mantissa exponent : Nat) : ℚ) / 4 =
      (mantissa : ℚ) - reach mantissa exponent / 4 := by
    rw [Nat.cast_sub hreach]
    push_cast
    ring
  have hhigh : ((4 * mantissa + 2 : Nat) : ℚ) / 4 = (mantissa : ℚ) + 1 / 2 := by
    push_cast
    ring
  rw [RoundingInterval.contains, Catches, ← hlow, ← hhigh]
  change (if (mantissa % 2 == 0) = true then
      decide ((4 * mantissa - reach mantissa exponent) * twoTo exponent.toNat *
          tenTo (-power).toNat ≤
          digits * tenTo power.toNat * (4 * twoTo (-exponent).toNat)) &&
        decide (digits * tenTo power.toNat * (4 * twoTo (-exponent).toNat) ≤
          (4 * mantissa + 2) * twoTo exponent.toNat * tenTo (-power).toNat)
    else
      decide ((4 * mantissa - reach mantissa exponent) * twoTo exponent.toNat *
          tenTo (-power).toNat <
          digits * tenTo power.toNat * (4 * twoTo (-exponent).toNat)) &&
        decide (digits * tenTo power.toNat * (4 * twoTo (-exponent).toNat) <
          (4 * mantissa + 2) * twoTo exponent.toNat * tenTo (-power).toNat)) =
          true ↔ _
  by_cases heven : mantissa % 2 = 0
  · rw [if_pos (by simpa using heven), if_pos heven, Bool.and_eq_true,
      decide_eq_true_iff, decide_eq_true_iff]
    exact and_congr quarters_le_iff (by rw [← not_lt, quarters_lt_iff, not_lt])
  · rw [if_neg (by simpa using heven), if_neg heven, Bool.and_eq_true,
      decide_eq_true_iff, decide_eq_true_iff]
    exact and_congr quarters_lt_iff (by rw [← not_le, quarters_le_iff, not_le])

end Interval

section Search

variable {mantissa : Nat} {exponent power : Int}

theorem lt_pow_length (n : Nat) : n < 10 ^ (Nat.toDigits 10 n).length :=
  (Nat.length_toDigits_le_iff (by decide) Nat.length_toDigits_pos).mp le_rfl

theorem pow_length_le {n : Nat} (hn : 0 < n) :
    10 ^ ((Nat.toDigits 10 n).length - 1) ≤ n := by
  rcases Nat.eq_zero_or_pos ((Nat.toDigits 10 n).length - 1) with hone | hmore
  · rw [hone, pow_zero]
    exact hn
  · by_contra hlt
    have hlength :=
      (Nat.length_toDigits_le_iff (by decide) hmore).mpr (not_le.mp hlt)
    omega

/-- The decimal point of a quotient is not too far to the right. -/
theorem pow_decimalPoint_le {num den : Nat} (hnum : 0 < num) (hden : 0 < den) :
    (10 : ℚ) ^ (decimalPoint num den - 1) ≤ (num : ℚ) / den := by
  have hden' : (0 : ℚ) < den := by exact_mod_cast hden
  rw [decimalPoint, le_div_iff₀ hden']
  split
  · rename_i hle
    have hpos : 0 < (Nat.toDigits 10 (num / den)).length :=
      Nat.length_toDigits_pos
    have hquotient :
        10 ^ ((Nat.toDigits 10 (num / den)).length - 1) * den ≤ num :=
      le_trans (Nat.mul_le_mul_right den (pow_length_le (Nat.div_pos hle hden)))
        (Nat.div_mul_le_self num den)
    have hpower : ((Nat.toDigits 10 (num / den)).length : Int) - 1 =
        (((Nat.toDigits 10 (num / den)).length - 1 : Nat) : Int) := by omega
    rw [hpower, zpow_natCast]
    exact_mod_cast hquotient
  · rename_i hlt
    generalize hceil : (den + num - 1) / num - 1 = ceil
    have hlength := lt_pow_length ceil
    have hquotient : den ≤ num * 10 ^ (Nat.toDigits 10 ceil).length := by
      have hdiv : (den + num - 1) / num <
          10 ^ (Nat.toDigits 10 ceil).length + 1 := by omega
      have hmul := (Nat.div_lt_iff_lt_mul hnum).mp hdiv
      rw [Nat.add_mul, Nat.one_mul, Nat.mul_comm] at hmul
      omega
    have hpower : (1 : Int) - ((Nat.toDigits 10 ceil).length : Int) - 1 =
        -((Nat.toDigits 10 ceil).length : Int) := by
      omega
    rw [hpower, zpow_neg, zpow_natCast,
      inv_mul_le_iff₀ (by positivity), mul_comm]
    exact_mod_cast hquotient

/-- The two neighbours of a number on a decimal grid. -/
theorem neighbours_spec (mantissa : Nat) (exponent power : Int) :
    let below :=
      (roundingInterval mantissa exponent).mid * tenTo (-power).toNat /
      ((roundingInterval mantissa exponent).den * tenTo power.toNat)
    (below : ℚ) * 10 ^ power / 2 ^ exponent ≤ mantissa ∧
      (mantissa : ℚ) < ((below + 1 : Nat) : ℚ) * 10 ^ power / 2 ^ exponent := by
  intro below
  have hden : 0 < 4 * twoTo (-exponent).toNat * tenTo power.toNat :=
    Nat.mul_pos (Nat.mul_pos (by decide) (twoTo_pos _)) (tenTo_pos _)
  have hmantissa : ((4 * mantissa : Nat) : ℚ) / 4 = mantissa := by
    push_cast
    ring
  have hgrid (n : Nat) : n * tenTo power.toNat * (4 * twoTo (-exponent).toNat) =
      n * (4 * twoTo (-exponent).toNat * tenTo power.toNat) := by ring
  constructor
  · rw [← hmantissa, ← not_lt, ← quarters_lt_iff, not_lt, hgrid]
    exact Nat.div_mul_le_self _ _
  · rw [← hmantissa, ← quarters_lt_iff, hgrid, ← Nat.div_lt_iff_lt_mul hden]
    exact Nat.lt_succ_self _

theorem isSome_onGrid?_of_contains {i : RoundingInterval}
    (h : i.contains (i.mid * tenTo (-power).toNat / (i.den * tenTo power.toNat))
      power = true ∨
      i.contains (i.mid * tenTo (-power).toNat / (i.den * tenTo power.toNat) +
        1) power = true) :
    (i.onGrid? power).isSome = true := by
  rw [RoundingInterval.onGrid?]
  dsimp only
  split
  · rfl
  · rfl
  · rfl
  · rename_i hbelow habove
    rw [hbelow, habove] at h
    rcases h with h | h <;> cases h

theorem contains_of_onGrid? {i : RoundingInterval} {digits : Nat}
    (h : i.onGrid? power = some digits) :
    i.contains digits power = true := by
  rw [RoundingInterval.onGrid?] at h
  dsimp only at h
  split at h
  · rename_i hbelow habove
    cases h
    split
    · exact hbelow
    · exact habove
  · rename_i hbelow _
    cases h
    exact hbelow
  · rename_i _ habove
    cases h
    exact habove
  · cases h

/-- On a grid of seventeen digits one of the neighbours of a number lies
in its interval. -/
theorem isSome_onGrid? (hmantissa : 0 < mantissa)
    (hfits : Fits mantissa exponent)
    (hgrid : (10 : ℚ) ^ (power + 16) ≤ mantissa * 2 ^ exponent) :
    ((roundingInterval mantissa exponent).onGrid? power).isSome = true := by
  refine isSome_onGrid?_of_contains ?_
  rw [contains_iff hmantissa, contains_iff hmantissa]
  obtain ⟨hbelow, habove⟩ := neighbours_spec mantissa exponent power
  generalize (roundingInterval mantissa exponent).mid * tenTo (-power).toNat /
    ((roundingInterval mantissa exponent).den * tenTo power.toNat) = below
      at hbelow habove ⊢
  have hreach : (0 : ℚ) < reach mantissa exponent := by exact_mod_cast reach_pos
  by_contra hneither
  obtain ⟨hnot, hnot'⟩ := not_or.mp hneither
  have hlow : (below : ℚ) * 10 ^ power / 2 ^ exponent ≤
      mantissa - reach mantissa exponent / 4 := by
    by_contra hlt
    exact hnot (catches_of_lt (not_le.mp hlt) (by linarith))
  have hhigh : (mantissa : ℚ) + 1 / 2 ≤
      ((below + 1 : Nat) : ℚ) * 10 ^ power / 2 ^ exponent := by
    by_contra hlt
    exact hnot' (catches_of_lt (by linarith) (not_le.mp hlt))
  -- Neither neighbour lies inside, so a step of the grid is as wide as the
  -- interval.
  have hstep : ((below + 1 : Nat) : ℚ) * 10 ^ power / 2 ^ exponent =
      below * 10 ^ power / 2 ^ exponent + 10 ^ power / 2 ^ exponent := by
    push_cast
    ring
  have hwide : 1 / 2 + (reach mantissa exponent : ℚ) / 4 ≤
      10 ^ power / 2 ^ exponent := by linarith
  have htwo : (0 : ℚ) < 2 ^ exponent := by positivity
  have hmany : (10 : ℚ) ^ 16 * (10 ^ power / 2 ^ exponent) ≤ mantissa := by
    rw [← mul_div_assoc, div_le_iff₀ htwo, mul_comm, ← zpow_natCast,
      ← zpow_add₀ (by norm_num)]
    exact_mod_cast hgrid
  have hmantissa' := hfits.cast_lt
  rw [reach] at hwide
  split at hwide
  · rename_i hpower
    rw [hpower.1, cast_twoTo] at hmany
    norm_num at hmany hwide
    linarith
  · norm_num at hmany hwide hmantissa'
    linarith

/-- A search that hits within its fuel ends inside the interval. -/
theorem contains_search {i : RoundingInterval} {point : Int} {fuel count : Nat}
    (h : ∃ j < fuel, (i.onGrid? (point - (count + j : Nat))).isSome = true) :
    i.contains (i.search point fuel count).1 (i.search point fuel count).2 =
      true := by
  induction fuel generalizing count with
  | zero =>
      obtain ⟨j, hj, -⟩ := h
      cases hj
  | succ fuel ih =>
      rw [RoundingInterval.search]
      split
      · rename_i digits hdigits
        exact contains_of_onGrid? hdigits
      · rename_i hnone
        obtain ⟨j, hj, hsome⟩ := h
        cases j with
        | zero =>
            rw [Nat.add_zero, hnone] at hsome
            cases hsome
        | succ j =>
            exact ih ⟨j, by omega, by rwa [Nat.add_right_comm, Nat.add_assoc]⟩

/-- The digits that are found are rounded back to the number. -/
theorem catches_shortest (hmantissa : 0 < mantissa)
    (hfits : Fits mantissa exponent) :
    Catches mantissa exponent
      ((shortest mantissa exponent).1 * 10 ^ (shortest mantissa exponent).2 /
        2 ^ exponent) := by
  rw [← contains_iff hmantissa, shortest]
  refine contains_search ⟨16, by decide, isSome_onGrid? hmantissa hfits ?_⟩
  have hmid : 0 < (roundingInterval mantissa exponent).mid :=
    Nat.mul_pos (Nat.mul_pos (by decide) hmantissa) (twoTo_pos _)
  have hden : 0 < (roundingInterval mantissa exponent).den :=
    Nat.mul_pos (by decide) (twoTo_pos _)
  have hvalue : ((roundingInterval mantissa exponent).mid : ℚ) /
      (roundingInterval mantissa exponent).den =
      mantissa * 2 ^ exponent := by
    have htwo : (twoTo (-exponent).toNat : ℚ) ≠ 0 := by
      exact_mod_cast (twoTo_pos _).ne'
    rw [← twoTo_ratio, roundingInterval]
    push_cast
    field_simp
  have hpoint := pow_decimalPoint_le hmid hden
  rw [hvalue] at hpoint
  refine le_trans (le_of_eq ?_) hpoint
  congr 1
  push_cast
  ring

end Search

section Decimal

variable {mantissa digits : Nat} {exponent power : Int}

theorem pos_of_catches (hmantissa : 0 < mantissa)
    (hcatches : Catches mantissa exponent
      (digits * 10 ^ power / 2 ^ exponent)) : 0 < digits := by
  rcases Nat.eq_zero_or_pos digits with rfl | hpos
  · have hlow := hcatches.half.1
    have hone : (1 : ℚ) ≤ mantissa := by exact_mod_cast hmantissa
    rw [Nat.cast_zero, zero_mul, zero_div] at hlow
    linarith
  · exact hpos

theorem smallest_gap : (10 : ℚ) ^ (-330 : Int) < 2⁻¹ * 2 ^ (-1074 : Int) := by
  have hgap : 2 * twoTo 1074 < tenTo 330 := by decide +kernel
  have hgap : (2 : ℚ) * 2 ^ 1074 < 10 ^ 330 := by
    rw [← cast_twoTo, ← cast_tenTo]
    exact_mod_cast hgap
  rw [zpow_neg, zpow_neg, ← mul_inv]
  exact (inv_lt_inv₀ (by positivity) (by positivity)).mpr hgap

theorem largest_gap : (2 : ℚ) ^ 53 * 2 ^ (971 : Int) < 10 ^ (320 : Int) := by
  have hgap : twoTo 53 * twoTo 971 < tenTo 320 := by decide +kernel
  have hgap : (2 : ℚ) ^ 53 * 2 ^ 971 < 10 ^ 320 := by
    rw [← cast_twoTo, ← cast_twoTo, ← cast_tenTo]
    exact_mod_cast hgap
  exact hgap

/-- A decimal that a number catches is neither too small nor too
large to be formed. -/
theorem size_of_catches (hmantissa : 0 < mantissa)
    (hfits : Fits mantissa exponent)
    (hcatches : Catches mantissa exponent
      (digits * 10 ^ power / 2 ^ exponent)) :
    -330 ≤ ((Nat.toDigits 10 digits).length : Int) + power ∧
      ((Nat.toDigits 10 digits).length : Int) + power ≤ 320 := by
  have hten : (0 : ℚ) < 10 ^ power := by positivity
  have htwo : (0 : ℚ) < 2 ^ exponent := by positivity
  obtain ⟨hlow, hhigh⟩ := hcatches.half
  rw [le_div_iff₀ htwo] at hlow
  rw [div_le_iff₀ htwo] at hhigh
  have hone : (1 : ℚ) ≤ mantissa := by exact_mod_cast hmantissa
  have hsmall := hfits.cast_lt
  constructor
  · -- Even the smallest number is far above what is not formed.
    by_contra hlt
    have hdigits : (digits : ℚ) ≤ 10 ^ (Nat.toDigits 10 digits).length := by
      exact_mod_cast (lt_pow_length digits).le
    have hplace : (2 : ℚ) ^ (-1074 : Int) ≤ 2 ^ exponent :=
      zpow_le_zpow_right₀ (by norm_num) hfits.low
    have hvalue : (digits : ℚ) * 10 ^ power ≤ 10 ^ (-330 : Int) := by
      calc (digits : ℚ) * 10 ^ power ≤
        10 ^ (Nat.toDigits 10 digits).length * 10 ^ power := by gcongr
        _ = 10 ^ (((Nat.toDigits 10 digits).length : Int) + power) := by
            rw [zpow_add₀ (by norm_num), zpow_natCast]
        _ ≤ 10 ^ (-330 : Int) := zpow_le_zpow_right₀ (by norm_num) (by omega)
    have hhalf :
        2⁻¹ * (2 : ℚ) ^ (-1074 : Int) ≤ 10 ^ (-330 : Int) := by nlinarith
    exact absurd hhalf (not_le.mpr smallest_gap)
  · by_contra hlt
    have hdigits :
        (10 : ℚ) ^ ((Nat.toDigits 10 digits).length - 1) ≤ digits := by
      exact_mod_cast pow_length_le (pos_of_catches hmantissa hcatches)
    have hplace : (2 : ℚ) ^ exponent ≤ 2 ^ (971 : Int) :=
      zpow_le_zpow_right₀ (by norm_num) hfits.high
    have hlength : 0 < (Nat.toDigits 10 digits).length :=
      Nat.length_toDigits_pos
    have hvalue : (10 : ℚ) ^ (320 : Int) ≤ digits * 10 ^ power := by
      calc (10 : ℚ) ^ (320 : Int) ≤
        10 ^ ((((Nat.toDigits 10 digits).length - 1 : Nat) : Int) + power) :=
            zpow_le_zpow_right₀ (by norm_num) (by omega)
        _ = 10 ^ ((Nat.toDigits 10 digits).length - 1) * 10 ^ power := by
            rw [zpow_add₀ (by norm_num), zpow_natCast]
        _ ≤ digits * 10 ^ power := by gcongr
    have hbound : (10 : ℚ) ^ (320 : Int) ≤ 2 ^ 53 * 2 ^ (971 : Int) := by
      calc (10 : ℚ) ^ (320 : Int) ≤ (mantissa + 1 / 2) * 2 ^ exponent :=
        le_trans hvalue hhigh
        _ ≤ 2 ^ 53 * 2 ^ (971 : Int) := by gcongr; linarith
    exact absurd hbound (not_le.mpr largest_gap)

/-- A decimal that a number catches is rounded to it. -/
theorem ofDecimal_eq (negative : Bool)
    (hmantissa : 0 < mantissa) (hfits : Fits mantissa exponent)
    (hcatches : Catches mantissa exponent
      (digits * 10 ^ power / 2 ^ exponent)) :
    ofDecimal negative digits power = .finite negative mantissa exponent := by
  have hdigits := pos_of_catches hmantissa hcatches
  obtain ⟨hlow, hhigh⟩ := size_of_catches hmantissa hfits hcatches
  have hvalue :
      ((digits * tenTo power.toNat : Nat) : ℚ) / (tenTo (-power).toNat : Nat) =
        digits * 10 ^ power := by
    rw [← tenTo_ratio]
    push_cast
    rw [mul_div_assoc]
  rw [ofDecimal, if_neg (by omega), if_neg (by omega)]
  refine ofQuotient_eq negative (Nat.mul_pos hdigits (tenTo_pos _))
    (tenTo_pos _) hfits ?_
  rwa [hvalue]

end Decimal

section Digits

open Json

theorem digitsValue_append (cs ds : List Char) :
    digitsValue (cs ++ ds) =
      digitsValue cs * 10 ^ ds.length + digitsValue ds := by
  change Nat.ofDigitChars 10 (cs ++ ds) 0 =
    Nat.ofDigitChars 10 cs 0 * 10 ^ ds.length + Nat.ofDigitChars 10 ds 0
  rw [Nat.ofDigitChars_append, Nat.ofDigitChars_eq_ofDigitChars_zero,
    Nat.mul_comm]

theorem digitsValue_replicate_zero (n : Nat) :
    digitsValue (List.replicate n '0') = 0 := by
  change Nat.ofDigitChars 10 (List.replicate n '0') 0 = 0
  rw [Nat.ofDigitChars_replicate_zero, Nat.mul_zero]

theorem digitsValue_toDigits (n : Nat) : digitsValue (Nat.toDigits 10 n) = n :=
  Nat.ofDigitChars_ten_toDigits

/-- The text is a row of plain digits. -/
def IsDigits (cs : List Char) : Prop :=
  ∀ c ∈ cs, c.isDigit = true

theorem isDigits_append {cs ds : List Char} :
    IsDigits (cs ++ ds) ↔ IsDigits cs ∧ IsDigits ds :=
  List.forall_mem_append

theorem isDigits_toDigits (n : Nat) : IsDigits (Nat.toDigits 10 n) :=
  fun _ => Nat.isDigit_of_mem_toDigits (by decide) (by decide)

theorem isDigits_zeros (n : Nat) : IsDigits (List.replicate n '0') := by
  intro c hc
  rw [List.eq_of_mem_replicate hc]
  rfl

/-- The layout leaves out zeros at the end and nothing else. -/
theorem layout_spec (digits : Nat) (power : Int) :
    ∃ zeros, Nat.toDigits 10 digits =
      (layout digits power).1 ++ List.replicate zeros '0' ∧
      (layout digits power).2 =
        ((layout digits power).1.length : Int) + zeros + power := by
  generalize hds : Nat.toDigits 10 digits = ds
  have hzeros : ds.reverse.takeWhile (· == '0') =
      List.replicate (ds.reverse.takeWhile (· == '0')).length '0' :=
    List.eq_replicate_of_mem fun c hc => by
      simpa using List.mem_takeWhile_imp hc
  have hsplit : ds = (ds.reverse.dropWhile (· == '0')).reverse ++
      List.replicate (ds.reverse.takeWhile (· == '0')).length '0' := by
    rw [← List.reverse_replicate, ← hzeros, ← List.reverse_append,
      List.takeWhile_append_dropWhile, List.reverse_reverse]
  have hlayout : layout digits power =
      ((ds.reverse.dropWhile (· == '0')).reverse, ds.length + power) := by
    rw [layout, hds]
  refine ⟨(ds.reverse.takeWhile (· == '0')).length, by
    rw [hlayout]; exact hsplit, ?_⟩
  rw [hlayout]
  have hlength := congrArg List.length hsplit
  rw [List.length_append, List.length_replicate] at hlength
  dsimp only
  omega

/-- The digits of the layout stand for the decimal that was laid out. -/
theorem layout_value (digits : Nat) (power : Int) :
    (digitsValue (layout digits power).1 : ℚ) *
      10 ^ ((layout digits power).2 - (layout digits power).1.length) =
      digits * 10 ^ power := by
  obtain ⟨zeros, hdigits, hpoint⟩ := layout_spec digits power
  have hvalue := digitsValue_toDigits digits
  rw [hdigits, digitsValue_append, digitsValue_replicate_zero,
    List.length_replicate, Nat.add_zero] at hvalue
  have hpower : (layout digits power).2 - (layout digits power).1.length =
      (zeros : Int) + power := by omega
  rw [hpower, zpow_add₀ (by norm_num), zpow_natCast, ← mul_assoc]
  congr 1
  exact_mod_cast hvalue

theorem isDigits_layout (digits : Nat) (power : Int) :
    IsDigits (layout digits power).1 := by
  obtain ⟨zeros, hdigits, -⟩ := layout_spec digits power
  have hall := isDigits_toDigits digits
  rw [hdigits, isDigits_append] at hall
  exact hall.1

theorem layout_ne_nil {digits : Nat} (hdigits : 0 < digits) (power : Int) :
    (layout digits power).1 ≠ [] := by
  intro hnil
  have hvalue := layout_value digits power
  rw [hnil] at hvalue
  have hpos : (0 : ℚ) < digits * 10 ^ power := by
    have : (0 : ℚ) < digits := by exact_mod_cast hdigits
    positivity
  rw [← hvalue] at hpos
  simp [digitsValue] at hpos

/-- There are ten digits. -/
theorem mem_digits_of_isDigit {c : Char} (h : c.isDigit = true) :
    c ∈ "0123456789".toList := by
  obtain ⟨hlow, hhigh⟩ := Char.isDigit_iff_toNat.mp h
  have hcode : c = Char.ofNat c.toNat := (Char.ofNat_toNat c).symm
  have hlow : 48 ≤ c.toNat := hlow
  have hhigh : c.toNat ≤ 57 := hhigh
  generalize c.toNat = n at hcode hlow hhigh
  interval_cases n <;> simp [hcode]

theorem toLower_of_isDigit {c : Char} (h : c.isDigit = true) :
    c.toLower = c := by
  have hall : ∀ d ∈ "0123456789".toList, d.toLower = d := by simp
  exact hall c (mem_digits_of_isDigit h)

/-- A text that begins with a digit is no name of what is not finite. -/
theorem ne_name {c : Char} (hc : c.isDigit = true) (cs : List Char) :
    ∀ word ∈ ["inf", "infinity", "nan"],
    (String.ofList ((c :: cs).map Char.toLower) == word) = false := by
  intro word hword
  have hhead : ∀ d ∈ word.toList.head?, d.isDigit = false := by
    simp only [List.mem_cons, List.not_mem_nil, or_false] at hword
    rcases hword with rfl | rfl | rfl <;>
    · rintro d ⟨⟩
      rfl
  rw [beq_eq_false_iff_ne]
  rintro rfl
  rw [String.toList_ofList, List.map_cons, toLower_of_isDigit hc] at hhead
  rw [hhead c rfl] at hc
  cases hc

theorem span_digits {cs rest : List Char} (hcs : IsDigits cs)
    (hrest : ∀ c ∈ rest.head?, c.isDigit = false) :
    (cs ++ rest).takeWhile Char.isDigit = cs ∧
      (cs ++ rest).dropWhile Char.isDigit = rest := by
  rw [List.takeWhile_append_of_pos hcs, List.dropWhile_append_of_pos hcs]
  cases rest with
  | nil => simp
  | cons c after =>
      have hc := hrest c rfl
      simp [hc]

section Numeral

variable (negative : Bool) {whole fraction tail : List Char} {exponent : Int}

/-- Digits with a point among them, and an exponent. -/
theorem magnitudeOf?_point (hsome : whole ≠ [])
    (hwhole : IsDigits whole) (hfraction : IsDigits fraction)
    (htail : ∀ c ∈ tail.head?, c.isDigit = false)
    (hexponent : exponentOf? tail = some exponent) :
    magnitudeOf? negative (whole ++ '.' :: (fraction ++ tail)) =
      some (.ofDecimal negative (digitsValue (whole ++ fraction))
        (exponent - fraction.length)) := by
  have hpoint :
      ∀ c ∈ ('.' :: (fraction ++ tail)).head?, c.isDigit = false := by simp
  obtain ⟨htake, hdrop⟩ := span_digits hwhole hpoint
  obtain ⟨htake', hdrop'⟩ := span_digits hfraction htail
  obtain ⟨c, rest, rfl⟩ := List.exists_cons_of_ne_nil hsome
  have hname := ne_name (hwhole c List.mem_cons_self)
  rw [magnitudeOf?]
  simp only [List.cons_append, hname _ "inf" (by decide),
    hname _ "infinity" (by decide), hname _ "nan" (by decide)]
  rw [← List.cons_append, htake, hdrop]
  simp only [htake', hdrop', hexponent]
  rfl

/-- Digits without a point, and an exponent. -/
theorem magnitudeOf?_whole (hsome : whole ≠ []) (hwhole : IsDigits whole)
    (htail : ∀ c ∈ tail.head?, c.isDigit = false ∧ c ≠ '.')
    (hexponent : exponentOf? tail = some exponent) :
    magnitudeOf? negative (whole ++ tail) =
      some (.ofDecimal negative (digitsValue whole) exponent) := by
  obtain ⟨htake, hdrop⟩ := span_digits hwhole fun c hc => (htail c hc).1
  obtain ⟨c, rest, rfl⟩ := List.exists_cons_of_ne_nil hsome
  have hname := ne_name (hwhole c List.mem_cons_self)
  rw [magnitudeOf?]
  simp only [List.cons_append, hname _ "inf" (by decide),
    hname _ "infinity" (by decide), hname _ "nan" (by decide)]
  rw [← List.cons_append, htake, hdrop]
  simp only [Bool.or_self, Bool.false_eq_true, if_false, List.isEmpty_cons,
    Bool.false_and]
  split
  · exact absurd rfl (htail '.' rfl).2
  · simp [hexponent]

end Numeral

section Texts

variable (negative : Bool) {ds : List Char}

/-- The text is read as the decimal with these digits and this decimal point. -/
def Spells (negative : Bool) (text ds : List Char) (point : Int) : Prop :=
  ∃ digits power,
    magnitudeOf? negative text = some (.ofDecimal negative digits power) ∧
    (digits : ℚ) * 10 ^ power = digitsValue ds * 10 ^ (point - ds.length)

theorem spells_positional (hsome : ds ≠ []) (hds : IsDigits ds) (point : Int) :
    Spells negative (positional ds point) ds point := by
  have hnone : ∀ c ∈ ([] : List Char).head?, c.isDigit = false := by simp
  have hzero : IsDigits ['0'] := by simp [IsDigits]
  rw [positional]
  split
  · rename_i hpoint
    have hzeros : IsDigits (List.replicate (-point).toNat '0' ++ ds) :=
      isDigits_append.mpr ⟨isDigits_zeros _, hds⟩
    have hread := magnitudeOf?_point negative (by simp) hzero hzeros hnone rfl
    rw [List.append_nil] at hread
    refine ⟨_, _, hread, ?_⟩
    rw [digitsValue_append, digitsValue_append, digitsValue_replicate_zero]
    have hpower : (0 : Int) - (List.replicate (-point).toNat '0' ++ ds).length =
        point - ds.length := by
      rw [List.length_append, List.length_replicate]
      omega
    rw [hpower]
    simp [digitsValue]
  · rename_i hpoint
    split
    · rename_i hlength
      have hzeros :
          IsDigits (ds ++ List.replicate (point.toNat - ds.length) '0') :=
        isDigits_append.mpr ⟨hds, isDigits_zeros _⟩
      have hread :=
        magnitudeOf?_point negative (by simp [hsome]) hzeros hzero hnone rfl
      refine ⟨_, _, hread, ?_⟩
      rw [digitsValue_append, digitsValue_append, digitsValue_replicate_zero,
        List.length_replicate]
      have hpower : (point : Int) - ds.length =
          ((point.toNat - ds.length : Nat) : Int) := by omega
      rw [hpower, zpow_natCast]
      simp [digitsValue]
    · rename_i hlength
      have hsplit : IsDigits (ds.take point.toNat ++ ds.drop point.toNat) := by
        rwa [List.take_append_drop]
      have htake : ds.take point.toNat ≠ [] := by
        rw [ne_eq, List.take_eq_nil_iff, not_or]
        exact ⟨by omega, hsome⟩
      obtain ⟨hwhole, hfraction⟩ := isDigits_append.mp hsplit
      have hread := magnitudeOf?_point negative htake hwhole hfraction hnone rfl
      rw [List.append_nil, List.take_append_drop] at hread
      refine ⟨_, _, hread, ?_⟩
      have hpower :
          (0 : Int) - (ds.drop point.toNat).length = point - ds.length := by
        rw [List.length_drop]
        omega
      rw [hpower]

/-- An exponent with a sign is read as the number it spells. -/
theorem exponentOf?_signed {exponent : Int} {digits : List Char}
    (hsome : digits ≠ []) (hdigits : IsDigits digits)
    (hvalue : digitsValue digits = exponent.natAbs) :
    exponentOf? ('e' :: (if exponent < 0 then '-' else '+') :: digits) =
      some exponent := by
  have hempty : digits.isEmpty = false := by simpa using hsome
  have hall : digits.all Char.isDigit = true := List.all_eq_true.mpr hdigits
  have he : ('e'.toLower != 'e') = false := by decide
  by_cases hnegative : exponent < 0
  · rw [if_pos hnegative, exponentOf?]
    simp only [cutSign, hempty, hall, hvalue, he, Bool.or_self, Bool.not_true,
      Bool.false_eq_true, if_false, if_true]
    rw [Option.some.injEq]
    omega
  · rw [if_neg hnegative, exponentOf?]
    simp only [cutSign, hempty, hall, hvalue, he, Bool.or_self, Bool.not_true,
      Bool.false_eq_true, if_false]
    rw [Option.some.injEq]
    omega

theorem spells_scientific (hsome : ds ≠ []) (hds : IsDigits ds) (point : Int) :
    Spells negative (scientific ds point) ds point := by
  have hsplit : IsDigits (ds.take 1 ++ ds.drop 1) := by
    rwa [List.take_append_drop]
  have htake : ds.take 1 ≠ [] := by simpa using hsome
  have hlength : 0 < ds.length := List.length_pos_iff.mpr hsome
  have hdigits := isDigits_toDigits (point - 1).natAbs
  have hvalue := digitsValue_toDigits (point - 1).natAbs
  have hne : Nat.toDigits 10 (point - 1).natAbs ≠ [] := Nat.toDigits_ne_nil
  have hexponent : exponentOf? ('e' :: (if point - 1 < 0 then '-' else '+') ::
      (if (Nat.toDigits 10 (point - 1).natAbs).length < 2 then
          '0' :: Nat.toDigits 10 (point - 1).natAbs
        else Nat.toDigits 10 (point - 1).natAbs)) = some (point - 1) := by
    by_cases hpad : (Nat.toDigits 10 (point - 1).natAbs).length < 2
    · have hpadded : digitsValue ('0' :: Nat.toDigits 10 (point - 1).natAbs) =
          (point - 1).natAbs := by
        rw [← List.singleton_append, digitsValue_append, hvalue]
        simp [digitsValue]
      rw [if_pos hpad]
      exact exponentOf?_signed (by simp)
        (List.forall_mem_cons.mpr ⟨rfl, hdigits⟩) hpadded
    · rw [if_neg hpad]
      exact exponentOf?_signed hne hdigits hvalue
  rw [scientific]
  split
  · rename_i hone
    have hread := magnitudeOf?_whole negative htake
      (isDigits_append.mp hsplit).1 (by simp) hexponent
    rw [List.append_nil]
    refine ⟨_, _, hread, ?_⟩
    rw [List.take_of_length_le hone]
    congr 2
    omega
  · have hread := magnitudeOf?_point negative htake
      (isDigits_append.mp hsplit).1 (isDigits_append.mp hsplit).2
      (by simp) hexponent
    rw [List.append_assoc, List.cons_append]
    refine ⟨_, _, hread, ?_⟩
    rw [List.take_append_drop, List.length_drop]
    congr 2
    omega

end Texts

/-- The shortest text is a row of digits in one of the two forms, and the number
catches what they stand for. -/
theorem decimalChars_cases {mantissa : Nat} {exponent : Int}
    (hfits : Fits mantissa exponent) :
    ∃ ds point, ds ≠ [] ∧ IsDigits ds ∧
      (decimalChars mantissa exponent = positional ds point ∨
        decimalChars mantissa exponent = scientific ds point) ∧
      (0 < mantissa → Catches mantissa exponent
        (digitsValue ds * 10 ^ (point - ds.length) / 2 ^ exponent)) := by
  rw [decimalChars]
  split
  · rename_i hzero
    exact ⟨['0'], 1, by simp, isDigits_zeros 1, Or.inl rfl,
      fun hpos => absurd hzero hpos.ne'⟩
  · rename_i hne
    have hpos : 0 < mantissa := Nat.pos_of_ne_zero hne
    have hcatches := catches_shortest hpos hfits
    generalize shortest mantissa exponent = found at hcatches
    obtain ⟨digits, power⟩ := found
    refine ⟨(layout digits power).1, (layout digits power).2,
      layout_ne_nil (pos_of_catches hpos hcatches) power,
      isDigits_layout digits power, ?_, fun _ => by rwa [layout_value]⟩
    dsimp only
    split
    · exact Or.inr rfl
    · exact Or.inl rfl

/-- Every number that 64 bits hold is read back from its shortest text. -/
theorem magnitudeOf?_decimalChars (negative : Bool) {mantissa : Nat}
    {exponent : Int} (hfits : Fits mantissa exponent) :
    magnitudeOf? negative (decimalChars mantissa exponent) =
      some (.finite negative mantissa exponent) := by
  rcases Nat.eq_zero_or_pos mantissa with rfl | hpos
  · have hexponent : exponent = minExponent :=
      hfits.full.resolve_left (by decide)
    subst hexponent
    cases negative <;> decide +kernel
  · obtain ⟨ds, point, hsome, hds, hform, hcatches⟩ := decimalChars_cases hfits
    have hspells :
        Spells negative (decimalChars mantissa exponent) ds point := by
      rcases hform with hform | hform
      · rw [hform]
        exact spells_positional negative hsome hds point
      · rw [hform]
        exact spells_scientific negative hsome hds point
    obtain ⟨digits, power, hread, hvalue⟩ := hspells
    rw [hread, ofDecimal_eq negative hpos hfits (hvalue ▸ hcatches hpos)]

end Digits

end Typings.Binary64
