import Typings.Proofs.Bounds
import Mathlib.Algebra.Order.Field.Power
import Mathlib.Tactic.FieldSimp
import Mathlib.Tactic.Positivity

/-!
Which rationals are rounded to a binary64 number. They lie between the
midpoints to its two neighbours, with the ends if its mantissa is even; the
numbers that 64 bits hold are those with a mantissa of 53 bits, or of fewer at
the smallest exponent.
-/

namespace Typings.Binary64

/-- The mantissa and exponent are those of a number that 64 bits hold. -/
structure Fits (mantissa : Nat) (exponent : Int) : Prop where
  small : mantissa < twoTo 53
  low : minExponent ≤ exponent
  high : exponent ≤ maxExponent
  full : twoTo 52 ≤ mantissa ∨ exponent = minExponent

instance (mantissa : Nat) (exponent : Int) :
    Decidable (Fits mantissa exponent) :=
  decidable_of_iff (mantissa < twoTo 53 ∧ minExponent ≤ exponent ∧
      exponent ≤ maxExponent ∧
      (twoTo 52 ≤ mantissa ∨ exponent = minExponent))
    ⟨fun h => ⟨h.1, h.2.1, h.2.2.1, h.2.2.2⟩,
      fun h => ⟨h.small, h.low, h.high, h.full⟩⟩

/-- How far the number's interval reaches down, in quarters
of the last place. -/
def reach (mantissa : Nat) (exponent : Int) : Nat :=
  if mantissa = twoTo 52 ∧ minExponent < exponent then 1 else 2

/-- The rational, counted in the last place of the number, is rounded
to its mantissa. -/
def Catches (mantissa : Nat) (exponent : Int) (s : ℚ) : Prop :=
  if mantissa % 2 = 0 then (mantissa : ℚ) - reach mantissa exponent / 4 ≤ s ∧
    s ≤ mantissa + 1 / 2
  else (mantissa : ℚ) - reach mantissa exponent / 4 < s ∧ s < mantissa + 1 / 2

section Catches

variable {mantissa : Nat} {exponent : Int} {s : ℚ}

theorem reach_pos : 0 < reach mantissa exponent := by
  rw [reach]
  split <;> decide

theorem reach_le : reach mantissa exponent ≤ 2 := by
  rw [reach]
  split <;> decide

theorem Catches.bounds (h : Catches mantissa exponent s) :
    (mantissa : ℚ) - reach mantissa exponent / 4 ≤ s ∧
    s ≤ mantissa + 1 / 2 := by
  rw [Catches] at h
  split at h
  · exact h
  · exact ⟨h.1.le, h.2.le⟩

theorem Catches.half (h : Catches mantissa exponent s) :
    (mantissa : ℚ) - 1 / 2 ≤ s ∧ s ≤ mantissa + 1 / 2 := by
  have hreach : (reach mantissa exponent : ℚ) ≤ 2 := by exact_mod_cast reach_le
  obtain ⟨hlow, hhigh⟩ := h.bounds
  exact ⟨by linarith, hhigh⟩

theorem catches_of_lt (hlow : (mantissa : ℚ) - reach mantissa exponent / 4 < s)
    (hhigh : s < mantissa + 1 / 2) :
    Catches mantissa exponent s := by
  rw [Catches]
  split
  · exact ⟨hlow.le, hhigh.le⟩
  · exact ⟨hlow, hhigh⟩

end Catches

theorem cast_twoTo (n : Nat) : (twoTo n : ℚ) = 2 ^ n :=
  Nat.cast_pow 2 n

theorem cast_tenTo (n : Nat) : (tenTo n : ℚ) = 10 ^ n :=
  Nat.cast_pow 10 n

theorem twoTo_ratio (e : Int) :
    (twoTo e.toNat : ℚ) / twoTo (-e).toNat = 2 ^ e := by
  rw [cast_twoTo, cast_twoTo, ← zpow_natCast, ← zpow_natCast,
    ← zpow_sub₀ two_ne_zero]
  congr 1
  omega

theorem tenTo_ratio (e : Int) :
    (tenTo e.toNat : ℚ) / tenTo (-e).toNat = 10 ^ e := by
  rw [cast_tenTo, cast_tenTo, ← zpow_natCast, ← zpow_natCast,
    ← zpow_sub₀ (by norm_num)]
  congr 1
  omega

/-- A quotient within half of a whole number is rounded to it, a half only if
that number is even. -/
theorem roundHalfEven_eq {num den n : Nat} (hden : 0 < den)
    (hlow : 2 * n * den ≤ 2 * num + den) (hhigh : 2 * num ≤ 2 * n * den + den)
    (hties : n % 2 = 0 ∨ 2 * n * den < 2 * num + den ∧
      2 * num < 2 * n * den + den) :
    roundHalfEven num den = n := by
  obtain ⟨a, r, hr, rfl⟩ : ∃ a r, r < den ∧ num = den * a + r :=
    ⟨num / den, num % den, Nat.mod_lt _ hden, (Nat.div_add_mod _ _).symm⟩
  have hquotient : (den * a + r) / den = a := by
    rw [Nat.mul_add_div hden, Nat.div_eq_of_lt hr, Nat.add_zero]
  have hrest : (den * a + r) % den = r := by
    rw [Nat.mul_add_mod, Nat.mod_eq_of_lt hr]
  -- The whole number is the quotient or the next one.
  have hn : n = a ∨ n = a + 1 := by
    have hle : n ≤ a + 1 := by
      by_contra h
      have : 2 * (a + 2) * den ≤ 2 * n * den :=
        Nat.mul_le_mul_right _ (by omega)
      nlinarith
    have hge : a ≤ n := by
      by_contra h
      have : 2 * (n + 1) * den ≤ 2 * a * den :=
        Nat.mul_le_mul_right _ (by omega)
      nlinarith
    omega
  rw [roundHalfEven, hquotient, hrest]
  rcases hn with rfl | rfl
  · have hr2 : 2 * r ≤ den := by nlinarith
    have htie : n % 2 = 0 ∨ 2 * r < den :=
      hties.imp_right fun h => by nlinarith [h.2]
    split
    · rfl
    · rw [if_neg (by omega)]
      omega
  · have hr2 : den ≤ 2 * r := by nlinarith
    have htie : (a + 1) % 2 = 0 ∨ den < 2 * r :=
      hties.imp_right fun h => by nlinarith [h.1]
    rw [if_neg (by omega)]
    split
    · rfl
    · omega

/-- The same for a quotient counted in the last place of a number. -/
theorem roundHalfEven_eq_of_near {num den n : Nat} (hden : 0 < den) {s : ℚ}
    (hs : (num : ℚ) / den = s) (hnear : (n : ℚ) - 1 / 2 ≤ s ∧ s ≤ n + 1 / 2)
    (hties : n % 2 = 0 ∨ (n : ℚ) - 1 / 2 < s ∧ s < n + 1 / 2) :
    roundHalfEven num den = n := by
  have hden' : (0 : ℚ) < den := by exact_mod_cast hden
  have hnum : (num : ℚ) = s * den := by rw [← hs, div_mul_cancel₀ _ hden'.ne']
  refine roundHalfEven_eq hden ?_ ?_ (hties.imp_right fun h => ⟨?_, ?_⟩)
  · have : (2 * n * den : ℚ) ≤ 2 * num + den := by
      rw [hnum]; nlinarith [hnear.1]
    exact_mod_cast this
  · have : (2 * num : ℚ) ≤ 2 * n * den + den := by
      rw [hnum]; nlinarith [hnear.2]
    exact_mod_cast this
  · have : (2 * n * den : ℚ) < 2 * num + den := by rw [hnum]; nlinarith [h.1]
    exact_mod_cast this
  · have : (2 * num : ℚ) < 2 * n * den + den := by rw [hnum]; nlinarith [h.2]
    exact_mod_cast this

/-- The power of two below a quotient. -/
theorem floorLog2_spec {num den : Nat} (hnum : 0 < num) (hden : 0 < den) :
    (2 : ℚ) ^ floorLog2 num den ≤ (num : ℚ) / den ∧ (num : ℚ) / den <
    2 ^ (floorLog2 num den + 1) := by
  have hden' : (0 : ℚ) < den := by exact_mod_cast hden
  have htwo : (2 : ℚ) ≠ 0 := two_ne_zero
  have hnumLow : (2 : ℚ) ^ (num.log2 : Int) ≤ num := by
    exact_mod_cast Nat.log2_self_le hnum.ne'
  have hnumHigh : (num : ℚ) < 2 ^ (num.log2 + 1 : Int) := by
    exact_mod_cast Nat.lt_log2_self
  have hdenLow : (2 : ℚ) ^ (den.log2 : Int) ≤ den := by
    exact_mod_cast Nat.log2_self_le hden.ne'
  have hdenHigh : (den : ℚ) < 2 ^ (den.log2 + 1 : Int) := by
    exact_mod_cast Nat.lt_log2_self
  rw [floorLog2]
  generalize hk : (num.log2 - den.log2 : Int) = k
  have htest : den * twoTo k.toNat ≤ num * twoTo (-k).toNat ↔
      (2 : ℚ) ^ k ≤ (num : ℚ) / den := by
    have hpos : (0 : ℚ) < twoTo (-k).toNat := by exact_mod_cast twoTo_pos _
    rw [← twoTo_ratio, div_le_div_iff₀ hpos hden', ← Nat.cast_mul,
      ← Nat.cast_mul, Nat.cast_le, mul_comm den]
  split
  · rename_i h
    refine ⟨htest.mp h, ?_⟩
    rw [div_lt_iff₀ hden']
    calc (num : ℚ) < 2 ^ (num.log2 + 1 : Int) := hnumHigh
      _ = 2 ^ (k + 1) * 2 ^ (den.log2 : Int) := by
        rw [← zpow_add₀ htwo]; congr 1; omega
      _ ≤ 2 ^ (k + 1) * den := by gcongr
  · rename_i h
    rw [htest, not_le] at h
    refine ⟨?_, by simpa using h⟩
    rw [le_div_iff₀ hden']
    calc (2 : ℚ) ^ (k - 1) * den ≤
      2 ^ (k - 1) * 2 ^ (den.log2 + 1 : Int) := by gcongr
      _ = 2 ^ (num.log2 : Int) := by rw [← zpow_add₀ htwo]; congr 1; omega
      _ ≤ num := hnumLow

section Caught

variable {mantissa num den : Nat} {exponent : Int}

/-- A quotient counted in the last place of a number. -/
theorem scaled_eq (hden : 0 < den) (e : Int) :
    ((num * twoTo (-e).toNat : Nat) : ℚ) / (den * twoTo e.toNat : Nat) =
      (num : ℚ) / den / 2 ^ e := by
  have hden' : (den : ℚ) ≠ 0 := by exact_mod_cast hden.ne'
  have hlow : (twoTo (-e).toNat : ℚ) ≠ 0 := by exact_mod_cast (twoTo_pos _).ne'
  have hhigh : (twoTo e.toNat : ℚ) ≠ 0 := by exact_mod_cast (twoTo_pos _).ne'
  rw [← twoTo_ratio]
  push_cast
  field_simp

theorem Fits.cast_lt (h : Fits mantissa exponent) :
    (mantissa : ℚ) + 1 ≤ 2 ^ 53 := by
  rw [← cast_twoTo]
  exact_mod_cast h.small

/-- How far up a quotient can reach, by how often it holds the last
place of a number. -/
theorem floorLog2_lt (hnum : 0 < num) (hden : 0 < den) {k : Int} {s : ℚ}
    (hs : (num : ℚ) / den / 2 ^ exponent = s)
    (hhigh : s < 2 ^ k) : floorLog2 num den < k + exponent := by
  have htwo : (0 : ℚ) < 2 ^ exponent := by positivity
  have hvalue : (num : ℚ) / den = s * 2 ^ exponent := by
    rw [← hs, div_mul_cancel₀ _ htwo.ne']
  have hlt : (2 : ℚ) ^ floorLog2 num den < 2 ^ (k + exponent) := by
    refine lt_of_le_of_lt (floorLog2_spec hnum hden).1 ?_
    rw [hvalue, zpow_add₀ two_ne_zero]
    gcongr
  exact (zpow_lt_zpow_iff_right₀ one_lt_two).mp hlt

theorem floorLog2_eq (hnum : 0 < num) (hden : 0 < den) {k : Int} {s : ℚ}
    (hs : (num : ℚ) / den / 2 ^ exponent = s)
    (hlow : 2 ^ k ≤ s) (hhigh : s < 2 ^ (k + 1)) :
    floorLog2 num den = k + exponent := by
  have htwo : (0 : ℚ) < 2 ^ exponent := by positivity
  have hvalue : (num : ℚ) / den = s * 2 ^ exponent := by
    rw [← hs, div_mul_cancel₀ _ htwo.ne']
  have hle : (2 : ℚ) ^ (k + exponent) < 2 ^ (floorLog2 num den + 1) := by
    refine lt_of_le_of_lt ?_ (floorLog2_spec hnum hden).2
    rw [hvalue, zpow_add₀ two_ne_zero]
    gcongr
  have hle := (zpow_lt_zpow_iff_right₀ one_lt_two).mp hle
  have hge := floorLog2_lt hnum hden hs hhigh
  omega

/-- A quotient that holds the last place of a number often enough is
rounded in that place. -/
theorem ofQuotient_eq_of_full (negative : Bool) (hnum : 0 < num)
    (hden : 0 < den) (hfits : Fits mantissa exponent)
    (hcatches : Catches mantissa exponent ((num : ℚ) / den / 2 ^ exponent))
    (hfull : (2 : ℚ) ^ 52 ≤ (num : ℚ) / den / 2 ^ exponent ∨
      exponent = minExponent) :
    ofQuotient negative num den = .finite negative mantissa exponent := by
  have hbelow : (num : ℚ) / den / 2 ^ exponent < 2 ^ (53 : Int) := by
    have hsmall := hfits.cast_lt
    have hhalf := hcatches.half.2
    norm_num at hsmall ⊢
    linarith
  have hplace : max (floorLog2 num den - 52) minExponent = exponent := by
    have hlow := hfits.low
    rcases hfull with hfull | rfl
    · have :=
        floorLog2_eq (k := 52) hnum hden rfl (by exact_mod_cast hfull) hbelow
      omega
    · have := floorLog2_lt hnum hden rfl hbelow
      omega
  have hties : mantissa % 2 = 0 ∨
      (mantissa : ℚ) - 1 / 2 < (num : ℚ) / den / 2 ^ exponent ∧
      (num : ℚ) / den / 2 ^ exponent < mantissa + 1 / 2 := by
    rw [or_iff_not_imp_left]
    intro hodd
    rw [Catches, if_neg hodd] at hcatches
    have hreach : (reach mantissa exponent : ℚ) ≤ 2 := by
      exact_mod_cast reach_le
    exact ⟨by linarith [hcatches.1], hcatches.2⟩
  have hround := roundHalfEven_eq_of_near
    (Nat.mul_pos hden (twoTo_pos exponent.toNat)) (scaled_eq hden exponent)
    hcatches.half hties
  rw [ofQuotient, if_neg hnum.ne']
  dsimp only
  rw [hplace, hround, settle, if_neg hfits.small.ne, if_pos hfits.high]

/-- Just below a power of two the last place is half as much, and rounding
carries into the next one. -/
theorem ofQuotient_eq_of_carry (negative : Bool) (hnum : 0 < num)
    (hden : 0 < den) (hlow : minExponent < exponent)
    (hhigh : exponent ≤ maxExponent)
    (hbelow : (2 : ℚ) ^ 52 - 1 / 4 ≤ (num : ℚ) / den / 2 ^ exponent)
    (habove : (num : ℚ) / den / 2 ^ exponent < 2 ^ 52) :
    ofQuotient negative num den = .finite negative (twoTo 52) exponent := by
  have hplace : max (floorLog2 num den - 52) minExponent = exponent - 1 := by
    have := floorLog2_eq (k := 51) hnum hden rfl (le_trans (by norm_num) hbelow)
      (by exact_mod_cast habove)
    omega
  have hscaled : ((num * twoTo (-(exponent - 1)).toNat : Nat) : ℚ) /
      (den * twoTo (exponent - 1).toNat : Nat) =
      2 * ((num : ℚ) / den / 2 ^ exponent) := by
    rw [scaled_eq hden, zpow_sub₀ two_ne_zero, zpow_one]
    field_simp
  have hround := roundHalfEven_eq_of_near (n := twoTo 53)
    (Nat.mul_pos hden (twoTo_pos (exponent - 1).toNat)) hscaled
    (by rw [cast_twoTo]; constructor <;> linarith) (Or.inl (by decide))
  rw [ofQuotient, if_neg hnum.ne']
  dsimp only
  rw [hplace, hround, settle, if_pos rfl, if_pos (by omega), Int.sub_add_cancel]

/-- What lies in the interval of a number is rounded to it. -/
theorem ofQuotient_eq (negative : Bool) (hnum : 0 < num)
    (hden : 0 < den) (hfits : Fits mantissa exponent)
    (hcatches : Catches mantissa exponent ((num : ℚ) / den / 2 ^ exponent)) :
    ofQuotient negative num den = .finite negative mantissa exponent := by
  by_cases hfull : (2 : ℚ) ^ 52 ≤ (num : ℚ) / den / 2 ^ exponent ∨
    exponent = minExponent
  · exact ofQuotient_eq_of_full negative hnum hden hfits hcatches hfull
  · rw [not_or, not_le] at hfull
    have hlow : minExponent < exponent :=
      lt_of_le_of_ne hfits.low (Ne.symm hfull.2)
    have hmantissa := hfits.full.resolve_right hfull.2
    obtain ⟨hbelow, -⟩ := hcatches.bounds
    -- Only the smallest mantissa reaches below the power of two, and it reaches
    -- down by a quarter.
    obtain rfl : mantissa = twoTo 52 := by
      by_contra hne
      have hnext : twoTo 52 + 1 ≤ mantissa :=
        lt_of_le_of_ne hmantissa (Ne.symm hne)
      have hcast : (2 : ℚ) ^ 52 + 1 ≤ mantissa := by
        rw [← cast_twoTo]; exact_mod_cast hnext
      linarith [hcatches.half.1, hfull.1]
    rw [reach, if_pos ⟨rfl, hlow⟩, cast_twoTo] at hbelow
    exact ofQuotient_eq_of_carry negative hnum hden hlow hfits.high
      (by norm_num at hbelow ⊢; linarith) hfull.1

end Caught

end Typings.Binary64
