import Typings.Proofs.ShortestText
import Typings.TypeExpr.Printer

/-!
Number literals are read back. A whole number is printed without a
fraction, however it is held, and any other number as its shortest text. So
a literal with digits alone spells a whole number, and every other one a
number that 64 bits hold.
-/

namespace Typings

/-- A number that is whole, held as a whole number. -/
def Json.plainNumber : Json → Json
  | .double x => if x.isWhole then .int (x.truncate?.getD 0) else .double x
  | v => v

/-- The character may stand in a number literal. -/
def inNumeral (c : Char) : Bool :=
  c.isDigit || c == '-' || c == '+' || c == '.' || c == 'e'

/-- The number that a numeral spells: whole if it has digits alone. -/
def readNumber (cs : List Char) : Option Json :=
  let (negative, rest) := Json.cutSign cs
  if rest.isEmpty then none
  else if rest.all Char.isDigit then
    some (.int (if negative then -(Json.digitsValue rest : Int)
      else Json.digitsValue rest))
  else (Json.magnitudeOf? negative rest).map .double

section Numbers

open Json Binary64

/-- The value is a whole number, or a number that 64 bits hold. -/
def Json.IsFiniteNumber : Json → Prop
  | .int _ => True
  | .double (.finite _ mantissa exponent) => Fits mantissa exponent
  | _ => False

/-- A sign before a digit is cut off. -/
theorem cutSign_signed (negative : Bool) {c : Char} (hc : c.isDigit = true)
    (rest : List Char) :
    cutSign ((if negative then ['-'] else []) ++ c :: rest) =
      (negative, c :: rest) := by
  cases negative with
  | true => rfl
  | false =>
      change cutSign (c :: rest) = (false, c :: rest)
      rw [cutSign.eq_def]
      split
      · rename_i heq
        cases heq
        exact absurd hc (by decide)
      · rename_i heq
        cases heq
        exact absurd hc (by decide)
      · rfl

theorem toList_toString (i : Int) :
    (toString i).toList =
      (if decide (i < 0) then ['-'] else []) ++ Nat.toDigits 10 i.natAbs := by
  rw [Int.toString_eq_repr, Int.repr_eq_if]
  by_cases hi : 0 ≤ i
  · have hnat : i.toNat = i.natAbs := by omega
    rw [if_pos hi, decide_eq_false (by omega), Nat.repr_eq_ofList_toDigits,
      String.toList_ofList, hnat]
    rfl
  · have hnat : (-i).toNat = i.natAbs := by omega
    rw [if_neg hi, decide_eq_true (by omega), String.toList_append,
      Nat.repr_eq_ofList_toDigits, hnat]
    exact congrArg ('-' :: ·) String.toList_ofList

/-- The characters of a number literal: an optional sign, a digit and what may
stand in numerals. -/
structure IsNumeral (cs : List Char) : Prop where
  body : ∃ (negative : Bool) (c : Char) (rest : List Char),
    cs = (if negative then ['-'] else []) ++ c :: rest ∧ c.isDigit = true
  all : ∀ c ∈ cs, inNumeral c = true

theorem inNumeral_of_isDigits {cs : List Char} (h : IsDigits cs) :
    ∀ c ∈ cs, inNumeral c = true := by
  intro c hc
  simp [inNumeral, h c hc]

section Signed

variable (negative : Bool) {c : Char} {rest : List Char} (hc : c.isDigit = true)

include hc

theorem isNumeral_signed (hall : ∀ d ∈ c :: rest, inNumeral d = true) :
    IsNumeral ((if negative then ['-'] else []) ++ c :: rest) := by
  refine ⟨⟨negative, c, rest, rfl, hc⟩, List.forall_mem_append.mpr ⟨?_, hall⟩⟩
  cases negative <;> simp [inNumeral]

theorem readNumber_digits (hall : IsDigits (c :: rest)) :
    readNumber ((if negative then ['-'] else []) ++ c :: rest) =
      some (.int (if negative then -(digitsValue (c :: rest) : Int)
        else digitsValue (c :: rest))) := by
  rw [readNumber, cutSign_signed negative hc]
  dsimp only
  rw [List.isEmpty_cons, if_neg (by decide), if_pos (List.all_eq_true.mpr hall)]

theorem readNumber_mixed (hmixed : ∃ d ∈ c :: rest, d.isDigit = false) :
    readNumber ((if negative then ['-'] else []) ++ c :: rest) =
      (magnitudeOf? negative (c :: rest)).map .double := by
  obtain ⟨d, hd, hnot⟩ := hmixed
  have hall : (c :: rest).all Char.isDigit = false :=
    List.all_eq_false.mpr ⟨d, hd, by simp [hnot]⟩
  rw [readNumber, cutSign_signed negative hc]
  dsimp only
  rw [List.isEmpty_cons, if_neg (by decide), hall, if_neg (by decide)]

end Signed

theorem isNumeral_toString (i : Int) :
    IsNumeral (toString i).toList ∧
      readNumber (toString i).toList = some (.int i) := by
  have hdigits := isDigits_toDigits i.natAbs
  have hvalue := digitsValue_toDigits i.natAbs
  have hsome : Nat.toDigits 10 i.natAbs ≠ [] := Nat.toDigits_ne_nil
  obtain ⟨c, rest, heq⟩ := List.exists_cons_of_ne_nil hsome
  rw [heq] at hdigits hvalue
  have hc := hdigits c List.mem_cons_self
  rw [toList_toString, heq]
  refine ⟨isNumeral_signed _ hc (inNumeral_of_isDigits hdigits), ?_⟩
  rw [readNumber_digits _ hc hdigits, hvalue]
  congr 2
  by_cases hi : i < 0
  · rw [if_pos (by simpa using hi)]
    omega
  · rw [if_neg (by simpa using hi)]
    omega

/-- A shortest text begins with a digit, and it does not consist
of digits alone. -/
theorem decimalChars_spec {mantissa : Nat} {exponent : Int}
    (hfits : Fits mantissa exponent) :
    (∃ c rest, decimalChars mantissa exponent = c :: rest ∧ c.isDigit = true) ∧
      (∃ d ∈ decimalChars mantissa exponent, d.isDigit = false) ∧
      ∀ d ∈ decimalChars mantissa exponent, inNumeral d = true := by
  obtain ⟨ds, point, hsome, hds, hform, -⟩ := decimalChars_cases hfits
  obtain ⟨c, rest, rfl⟩ := List.exists_cons_of_ne_nil hsome
  have hc := hds c List.mem_cons_self
  have hall := inNumeral_of_isDigits hds
  have hzeros (n : Nat) := inNumeral_of_isDigits (isDigits_zeros n)
  rcases hform with hform | hform
  · rw [hform, positional]
    split
    · refine ⟨⟨_, _, rfl, rfl⟩, ⟨'.', by simp, rfl⟩, ?_⟩
      simp only [List.forall_mem_cons, List.forall_mem_append]
      exact ⟨rfl, rfl, hzeros _, List.forall_mem_cons.mp hall⟩
    · rename_i hpoint
      split
      · refine ⟨⟨_, _, rfl, hc⟩, ⟨'.', by simp, rfl⟩, ?_⟩
        rw [List.forall_mem_append, List.forall_mem_append]
        exact ⟨⟨hall, hzeros _⟩, by simp [inNumeral]⟩
      · obtain ⟨n, hn⟩ : ∃ n, point.toNat = n + 1 := ⟨point.toNat - 1, by omega⟩
        rw [hn]
        refine ⟨⟨_, _, rfl, hc⟩, ⟨'.', by simp, rfl⟩, ?_⟩
        rw [List.forall_mem_append, List.forall_mem_cons]
        exact ⟨fun d hd => hall d (List.mem_of_mem_take hd), rfl,
          fun d hd => hall d (List.mem_of_mem_drop hd)⟩
  · have hexponent :=
      inNumeral_of_isDigits (isDigits_toDigits (point - 1).natAbs)
    rw [hform, scientific]
    refine ⟨⟨_, _, rfl, hc⟩, ⟨'e', by simp, rfl⟩, ?_⟩
    simp only [List.forall_mem_append, List.forall_mem_cons]
    refine ⟨⟨fun d hd => hall d (List.mem_of_mem_take hd), ?_⟩, rfl, ?_, ?_⟩
    · split
      · simp
      · exact List.forall_mem_cons.mpr ⟨rfl,
          fun d hd => hall d (List.mem_of_mem_drop hd)⟩
    · split <;> rfl
    · split
      · exact List.forall_mem_cons.mpr ⟨rfl, hexponent⟩
      · exact hexponent

theorem isNumeral_decimal (negative : Bool) {mantissa : Nat} {exponent : Int}
    (hfits : Fits mantissa exponent) :
    IsNumeral ((if negative then ['-'] else []) ++
        decimalChars mantissa exponent) ∧
      readNumber
        ((if negative then ['-'] else []) ++ decimalChars mantissa exponent) =
        some (.double (.finite negative mantissa exponent)) := by
  have hread := magnitudeOf?_decimalChars negative hfits
  obtain ⟨⟨c, rest, heq, hc⟩, hmixed, hall⟩ := decimalChars_spec hfits
  rw [heq] at hread hmixed hall ⊢
  refine ⟨isNumeral_signed _ hc hall, ?_⟩
  rw [readNumber_mixed _ hc hmixed, hread]
  rfl

/-- A finite number is read back from its literal. -/
theorem isNumeral_numberText {v : Json} (h : v.IsFiniteNumber) :
    IsNumeral (numberText v).toList ∧
      readNumber (numberText v).toList = some v.plainNumber := by
  cases v with
  | int i => exact isNumeral_toString i
  | double x =>
      cases x with
      | infinite negative => cases h
      | nan => cases h
      | finite negative mantissa exponent =>
          rw [numberText, plainNumber]
          split
          · rename_i hwhole
            have hwhole' :
                (finite negative mantissa exponent).isWhole = true := hwhole
            rw [wholePlain, if_pos hwhole', truncate?, Option.map_some,
              Option.getD_some, Option.getD_some]
            exact isNumeral_toString _
          · rw [Json.write, Binary64.text, String.toList_ofList]
            exact isNumeral_decimal negative h
  | null => cases h
  | bool b => cases h
  | str s => cases h
  | arr items => cases h
  | obj entries => cases h

end Numbers

end Typings
