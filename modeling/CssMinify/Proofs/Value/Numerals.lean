import CssMinify.Proofs.Value.Shortening
import Mathlib.Algebra.Order.Field.Rat
import Mathlib.Data.Nat.Digits.Defs
import Mathlib.Tactic.FieldSimp
import Mathlib.Tactic.Ring

/-! The number that a token writes. A digit of any script counts with its value, what stands behind the point is
divided by the power of ten that it reaches to, and a minus in front of zero changes nothing. Shortening a token
keeps the number and the unit: the zeros that are left out do not count where they stand. -/

namespace CssMinify

namespace Word

open Text

section Digits

/-- The value of a decimal digit of any script. -/
def digitValue (c : Char) : ℕ := (decimalValue? c).getD 0

/-- The number that decimal digits write, the first of which counts most. -/
def numeral (digits : List Char) : ℕ := Nat.ofDigits 10 (digits.reverse.map digitValue)

theorem numeral_append (digits more : List Char) :
    numeral (digits ++ more) = numeral digits * 10 ^ more.length + numeral more := by
  rw [numeral, List.reverse_append, List.map_append, Nat.ofDigits_append, List.length_map, List.length_reverse,
    ← numeral, ← numeral]
  ring

theorem numeral_zeros {zeros : List Char} (h : ∀ c ∈ zeros, c = '0') : numeral zeros = 0 := by
  have hzero : digitValue '0' = 0 := by decide
  induction zeros with
  | nil => rfl
  | cons c zeros ih =>
      rw [← List.singleton_append, numeral_append, ih fun c hc => h c (List.mem_cons_of_mem _ hc),
        h c List.mem_cons_self, numeral, List.reverse_singleton, List.map_singleton, Nat.ofDigits_singleton, hzero]
      ring

/-- Zeros in front of a number do not count. -/
theorem numeral_dropWhile_zeros (digits : List Char) : numeral (digits.dropWhile (· == '0')) = numeral digits := by
  have hzeros : numeral (digits.takeWhile (· == '0')) = 0 := by
    refine numeral_zeros fun c hc => ?_
    have hzero := List.mem_takeWhile_imp hc
    exact beq_iff_eq.mp hzero
  calc numeral (digits.dropWhile (· == '0'))
      = numeral (digits.takeWhile (· == '0') ++ digits.dropWhile (· == '0')) := by
        rw [numeral_append, hzeros, Nat.zero_mul, Nat.zero_add]
    _ = numeral digits := by rw [List.takeWhile_append_dropWhile]

/-- What digits behind the point add to a number. -/
def fractionValue (digits : List Char) : ℚ := numeral digits / 10 ^ digits.length

/-- Zeros at the end of a fraction do not count. -/
theorem fractionValue_dropZeros (digits : List Char) :
    fractionValue (NumberParts.dropZeros digits) = fractionValue digits := by
  obtain ⟨zeros, hdigits, hzeros⟩ := NumberParts.exists_zeros_dropZeros digits
  conv_rhs => rw [hdigits]
  rw [fractionValue, fractionValue, numeral_append, numeral_zeros hzeros, List.length_append, pow_add]
  push_cast
  field_simp
  ring

end Digits

namespace NumberParts

/-- The number that the parts write. -/
def value (p : NumberParts) : ℚ :=
  (if p.sign = ['-'] then -1 else 1) * (numeral p.whole + fractionValue (p.fraction.getD []))

theorem value_normal (p : NumberParts) : p.normal.value = p.value := by
  have hzero : numeral ['0'] = 0 := by decide
  have hnone : numeral [] = 0 ∧ fractionValue [] = 0 := by simp [numeral, fractionValue]
  rw [value, value, ← numeral_dropWhile_zeros p.whole, ← fractionValue_dropZeros (p.fraction.getD []), normal]
  generalize p.whole.dropWhile (· == '0') = whole
  generalize dropZeros (p.fraction.getD []) = fraction
  cases whole <;> cases fraction <;> simp [hzero, hnone]

end NumberParts

section Denoting

/-- A text that writes the number `x` and, behind it, `unit`: decimal digits with at most one point among them, at
least one digit, an optional sign in front of them, and letters or percent signs behind. -/
def Denotes (text : String) (x : ℚ) (unit : String) : Prop :=
  ∃ p : NumberParts, p.WellFormed ∧ p.digits ≠ [] ∧ text = String.ofList p.text ∧ x = p.value ∧
    unit = String.ofList p.unit

/-- The text of well-formed parts writes their number in their unit, and nothing else. -/
theorem denotes_iff_of_numberParts? {token : String} {p : NumberParts} (h : numberParts? token = some p)
    (hdigits : p.digits ≠ []) {x : ℚ} {unit : String} :
    Denotes token x unit ↔ x = p.value ∧ unit = String.ofList p.unit := by
  constructor
  · rintro ⟨q, hformed, -, htext, hx, hunit⟩
    have hread := numberParts?_eq_some_iff.mpr ⟨hformed, htext⟩
    rw [h, Option.some.injEq] at hread
    subst hread
    exact ⟨hx, hunit⟩
  · rintro ⟨hx, hunit⟩
    obtain ⟨hformed, htext⟩ := numberParts?_eq_some_iff.mp h
    exact ⟨p, hformed, hdigits, htext, hx, hunit⟩

theorem byteLength_print_lt {token : String} {p : NumberParts} (h : numberParts? token = some p)
    (hdigits : p.digits ≠ []) (hne : p.print ≠ token) : byteLength p.print < byteLength token := by
  rw [NumberParts.print_eq, ← String.ofList_toList (s := token), ← text_of_numberParts? h] at hne ⊢
  rw [byteLength_eq, byteLength_eq, String.toList_ofList, String.toList_ofList]
  refine total_lt_of_sublist _ Char.utf8Size_pos (text_normal_sublist (hasDigits_iff.mpr hdigits)) fun heq => hne ?_
  rw [heq]

/-- A number that is shortened is the same number in the same unit, in fewer bytes, and cannot be shortened again. -/
theorem minifyNumber?_keeps {token short : String} (h : minifyNumber? token = some short) :
    (∃ x unit, ∀ y v, (Denotes token y v ↔ y = x ∧ v = unit) ∧ (Denotes short y v ↔ y = x ∧ v = unit)) ∧
      byteLength short < byteLength token ∧ minifyNumber? short = none := by
  obtain ⟨p, hp, rfl, hdigits⟩ := exists_of_minifyNumber? h
  have hdigits := hasDigits_iff.mp hdigits
  have hne : p.print ≠ token := by
    intro heq
    have hnone := minifyNumber?_print hp
    rw [heq, h] at hnone
    cases hnone
  refine ⟨⟨p.value, String.ofList p.unit, fun y v => ⟨?_, ?_⟩⟩, byteLength_print_lt hp hdigits hne, minifyNumber?_print hp⟩
  · exact denotes_iff_of_numberParts? hp hdigits
  · rw [denotes_iff_of_numberParts? (numberParts?_print hp) (hasDigits_iff.mp p.hasDigits_normal),
      NumberParts.value_normal, NumberParts.unit_normal]

/-- Digits of two scripts; the sign, zeros on both sides and the unit. -/
theorem minifyNumber?_keeps_foreign :
    minifyNumber? "-00٣.250px" = some "-٣.25px" ∧
      (∃ x unit, ∀ y v, (Denotes "-00٣.250px" y v ↔ y = x ∧ v = unit) ∧ (Denotes "-٣.25px" y v ↔ y = x ∧ v = unit)) ∧
      byteLength "-٣.25px" < byteLength "-00٣.250px" ∧ minifyNumber? "-٣.25px" = none := by
  have hshort : minifyNumber? "-00٣.250px" = some "-٣.25px" := by decide
  exact ⟨hshort, minifyNumber?_keeps hshort⟩

end Denoting

end Word

end CssMinify
