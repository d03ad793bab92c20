import CssMinify.Proofs.Color.Spelling
import CssMinify.Value.Minify

/-!
A shortened token is as short as it gets: shortening it again changes nothing. The text of a number is read
as the parts that it was printed from, what is picked for a color is picked for itself, and no color is a
number.
-/

namespace CssMinify

namespace Word

section Numbers

theorem isDecimalDigit_of_isUnitChar {c : Char} (h : isUnitChar c = true) : Text.isDecimalDigit c = false := by
  have hnone : ∀ n, n < 123 → n = 37 ∨ 65 ≤ n →
      (Text.decimalZeros.find? fun start => start ≤ n && n < start + 10) = none := by
    decide
  have hrange : c.toNat < 123 ∧ (c.toNat = 37 ∨ 65 ≤ c.toNat) := by
    simp only [isUnitChar, Bool.or_eq_true, beq_iff_eq] at h
    rcases h with h | rfl
    · have halpha := Text.toNat_of_isAlpha h
      omega
    · decide
  rw [Text.isDecimalDigit, Text.decimalValue?, hnone c.toNat hrange.1 hrange.2]
  rfl

theorem isDecimalDigit_point : Text.isDecimalDigit '.' = false := by decide

/-- Digits end where something else starts. -/
theorem span_digits {digits rest : List Char} (hdigits : ∀ c ∈ digits, Text.isDecimalDigit c = true)
    (hrest : ∀ c ∈ rest.head?, Text.isDecimalDigit c = false) :
    (digits ++ rest).span Text.isDecimalDigit = (digits, rest) := by
  rw [List.span_eq_takeWhile_dropWhile, List.takeWhile_append_of_pos hdigits,
    List.dropWhile_append_of_pos hdigits]
  cases rest with
  | nil => simp
  | cons c rest => simp [hrest c (by simp)]

namespace NumberParts

/-- The point and the digits after it. -/
def point : Option (List Char) → List Char
  | some digits => '.' :: digits
  | none => []

/-- The parts one after the other. -/
def text (p : NumberParts) : List Char := p.sign ++ (p.whole ++ (point p.fraction ++ p.unit))

/-- Parts that a text can be cut into. -/
structure WellFormed (p : NumberParts) : Prop where
  sign : p.sign = [] ∨ p.sign = ['+'] ∨ p.sign = ['-']
  whole : ∀ c ∈ p.whole, Text.isDecimalDigit c = true
  fraction : ∀ digits, p.fraction = some digits → ∀ c ∈ digits, Text.isDecimalDigit c = true
  unit : ∀ c ∈ p.unit, isUnitChar c = true

theorem isDecimalDigit_head? {unit : List Char} (h : ∀ c ∈ unit, isUnitChar c = true) :
    ∀ c ∈ unit.head?, Text.isDecimalDigit c = false := by
  intro c hc
  exact isDecimalDigit_of_isUnitChar (h c (List.mem_of_mem_head? hc))

theorem cutFraction_append {fraction : Option (List Char)} {unit : List Char}
    (hfraction : ∀ digits, fraction = some digits → ∀ c ∈ digits, Text.isDecimalDigit c = true)
    (hunit : ∀ c ∈ unit, isUnitChar c = true) : cutFraction (point fraction ++ unit) = (fraction, unit) := by
  cases fraction with
  | some digits =>
      rw [point, List.cons_append, cutFraction, span_digits (hfraction digits rfl) (isDecimalDigit_head? hunit)]
  | none =>
      rw [point, List.nil_append]
      unfold cutFraction
      split
      · have hpoint : isUnitChar '.' = true := hunit '.' List.mem_cons_self
        exact absurd hpoint (by decide)
      · rfl

theorem cutSign_append_of {sign rest : List Char} (hsign : sign = [] ∨ sign = ['+'] ∨ sign = ['-'])
    (hrest : ∀ c ∈ rest.head?, (c == '+' || c == '-') = false) : cutSign (sign ++ rest) = (sign, rest) := by
  rcases hsign with rfl | rfl | rfl
  · cases rest with
    | nil => rfl
    | cons c rest =>
        have hc := hrest c (by simp)
        simp only [List.nil_append, cutSign, hc, Bool.false_eq_true, if_false]
  · rfl
  · rfl

/-- What follows the sign is no sign. -/
theorem WellFormed.head?_ne_sign {p : NumberParts} (h : p.WellFormed) :
    ∀ c ∈ (p.whole ++ (point p.fraction ++ p.unit)).head?, (c == '+' || c == '-') = false := by
  intro c hc
  have hapart : Text.isDecimalDigit '+' = false ∧ Text.isDecimalDigit '-' = false := by decide
  have hmem := List.mem_of_mem_head? hc
  rw [List.mem_append] at hmem
  rw [Bool.or_eq_false_iff, beq_eq_false_iff_ne, beq_eq_false_iff_ne]
  rcases hmem with hmem | hmem
  · have hdigit := h.whole c hmem
    constructor <;> rintro rfl
    · rw [hapart.1] at hdigit
      cases hdigit
    · rw [hapart.2] at hdigit
      cases hdigit
  · rcases List.mem_append.mp hmem with hmem | hmem
    · cases hfraction : p.fraction with
      | none =>
          rw [hfraction] at hmem
          cases hmem
      | some digits =>
          rw [hfraction, point, List.mem_cons] at hmem
          rcases hmem with rfl | hmem
          · decide
          · have hdigit := h.fraction digits hfraction c hmem
            constructor <;> rintro rfl
            · rw [hapart.1] at hdigit
              cases hdigit
            · rw [hapart.2] at hdigit
              cases hdigit
    · have hunit := h.unit c hmem
      constructor <;> rintro rfl <;> revert hunit <;> decide

/-- A text of well-formed parts is cut into them. -/
theorem numberParts?_text {p : NumberParts} (h : p.WellFormed) :
    numberParts? (String.ofList p.text) = some p := by
  have hrest (c : Char) (hc : c ∈ (point p.fraction ++ p.unit).head?) : Text.isDecimalDigit c = false := by
    cases hfraction : p.fraction with
    | none =>
        rw [hfraction, point, List.nil_append] at hc
        exact isDecimalDigit_head? h.unit c hc
    | some digits =>
        rw [hfraction, point, List.cons_append, List.head?_cons, Option.mem_some_iff] at hc
        rw [← hc]
        exact isDecimalDigit_point
  simp only [numberParts?, String.toList_ofList, text, cutSign_append_of h.sign h.head?_ne_sign,
    span_digits h.whole hrest, cutFraction_append h.fraction h.unit, List.all_eq_true]
  rw [if_pos h.unit]

theorem wellFormed_of_numberParts? {token : String} {p : NumberParts} (h : numberParts? token = some p) :
    p.WellFormed := by
  simp only [numberParts?, List.span_eq_takeWhile_dropWhile] at h
  split at h
  case isFalse => cases h
  next hunit =>
  rw [← Option.some.inj h]
  refine ⟨?_, fun c hc => List.mem_takeWhile_imp hc, fun digits hdigits c hc => ?_, List.all_eq_true.mp hunit⟩
  · simp only
    cases token.toList with
    | nil => exact .inl rfl
    | cons c rest =>
        simp only [cutSign]
        split
        · next hsign =>
            rw [Bool.or_eq_true, beq_iff_eq, beq_iff_eq] at hsign
            rcases hsign with rfl | rfl
            · exact .inr (.inl rfl)
            · exact .inr (.inr rfl)
        · exact .inl rfl
  · simp only at hdigits
    unfold cutFraction at hdigits
    split at hdigits
    · simp only [List.span_eq_takeWhile_dropWhile, Option.some.injEq] at hdigits
      rw [← hdigits] at hc
      exact List.mem_takeWhile_imp hc
    · cases hdigits

/-- Digits without the zeros behind them. -/
def dropZeros (digits : List Char) : List Char := (digits.reverse.dropWhile (· == '0')).reverse

/-- The parts of the shortest text. -/
def normal (p : NumberParts) : NumberParts :=
  match p.whole.dropWhile (· == '0'), dropZeros (p.fraction.getD []) with
  | [], [] => ⟨[], ['0'], none, p.unit⟩
  | whole, [] => ⟨p.sign, whole, none, p.unit⟩
  | whole, fraction => ⟨p.sign, whole, some fraction, p.unit⟩

theorem print_eq (p : NumberParts) : p.print = String.ofList p.normal.text := by
  rw [print, normal, ← dropZeros]
  generalize p.whole.dropWhile (· == '0') = whole
  generalize dropZeros (p.fraction.getD []) = fraction
  cases whole <;> cases fraction <;> simp [text, point]

theorem normal_cases (p : NumberParts) :
    p.normal = ⟨[], ['0'], none, p.unit⟩ ∨
      (p.whole.dropWhile (· == '0') ≠ [] ∧ p.normal = ⟨p.sign, p.whole.dropWhile (· == '0'), none, p.unit⟩) ∨
      (dropZeros (p.fraction.getD []) ≠ [] ∧
        p.normal = ⟨p.sign, p.whole.dropWhile (· == '0'), some (dropZeros (p.fraction.getD [])), p.unit⟩) := by
  rw [normal]
  generalize p.whole.dropWhile (· == '0') = whole
  generalize dropZeros (p.fraction.getD []) = fraction
  cases whole <;> cases fraction <;> simp

theorem dropWhile_dropWhile {α : Type} (p : α → Bool) (as : List α) :
    (as.dropWhile p).dropWhile p = as.dropWhile p := by
  induction as with
  | nil => rfl
  | cons a as ih =>
      rw [List.dropWhile_cons]
      split
      · exact ih
      · next hp => rw [List.dropWhile_cons, if_neg hp]

theorem dropZeros_dropZeros (digits : List Char) : dropZeros (dropZeros digits) = dropZeros digits := by
  rw [dropZeros, dropZeros, List.reverse_reverse, dropWhile_dropWhile]

theorem dropZeros_subset (digits : List Char) : dropZeros digits ⊆ digits := by
  intro c hc
  rw [dropZeros, List.mem_reverse] at hc
  exact List.mem_reverse.mp ((List.dropWhile_sublist _).subset hc)

theorem WellFormed.normal {p : NumberParts} (h : p.WellFormed) : p.normal.WellFormed := by
  have hwhole (c : Char) (hc : c ∈ p.whole.dropWhile (· == '0')) : Text.isDecimalDigit c = true :=
    h.whole c ((List.dropWhile_sublist _).subset hc)
  rcases p.normal_cases with hp | ⟨-, hp⟩ | ⟨-, hp⟩ <;> rw [hp]
  · refine ⟨.inl rfl, fun c hc => ?_, by simp, h.unit⟩
    rw [List.mem_singleton.mp hc]
    decide
  · exact ⟨h.sign, hwhole, by simp, h.unit⟩
  · refine ⟨h.sign, hwhole, fun digits hdigits c hc => ?_, h.unit⟩
    rw [← Option.some.inj hdigits] at hc
    have hmem := dropZeros_subset _ hc
    cases hfraction : p.fraction with
    | none =>
        rw [hfraction] at hmem
        cases hmem
    | some digits =>
        rw [hfraction] at hmem
        exact h.fraction digits hfraction c hmem

theorem hasDigits_normal (p : NumberParts) :
    (p.normal.whole.isEmpty && (p.normal.fraction.getD []).isEmpty) = false := by
  rcases p.normal_cases with hp | ⟨hwhole, hp⟩ | ⟨hfraction, hp⟩ <;> rw [hp]
  · rfl
  · simp only [List.isEmpty_eq_false_iff.mpr hwhole, Bool.false_and]
  · simp only [Option.getD_some, List.isEmpty_eq_false_iff.mpr hfraction, Bool.and_false]

theorem normal_normal (p : NumberParts) : p.normal.normal = p.normal := by
  rcases p.normal_cases with hp | ⟨hwhole, hp⟩ | ⟨hfraction, hp⟩
  · rw [hp]
    rfl
  · rw [hp, NumberParts.normal, dropWhile_dropWhile]
    generalize p.whole.dropWhile (· == '0') = whole at hwhole
    cases whole with
    | nil => exact absurd rfl hwhole
    | cons c whole => rfl
  · rw [hp, NumberParts.normal, dropWhile_dropWhile]
    simp only [Option.getD_some, dropZeros_dropZeros]
    generalize p.whole.dropWhile (· == '0') = whole
    generalize dropZeros (p.fraction.getD []) = fraction at hfraction
    cases fraction with
    | nil => exact absurd rfl hfraction
    | cons c fraction => cases whole <;> rfl

end NumberParts

open NumberParts in
/-- The shortest text of a number is read as the shortest parts. -/
theorem numberParts?_print {token : String} {p : NumberParts} (h : numberParts? token = some p) :
    numberParts? p.print = some p.normal := by
  rw [print_eq, numberParts?_text (wellFormed_of_numberParts? h).normal]

theorem minifyNumber?_print {token : String} {p : NumberParts} (h : numberParts? token = some p) :
    minifyNumber? p.print = none := by
  rw [minifyNumber?, numberParts?_print h]
  simp only
  split
  · rfl
  · rw [NumberParts.print_eq, NumberParts.normal_normal, ← NumberParts.print_eq, if_pos (beq_self_eq_true _)]

/-- A number without an exponent is a number. -/
theorem isSome_unit?_of_numberParts? {token : String} {p : NumberParts} (h : numberParts? token = some p)
    (hdigits : (p.whole.isEmpty && (p.fraction.getD []).isEmpty) = false) : (unit? token).isSome = true := by
  simp only [numberParts?] at h
  split at h
  case isFalse => cases h
  next hunit =>
  rw [← Option.some.inj h] at hdigits
  have hexponent : exponentLength (cutFraction ((cutSign token.toList).2.span Text.isDecimalDigit).2).2 = 0 := by
    generalize (cutFraction ((cutSign token.toList).2.span Text.isDecimalDigit).2).2 = unit at hunit
    cases unit with
    | nil => rfl
    | cons e unit =>
        rw [List.all_cons, Bool.and_eq_true] at hunit
        have hsign : cutSign unit = ([], unit) := by
          cases unit with
          | nil => rfl
          | cons c unit =>
              have hc := (List.all_eq_true.mp hunit.2) c List.mem_cons_self
              have hnot : (c == '+' || c == '-') = false := by
                rw [Bool.or_eq_false_iff, beq_eq_false_iff_ne, beq_eq_false_iff_ne]
                constructor <;> rintro rfl <;> revert hc <;> decide
              rw [cutSign, hnot]
              rfl
        have hnone : unit.takeWhile Text.isDecimalDigit = [] := by
          cases unit with
          | nil => rfl
          | cons c unit =>
              have hc := isDecimalDigit_of_isUnitChar ((List.all_eq_true.mp hunit.2) c List.mem_cons_self)
              rw [List.takeWhile_cons, hc]
              rfl
        rw [exponentLength, hsign]
        simp only [hnone, List.length_nil, bne_self_eq_false, Bool.and_false, Bool.false_eq_true, if_false]
  simp only [unit?, hexponent, List.drop_zero, hdigits, hunit, Bool.not_true, Bool.or_self,
    Bool.false_eq_true, if_false, Option.isSome_some]

end Numbers

end Word

namespace Word

section Minify

/-- A color is no number. -/
theorem unit?_of_isColor {token : String} (h : isColor token = true) : unit? token = none := by
  rw [← Option.not_isSome_iff_eq_none]
  intro hunit
  rcases isColor_cases h with ⟨hhead, -⟩ | hword | ⟨name, hname, -⟩
  · have hnumeric := (of_isSome_unit? hunit).2 '#' (List.mem_of_mem_head? hhead)
    revert hnumeric
    decide
  · rw [isOneOf_of_isSome_unit? hunit arePlain_colorWords] at hword
    cases hword
  · rw [functionName?_of_isSome_unit? hunit] at hname
    cases hname

theorem exists_of_minifyNumber? {token short : String} (h : minifyNumber? token = some short) :
    ∃ p, numberParts? token = some p ∧ p.print = short ∧
      (p.whole.isEmpty && (p.fraction.getD []).isEmpty) = false := by
  rw [minifyNumber?] at h
  split at h
  · next p hp =>
      split at h
      · cases h
      next hdigits =>
      split at h
      · cases h
      · exact ⟨p, hp, Option.some.inj h, by simpa using hdigits⟩
  · cases h

/-- The token as a number in its shortest text. -/
def shortNumber (token : String) : String := (minifyNumber? token).getD token

/-- The token without the unit of a length that is zero. -/
def shortZero (zeroUnits : Bool) (token : String) : String :=
  if zeroUnits && isZero token && hasLengthUnit token then "0" else token

/-- The token as a color in its shortest spelling. -/
def shortColor (colors : Bool) (token : String) : String :=
  if colors && isColor token then (Color.shortest? token).getD token else token

theorem minify_eq (zeroUnits colors : Bool) (token : String) :
    minify zeroUnits colors token = shortColor colors (shortZero zeroUnits (shortNumber token)) :=
  rfl

theorem shortNumber_shortNumber (token : String) : shortNumber (shortNumber token) = shortNumber token := by
  cases h : minifyNumber? token with
  | none =>
      have hsame : shortNumber token = token := by rw [shortNumber, h, Option.getD_none]
      rw [hsame, hsame]
  | some short =>
      obtain ⟨p, hp, rfl, -⟩ := exists_of_minifyNumber? h
      have hshort : shortNumber token = p.print := by rw [shortNumber, h, Option.getD_some]
      rw [hshort, shortNumber, minifyNumber?_print hp, Option.getD_none]

theorem shortZero_cases (zeroUnits : Bool) (token : String) :
    shortZero zeroUnits token = "0" ∨ shortZero zeroUnits token = token := by
  rw [shortZero]
  split
  · exact .inl rfl
  · exact .inr rfl

/-- What comes of shortening a token as a number and as a zero. -/
theorem minify_false (zeroUnits : Bool) (token : String) :
    minify zeroUnits false token = shortZero zeroUnits (shortNumber token) := by
  rw [minify_eq, shortColor, Bool.false_and]
  rfl

theorem minify_zero (zeroUnits colors : Bool) : minify zeroUnits colors "0" = "0" := by
  cases zeroUnits <;> cases colors <;> decide

theorem minify_false_minify_false (zeroUnits : Bool) (token : String) :
    minify zeroUnits false (minify zeroUnits false token) = minify zeroUnits false token := by
  rw [minify_false zeroUnits token]
  rcases shortZero_cases zeroUnits (shortNumber token) with h | h
  · rw [h]
    exact minify_zero zeroUnits false
  · rw [h, minify_false, shortNumber_shortNumber, h]

theorem minify_false_of_isColor (zeroUnits : Bool) {token : String} (h : isColor token = true) :
    minify zeroUnits false token = token := by
  have hunit := unit?_of_isColor h
  have hnumber : minifyNumber? token = none := by
    rw [Option.eq_none_iff_forall_ne_some]
    intro short hshort
    obtain ⟨p, hp, -, hdigits⟩ := exists_of_minifyNumber? hshort
    have hsome := isSome_unit?_of_numberParts? hp hdigits
    rw [hunit] at hsome
    cases hsome
  have hzero : isZero token = false := by
    rw [isZero, hunit]
    rfl
  rw [minify_false, shortNumber, hnumber, Option.getD_none, shortZero, hzero, Bool.and_false, Bool.false_and]
  rfl

/-- Only a color that no number step has changed is spelled anew. -/
theorem minify_true (zeroUnits : Bool) (token : String) :
    minify zeroUnits true token = shortColor true (minify zeroUnits false token) := by
  rw [minify_eq, minify_false]

/-- Shortening a token twice is shortening it once. -/
theorem minify_minify (zeroUnits colors : Bool) (token : String) :
    minify zeroUnits colors (minify zeroUnits colors token) = minify zeroUnits colors token := by
  cases colors with
  | false => exact minify_false_minify_false zeroUnits token
  | true =>
      rw [minify_true zeroUnits token]
      have hstable := minify_false_minify_false zeroUnits token
      generalize minify zeroUnits false token = short at hstable
      by_cases hcolor : isColor short = true
      · cases hshortest : Color.shortest? short with
        | none =>
            have hsame : shortColor true short = short := by
              rw [shortColor, hcolor, Bool.and_self, if_pos rfl, hshortest, Option.getD_none]
            rw [hsame, minify_true, hstable, hsame]
        | some spelled =>
            obtain ⟨hcolor', hshortest'⟩ := Color.shortest?_of_shortest? hshortest
            have hspelled : shortColor true short = spelled := by
              rw [shortColor, hcolor, Bool.and_self, if_pos rfl, hshortest, Option.getD_some]
            rw [hspelled, minify_true, minify_false_of_isColor zeroUnits hcolor', shortColor, hcolor', Bool.and_self,
              if_pos rfl, hshortest', Option.getD_some]
      · have hsame : shortColor true short = short := by
          rw [shortColor, if_neg (by simpa using hcolor)]
        rw [hsame, minify_true, hstable, hsame]

/-- What is short as a color too is short. -/
theorem minify_false_of_minify_true {zeroUnits : Bool} {token : String} (h : minify zeroUnits true token = token) :
    minify zeroUnits false token = token := by
  rw [minify_true] at h
  by_cases hcolor : isColor (minify zeroUnits false token) = true
  · -- A number in a new text is a number still, so what is a color was no number.
    have hunit := unit?_of_isColor hcolor
    rw [minify_false] at hunit hcolor ⊢
    rcases shortZero_cases zeroUnits (shortNumber token) with hzero | hzero
    · rw [hzero] at hcolor
      exact absurd hcolor (by decide)
    rw [hzero] at hunit ⊢
    cases hnumber : minifyNumber? token with
    | none => rw [shortNumber, hnumber, Option.getD_none]
    | some short =>
        obtain ⟨p, hp, rfl, -⟩ := exists_of_minifyNumber? hnumber
        rw [shortNumber, hnumber, Option.getD_some] at hunit
        have hsome := isSome_unit?_of_numberParts? (numberParts?_print hp) p.hasDigits_normal
        rw [hunit] at hsome
        cases hsome
  · rwa [shortColor, if_neg (by simpa using hcolor)] at h

/-- What is short and no color is short as a color too. -/
theorem minify_true_of_not_isColor {zeroUnits : Bool} {token : String} (h : minify zeroUnits false token = token)
    (hcolor : isColor token = false) : minify zeroUnits true token = token := by
  rw [minify_true, h, shortColor, hcolor, Bool.and_false]
  rfl

end Minify

end Word

end CssMinify
