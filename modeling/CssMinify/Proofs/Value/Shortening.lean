import CssMinify.Proofs.Size.Tokens
import CssMinify.Proofs.Stability.Bodies

/-! What shortening does to a declaration. It settles at once, and changes nothing but the tokens of the value,
of which none gets longer. A unit is lost only by a length whose digits are all zeros, or whose first digit other
than zero belongs to another script than ASCII: only ASCII digits are compared with zero. -/

namespace CssMinify

namespace Declaration

open Text

/-- What a declaration may be shortened to: token by token, and no token longer. -/
structure Shortens (short d : Declaration) : Prop where
  name : short.name = d.name
  important : short.important = d.important
  hack : short.hack = d.hack
  length : short.value.length = d.value.length
  tokens : List.Forall₂ (fun token token' => byteLength token ≤ byteLength token') short.value d.value

theorem shortens_minify (profile : Profile) (d : Declaration) : (d.minify profile).Shortens d := by
  rw [minify]
  split
  · exact ⟨rfl, rfl, rfl, rfl, List.forall₂_same.mpr fun token _ => Nat.le_refl _⟩
  · refine ⟨rfl, rfl, rfl, List.length_map _, List.forall₂_map_left_iff.mpr ?_⟩
    exact List.forall₂_same.mpr fun token _ => Word.byteLength_minify_le _ _ token

/-- Shortening a declaration twice is shortening it once, and changes nothing but the tokens of the value, none
of which gets longer. -/
theorem minify_settles (profile : Profile) (d : Declaration) :
    (d.minify profile).minify profile = d.minify profile ∧ (d.minify profile).Shortens d :=
  ⟨isMinified_minify profile d, shortens_minify profile d⟩

end Declaration

namespace Word

open Text NumberParts

section Lead

/-- Characters at the start that are all of one kind, out of a wider one: what follows them is not of the wider
kind. -/
theorem all_takeWhile_iff {p q : Char → Bool} (h : ∀ c, q c = true → p c = true) (cs : List Char) :
    (cs.takeWhile p).all q = true ↔ ∀ c ∈ cs.find? (!q ·), p c = false := by
  induction cs with
  | nil => simp
  | cons c cs ih =>
      cases hq : q c with
      | true =>
          rw [List.takeWhile_cons_of_pos (h c hq), List.all_cons, hq, Bool.true_and, ih,
            List.find?_cons_of_neg (by simp [hq])]
      | false =>
          rw [List.find?_cons_of_pos (by simp [hq])]
          cases hp : p c with
          | true => simp [hp, hq]
          | false => simp [hp]

theorem isDecimalDigit_of_isDigit {c : Char} (h : c.isDigit = true) : isDecimalDigit c = true := by
  have hall : ∀ n < 58, 48 ≤ n → isDecimalDigit (Char.ofNat n) = true := by decide
  rw [Char.isDigit, Bool.and_eq_true, decide_eq_true_eq, decide_eq_true_eq] at h
  have hlow : 48 ≤ c.toNat := h.1
  have hhigh : c.toNat ≤ 57 := h.2
  rw [← Char.ofNat_toNat c]
  exact hall c.toNat (by omega) hlow

namespace NumberParts

def digits (p : NumberParts) : List Char := p.whole ++ p.fraction.getD []

theorem WellFormed.isDecimalDigit_of_mem_digits {p : NumberParts} (h : p.WellFormed) {c : Char}
    (hc : c ∈ p.digits) : isDecimalDigit c = true := by
  rcases List.mem_append.mp hc with hc | hc
  · exact h.whole c hc
  · cases hfraction : p.fraction with
    | none =>
        rw [hfraction] at hc
        cases hc
    | some digits =>
        rw [hfraction] at hc
        exact h.fraction digits hfraction c hc

/-- The first digit other than zero. -/
def lead? (p : NumberParts) : Option Char := p.digits.find? (· != '0')

theorem find?_dropWhile_zeros (digits : List Char) :
    (digits.dropWhile (· == '0')).find? (· != '0') = digits.find? (· != '0') := by
  induction digits with
  | nil => rfl
  | cons c digits ih =>
      by_cases hc : c = '0'
      · rw [List.dropWhile_cons_of_pos (by simp [hc]), ih, List.find?_cons_of_neg (by simp [hc])]
      · rw [List.dropWhile_cons_of_neg (by simp [hc])]

/-- Only zeros are dropped. -/
theorem exists_zeros_dropZeros (digits : List Char) :
    ∃ zeros, digits = dropZeros digits ++ zeros ∧ ∀ c ∈ zeros, c = '0' := by
  refine ⟨(digits.reverse.takeWhile (· == '0')).reverse, ?_, fun c hc => ?_⟩
  · rw [dropZeros, ← List.reverse_append, List.takeWhile_append_dropWhile, List.reverse_reverse]
  · have hzero := List.mem_takeWhile_imp (List.mem_reverse.mp hc)
    exact beq_iff_eq.mp hzero

theorem find?_dropZeros (digits : List Char) : (dropZeros digits).find? (· != '0') = digits.find? (· != '0') := by
  obtain ⟨zeros, hdigits, hzeros⟩ := exists_zeros_dropZeros digits
  have hnone : zeros.find? (· != '0') = none := by
    rw [List.find?_eq_none]
    intro c hc
    simpa using hzeros c hc
  conv_rhs => rw [hdigits, List.find?_append, hnone, Option.or_none]

/-- The shortest text of a number has the same first digit other than zero. -/
theorem lead?_normal (p : NumberParts) : p.normal.lead? = p.lead? := by
  have hwhole := find?_dropWhile_zeros p.whole
  have hfraction := find?_dropZeros (p.fraction.getD [])
  rw [lead?, lead?, digits, digits, List.find?_append, List.find?_append, ← hwhole, ← hfraction, normal]
  generalize p.whole.dropWhile (· == '0') = whole
  generalize dropZeros (p.fraction.getD []) = fraction
  cases whole <;> cases fraction <;> simp

theorem unit_normal (p : NumberParts) : p.normal.unit = p.unit := by
  rcases p.normal_cases with h | ⟨-, h⟩ | ⟨-, h⟩ <;> rw [h]

/-- The first character of a number that is neither zero nor the point is its first digit other than zero, or
the start of its unit. -/
theorem find?_text {p : NumberParts} (h : p.WellFormed) :
    (p.whole ++ (point p.fraction ++ p.unit)).find? (fun c => !(c == '0' || c == '.')) =
      p.lead?.or p.unit.head? := by
  have hdigits {digits : List Char} (hdigits : ∀ c ∈ digits, isDecimalDigit c = true) :
      digits.find? (fun c => !(c == '0' || c == '.')) = digits.find? (· != '0') := by
    induction digits with
    | nil => rfl
    | cons c digits ih =>
        have hpoint : (c == '.') = false := by
          rw [beq_eq_false_iff_ne]
          rintro rfl
          have hdigit := hdigits '.' List.mem_cons_self
          rw [isDecimalDigit_point] at hdigit
          cases hdigit
        rw [List.find?_cons, List.find?_cons, hpoint, Bool.or_false, ih fun c hc => hdigits c (List.mem_cons_of_mem _ hc)]
        rfl
  have hunit : p.unit.find? (fun c => !(c == '0' || c == '.')) = p.unit.head? := by
    cases hunit : p.unit with
    | nil => rfl
    | cons c unit =>
        have hc : isUnitChar c = true := h.unit c (by rw [hunit]; exact List.mem_cons_self)
        have hnot : (c == '0' || c == '.') = false := by
          rw [Bool.or_eq_false_iff, beq_eq_false_iff_ne, beq_eq_false_iff_ne]
          constructor <;> rintro rfl <;> revert hc <;> decide
        rw [List.find?_cons_of_pos (by rw [hnot]; rfl), List.head?_cons]
  have hfraction : (point p.fraction).find? (fun c => !(c == '0' || c == '.')) =
      (p.fraction.getD []).find? (· != '0') := by
    cases hfraction : p.fraction with
    | none => rfl
    | some digits =>
        rw [point, List.find?_cons_of_neg (by simp), Option.getD_some, hdigits (h.fraction digits hfraction)]
  rw [List.find?_append, List.find?_append, hdigits h.whole, hfraction, hunit, lead?, digits, List.find?_append,
    Option.or_assoc]

end NumberParts

/-- Of the digits of a number only ASCII ones are compared with zero. -/
theorem isZero_text_iff {p : NumberParts} (h : p.WellFormed)
    (hdigits : (p.whole.isEmpty && (p.fraction.getD []).isEmpty) = false) :
    isZero (String.ofList p.text) = true ↔ ∀ c ∈ p.lead?, c.isDigit = false := by
  have hsigned : p.text.dropWhile (fun c => c == '+' || c == '-') = p.whole ++ (point p.fraction ++ p.unit) := by
    have hhead := h.head?_ne_sign
    rw [text]
    generalize p.whole ++ (point p.fraction ++ p.unit) = rest at hhead
    have hrest : rest.dropWhile (fun c => c == '+' || c == '-') = rest := by
      cases rest with
      | nil => rfl
      | cons c rest => rw [List.dropWhile_cons_of_neg (by rw [hhead c rfl]; decide)]
    rcases h.sign with hsign | hsign | hsign <;> rw [hsign]
    · exact hrest
    · exact hrest
    · exact hrest
  have hzero : ∀ c : Char, (c == '0' || c == '.') = true → (c.isDigit || c == '.') = true := by
    intro c hc
    rw [Bool.or_eq_true, beq_iff_eq, beq_iff_eq] at hc
    rcases hc with rfl | rfl <;> decide
  rw [isZero, isSome_unit?_of_numberParts? (numberParts?_text h) hdigits, Bool.true_and, String.toList_ofList, hsigned,
    all_takeWhile_iff hzero, find?_text h]
  cases hlead : p.lead? with
  | none =>
      -- No digit but zeros is left, and a unit does not start with one.
      rw [Option.none_or]
      refine ⟨fun _ c hc => (by cases hc), fun _ c hc => ?_⟩
      have hunit : isUnitChar c = true := h.unit c (List.mem_of_mem_head? hc)
      have hdigit := isDecimalDigit_of_isUnitChar hunit
      have hpoint : (c == '.') = false := by
        rw [beq_eq_false_iff_ne]
        rintro rfl
        revert hunit
        decide
      rw [hpoint, Bool.or_false, Bool.eq_false_iff]
      intro hascii
      rw [isDecimalDigit_of_isDigit hascii] at hdigit
      cases hdigit
  | some c =>
      have hmem : c ∈ p.digits := List.mem_of_find?_eq_some hlead
      have hpoint : (c == '.') = false := by
        rw [beq_eq_false_iff_ne]
        rintro rfl
        have hdigit := h.isDecimalDigit_of_mem_digits hmem
        rw [isDecimalDigit_point] at hdigit
        cases hdigit
      rw [Option.some_or]
      simp only [Option.mem_some_iff, forall_eq', hpoint, Bool.or_false]

/-- The number in its shortest text is compared with zero as it was before. -/
theorem isZero_print_iff {token : String} {p : NumberParts} (h : numberParts? token = some p) :
    isZero p.print = true ↔ ∀ c ∈ p.lead?, c.isDigit = false := by
  rw [print_eq, isZero_text_iff (wellFormed_of_numberParts? h).normal p.hasDigits_normal, lead?_normal]

end Lead

section Units

/-- A number of at least one digit in a unit of length. -/
structure NumberParts.IsLength (p : NumberParts) : Prop where
  wellFormed : p.WellFormed
  digits : p.digits ≠ []
  unit : isOneOf lengthUnits (String.ofList p.unit) = true

theorem numberParts?_eq_some_iff {token : String} {p : NumberParts} :
    numberParts? token = some p ↔ p.WellFormed ∧ token = String.ofList p.text := by
  constructor
  · intro h
    rw [text_of_numberParts? h, String.ofList_toList]
    exact ⟨wellFormed_of_numberParts? h, rfl⟩
  · rintro ⟨h, rfl⟩
    exact numberParts?_text h

theorem hasDigits_iff {p : NumberParts} :
    (p.whole.isEmpty && (p.fraction.getD []).isEmpty) = false ↔ p.digits ≠ [] := by
  rw [digits, Ne, List.append_eq_nil_iff, Bool.and_eq_false_iff, List.isEmpty_eq_false_iff, List.isEmpty_eq_false_iff]
  tauto

theorem shortNumber_eq_print {token : String} {p : NumberParts} (h : numberParts? token = some p)
    (hdigits : p.digits ≠ []) : shortNumber token = p.print := by
  rw [shortNumber, minifyNumber?, h]
  simp only [hasDigits_iff.mpr hdigits, Bool.false_eq_true, if_false]
  split
  · next hsame => rw [Option.getD_none, beq_iff_eq.mp hsame]
  · rfl

theorem hasLengthUnit_print {token : String} {p : NumberParts} (h : numberParts? token = some p) :
    hasLengthUnit p.print = isOneOf lengthUnits (String.ofList p.unit) := by
  rw [hasLengthUnit, numberParts?_print h, Option.any_some, unit_normal]

/-- A number without an exponent has a digit if it has one with an exponent allowed. -/
theorem digits_ne_nil_of_isSome_unit? {token : String} {p : NumberParts} (h : numberParts? token = some p)
    (hunit : (unit? token).isSome = true) : p.digits ≠ [] := by
  rw [← hasDigits_iff]
  simp only [numberParts?] at h
  simp only [unit?] at hunit
  split at h
  case isFalse => cases h
  rw [← Option.some.inj h, Bool.eq_false_iff]
  intro hnone
  rw [if_pos (by rw [Bool.or_eq_true]; exact .inl hnone)] at hunit
  cases hunit

/-- What loses its unit is a length, all of whose digits are zeros up to the first that is no ASCII digit. -/
theorem isZero_and_hasLengthUnit_iff {token : String} :
    (isZero (shortNumber token) && hasLengthUnit (shortNumber token)) = true ↔
      ∃ p : NumberParts, p.IsLength ∧ token = String.ofList p.text ∧ ∀ c ∈ p.lead?, c.isDigit = false := by
  rw [Bool.and_eq_true]
  constructor
  · rintro ⟨hzero, hunit⟩
    cases hnumber : minifyNumber? token with
    | none =>
        rw [shortNumber, hnumber, Option.getD_none] at hzero hunit
        obtain ⟨p, hp, hlength⟩ := (Option.any_eq_true _ _).mp hunit
        have hsome : (unit? token).isSome = true := (Bool.and_eq_true_iff.mp hzero).1
        have hdigits := digits_ne_nil_of_isSome_unit? hp hsome
        obtain ⟨hformed, rfl⟩ := numberParts?_eq_some_iff.mp hp
        exact ⟨p, ⟨hformed, hdigits, hlength⟩, rfl, (isZero_text_iff hformed (hasDigits_iff.mpr hdigits)).mp hzero⟩
    | some short =>
        obtain ⟨p, hp, rfl, hdigits⟩ := exists_of_minifyNumber? hnumber
        rw [shortNumber, hnumber, Option.getD_some] at hzero hunit
        obtain ⟨hformed, htext⟩ := numberParts?_eq_some_iff.mp hp
        rw [hasLengthUnit_print hp] at hunit
        exact ⟨p, ⟨hformed, hasDigits_iff.mp hdigits, hunit⟩, htext, (isZero_print_iff hp).mp hzero⟩
  · rintro ⟨p, hlength, rfl, hlead⟩
    have hp := numberParts?_text hlength.wellFormed
    rw [shortNumber_eq_print hp hlength.digits, hasLengthUnit_print hp]
    exact ⟨(isZero_print_iff hp).mpr hlead, hlength.unit⟩

/-- Nothing but the loss of a unit makes a token zero that is not zero as a number. -/
theorem minify_eq_zero_iff (zeroUnits colors : Bool) (token : String) :
    minify zeroUnits colors token = "0" ∧ shortNumber token ≠ "0" ↔
      zeroUnits = true ∧ (isZero (shortNumber token) && hasLengthUnit (shortNumber token)) = true := by
  have hunit : hasLengthUnit "0" = false := by decide
  rw [minify_eq, shortZero, Bool.and_assoc]
  generalize shortNumber token = short
  constructor
  · rintro ⟨hzero, hne⟩
    split at hzero
    · next hloses => rwa [Bool.and_eq_true] at hloses
    · -- No color is spelled zero.
      exfalso
      rw [shortColor] at hzero
      split at hzero
      · cases hshortest : Color.shortest? short with
        | none =>
            rw [hshortest] at hzero
            exact hne hzero
        | some spelled =>
            rw [hshortest, Option.getD_some] at hzero
            have hcolor := (Color.shortest?_of_shortest? hshortest).1
            rw [hzero] at hcolor
            revert hcolor
            decide
      · exact hne hzero
  · rintro ⟨rfl, hloses⟩
    rw [Bool.true_and, if_pos hloses]
    constructor
    · cases colors <;> decide
    · rintro rfl
      rw [hunit, Bool.and_false] at hloses
      cases hloses

end Units

end Word

namespace Declaration

open Text Word

/-- A token becomes zero by the loss of its unit, and not as a number, exactly if its declaration is one whose zeros
may lose their units, and the token is a length of which either all digits are zeros, or the first that is not is no
ASCII digit. -/
theorem losesUnit_iff {profile : Profile} {d : Declaration} {i : Nat} {token : String} (h : d.value[i]? = some token) :
    (d.minify profile).value[i]? = some "0" ∧ shortNumber token ≠ "0" ↔
      d.keepsValue = false ∧ profile.properties.zeroUnits = true ∧
        zeroUnitProperties.contains (lower d.name) = false ∧
        ∃ p : NumberParts, p.IsLength ∧ token = String.ofList p.text ∧
          ((∀ c ∈ p.digits, c = '0') ∨ ∃ c, p.lead? = some c ∧ c.isDigit = false) := by
  have hlead (p : NumberParts) : (∀ c ∈ p.lead?, c.isDigit = false) ↔
      (∀ c ∈ p.digits, c = '0') ∨ ∃ c, p.lead? = some c ∧ c.isDigit = false := by
    cases hlead : p.lead? with
    | none => simpa [NumberParts.lead?] using hlead
    | some c =>
        have hne : ¬ ∀ c ∈ p.digits, c = '0' := by
          intro hall
          have hc : c ≠ '0' := by simpa using List.find?_some hlead
          exact hc (hall c (List.mem_of_find?_eq_some hlead))
        simp [hne]
  simp only [← hlead, ← isZero_and_hasLengthUnit_iff]
  rw [minify]
  split
  · next hkeeps =>
      simp only [h, hkeeps, Bool.true_eq_false, false_and, iff_false, Option.some.injEq, not_and, not_not]
      rintro rfl
      decide
  · next hkeeps =>
      simp only [List.getElem?_map, h, Option.map_some, Option.some.injEq, Word.minify_eq_zero_iff, hkeeps, true_and,
        Bool.and_eq_true, Bool.not_eq_true', and_assoc]

theorem losesUnit_margin :
    let d : Declaration := { name := "margin", value := ["auto", "-0.0PX"] }
    d.value[1]? = some "-0.0PX" ∧
      ((d.minify Profile.modern).value[1]? = some "0" ∧ shortNumber "-0.0PX" ≠ "0" ↔
        d.keepsValue = false ∧ Profile.modern.properties.zeroUnits = true ∧
          zeroUnitProperties.contains (lower d.name) = false ∧
          ∃ p : NumberParts, p.IsLength ∧ "-0.0PX" = String.ofList p.text ∧
            ((∀ c ∈ p.digits, c = '0') ∨ ∃ c, p.lead? = some c ∧ c.isDigit = false)) := by
  intro d
  exact ⟨rfl, losesUnit_iff rfl⟩

/-- Three pixels, the three in digits of another script, come to be none. -/
theorem losesUnit_foreign :
    let d : Declaration := { name := "margin", value := ["٣px"] }
    (d.minify Profile.modern).value[0]? = some "0" ∧ shortNumber "٣px" ≠ "0" ∧
      ¬ ∃ p : NumberParts, p.IsLength ∧ "٣px" = String.ofList p.text ∧ ∀ c ∈ p.digits, c = '0' := by
  intro d
  refine ⟨by decide +kernel, by decide +kernel, ?_⟩
  rintro ⟨p, hlength, htext, hzeros⟩
  have hparts : numberParts? "٣px" = some ⟨[], ['٣'], none, ['p', 'x']⟩ := by decide +kernel
  rw [htext, NumberParts.numberParts?_text hlength.wellFormed, Option.some.injEq] at hparts
  rw [hparts] at hzeros
  exact absurd (hzeros '٣' List.mem_cons_self) (by decide)

end Declaration

end CssMinify
