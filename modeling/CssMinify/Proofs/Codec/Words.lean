import CssMinify.Property.Restore
import Mathlib.Data.List.TakeDrop
import Mathlib.Data.List.TakeWhile
import Mathlib.Tactic.ByContra

/-! Shapes of tokens that exclude each other. A keyword has neither a digit nor a parenthesis nor a number
sign in it, a number has digits and no parenthesis, a function has a parenthesis, and functions are told
apart by their names. So a token of a background or of a list style fits one part at most. -/

namespace CssMinify

namespace Text

/-- Words in lower case letters and dashes. -/
def arePlain (words : List String) : Bool := words.all fun w => w.toList.all fun c => c.isLower || c == '-'

theorem toNat_of_isLower {c : Char} (h : c.isLower = true) : 97 ≤ c.toNat ∧ c.toNat ≤ 122 := by
  unfold Char.isLower at h
  simp only [Bool.and_eq_true, decide_eq_true_eq] at h
  exact h

theorem toNat_of_isUpper {c : Char} (h : c.isUpper = true) : 65 ≤ c.toNat ∧ c.toNat ≤ 90 := by
  unfold Char.isUpper at h
  simp only [decide_eq_true_eq] at h
  exact h

theorem toNat_of_isAlpha {c : Char} (h : c.isAlpha = true) : 65 ≤ c.toNat ∧ c.toNat ≤ 122 := by
  rcases Bool.or_eq_true_iff.mp h with h | h
  · have hrange := toNat_of_isUpper h
    omega
  · have hrange := toNat_of_isLower h
    omega

/-- Only capital letters have another form in lower case. -/
theorem toLower_eq_self {c : Char} (h : c.toNat < 65 ∨ 90 < c.toNat) : c.toLower = c := by
  unfold Char.toLower
  rw [dif_neg]
  rintro ⟨hlow, hhigh⟩
  have hlow : 65 ≤ c.toNat := hlow
  have hhigh : c.toNat ≤ 90 := hhigh
  omega

theorem toLower_of_isLower {c : Char} (h : c.isLower = true) : c.toLower = c := by
  have hrange := toNat_of_isLower h
  exact toLower_eq_self (by omega)

section Plain

variable {words : List String} (hplain : Text.arePlain words = true)

include hplain

theorem lower_of_mem {w : String} (hw : w ∈ words) : lower w = w := by
  have hall := List.all_eq_true.mp (List.all_eq_true.mp hplain w hw)
  rw [← String.toList_inj, lower, String.toList_ofList]
  conv_rhs => rw [← List.map_id w.toList]
  refine List.map_congr_left fun c hc => ?_
  rcases Bool.or_eq_true_iff.mp (hall c hc) with h | h
  · exact toLower_of_isLower h
  · rw [beq_iff_eq.mp h]
    rfl

/-- Plain words are found by folding the text. -/
theorem isOneOf_iff {s : String} : isOneOf words s = true ↔ lower s ∈ words := by
  simp only [isOneOf, sameFolded, List.any_eq_true, beq_iff_eq]
  refine ⟨?_, fun h => ⟨lower s, h, lower_of_mem hplain h⟩⟩
  rintro ⟨w, hw, hws⟩
  rw [← hws, lower_of_mem hplain hw]
  exact hw

/-- A text is not among the words of two lists that share none. -/
theorem isOneOf_eq_false {others : List String} {s : String} (hothers : arePlain others = true)
    (hapart : words.all (!others.contains ·) = true) (h : isOneOf words s = true) :
    isOneOf others s = false := by
  rw [Bool.eq_false_iff]
  intro ho
  have hnot := List.all_eq_true.mp hapart _ ((isOneOf_iff hplain).mp h)
  rw [List.contains_iff_mem.mpr ((isOneOf_iff hothers).mp ho)] at hnot
  cases hnot

/-- In whatever case, a plain word has no characters but letters and dashes. -/
theorem toLower_of_isOneOf {s : String} (h : isOneOf words s = true) :
    ∀ c ∈ s.toList, (c.toLower.isLower || c.toLower == '-') = true := by
  have hall := List.all_eq_true.mp (List.all_eq_true.mp hplain _ ((isOneOf_iff hplain).mp h))
  rw [lower, String.toList_ofList] at hall
  exact fun c hc => hall _ (List.mem_map_of_mem hc)

end Plain

/-- Folding moves no character onto or off a digit. -/
theorem isDecimalDigit_eq_false {c : Char} (h : (c.toLower.isLower || c.toLower == '-') = true) :
    isDecimalDigit c = false := by
  have hstarts : ∀ start ∈ decimalZeros, start = 48 ∨ 123 ≤ start := by decide
  have hrange : c.toNat < 123 ∧ (c.toNat = 45 ∨ 65 ≤ c.toNat) := by
    by_cases hupper : 65 ≤ c.toNat ∧ c.toNat ≤ 90
    · omega
    · rw [toLower_eq_self (by omega), Bool.or_eq_true, beq_iff_eq] at h
      rcases h with h | rfl
      · have hlower := toNat_of_isLower h
        omega
      · decide
  have hnone : (decimalZeros.find? fun start => start ≤ c.toNat && c.toNat < start + 10) = none := by
    refine List.find?_eq_none.mpr fun start hstart => ?_
    have := hstarts start hstart
    simp only [Bool.and_eq_true, decide_eq_true_eq]
    omega
  rw [isDecimalDigit, decimalValue?, hnone]
  rfl

end Text

namespace Word

section Functions

variable {token name : String}

theorem mem_of_functionName? (h : functionName? token = some name) : '(' ∈ token.toList := by
  rw [functionName?, Text.cutAtFirst?] at h
  by_contra hmem
  have hspan : token.toList.span (· != '(') = (token.toList, []) := by
    rw [List.span_eq_takeWhile_dropWhile, List.takeWhile_eq_self_iff.mpr, List.dropWhile_eq_nil_iff.mpr]
    all_goals
      intro c hc
      rw [bne_iff_ne]
      rintro rfl
      exact hmem hc
  rw [hspan] at h
  cases h

theorem functionName?_eq_none (h : ∀ c ∈ token.toList, (c == '(') = false) : functionName? token = none := by
  rw [Option.eq_none_iff_forall_ne_some]
  intro name hname
  have hparen := h _ (mem_of_functionName? hname)
  simp at hparen

/-- A name without dashes has no mark of a vendor. -/
theorem unprefixed_of_isOneOf {words : List String} (hplain : Text.arePlain words = true)
    (hdash : words.all (!·.toList.contains '-') = true) (h : Text.isOneOf words name = true) :
    unprefixed name = name := by
  have hnone : vendorPrefix? name = none := by
    rw [vendorPrefix?, List.find?_eq_none]
    intro mark hmark hstarts
    have hfirst : mark.toList.head? = some '-' := by
      revert hmark
      clear hstarts
      revert mark
      decide
    rw [Text.startsWith, List.isPrefixOf_iff_prefix] at hstarts
    have hmem : '-' ∈ name.toList := hstarts.subset (List.mem_of_mem_head? (by rw [hfirst]; rfl))
    have hlower : '-' ∈ (Text.lower name).toList := by
      rw [Text.lower, String.toList_ofList]
      exact List.mem_map_of_mem (f := Char.toLower) hmem
    have hnot := List.all_eq_true.mp hdash _ ((Text.isOneOf_iff hplain).mp h)
    rw [List.contains_iff_mem.mpr hlower] at hnot
    cases hnot
  rw [unprefixed, hnone]
  rfl

end Functions

section Numbers

/-- Characters that a number with its unit is made of. -/
def isNumeric (c : Char) : Bool := Text.isDecimalDigit c || isUnitChar c || c == '+' || c == '-' || c == '.'

theorem cutSign_append (s : List Char) : (cutSign s).1 ++ (cutSign s).2 = s := by
  cases s with
  | nil => rfl
  | cons c rest =>
      rw [cutSign]
      split <;> rfl

theorem isNumeric_cutSign (s : List Char) : ∀ c ∈ (cutSign s).1, isNumeric c = true := by
  cases s with
  | nil => simp [cutSign]
  | cons c rest =>
      rw [cutSign]
      split
      · next h =>
          intro d hd
          rw [List.mem_singleton] at hd
          subst hd
          rw [Bool.or_eq_true] at h
          rcases h with h | h <;> simp [isNumeric, h]
      · simp

theorem isNumeric_of_digits {digits : List Char} (c : Char) (h : c ∈ digits.takeWhile Text.isDecimalDigit) :
    isNumeric c = true := by
  simp [isNumeric, List.mem_takeWhile_imp h]

theorem isNumeric_cutFraction {s : List Char} (h : ∀ c ∈ (cutFraction s).2, isNumeric c = true) :
    ∀ c ∈ s, isNumeric c = true := by
  unfold cutFraction at h
  split at h
  · next rest =>
      rw [List.span_eq_takeWhile_dropWhile] at h
      intro c hc
      rcases List.mem_cons.mp hc with rfl | hc
      · decide
      · rw [← List.takeWhile_append_dropWhile (p := Text.isDecimalDigit) (l := rest), List.mem_append] at hc
        exact hc.elim (isNumeric_of_digits c) (h c)
  · exact h

theorem isNumeric_exponent {s : List Char} (h : ∀ c ∈ s.drop (exponentLength s), isNumeric c = true) :
    ∀ c ∈ s, isNumeric c = true := by
  cases s with
  | nil => simp
  | cons e rest =>
      simp only [exponentLength] at h
      split at h
      · next he =>
          rw [Bool.and_eq_true, Bool.or_eq_true] at he
          have happ := cutSign_append rest
          generalize hcut : cutSign rest = cut at h happ
          obtain ⟨sign, digits⟩ := cut
          subst happ
          have hsign := isNumeric_cutSign (sign ++ digits)
          rw [hcut] at hsign
          intro c hc
          rcases List.mem_cons.mp hc with rfl | hc
          · rcases he.1 with he | he <;> simp only [beq_iff_eq] at he <;> subst he <;> decide
          · rcases List.mem_append.mp hc with hc | hc
            · exact hsign c hc
            · have hdigits := List.takeWhile_append_dropWhile (p := Text.isDecimalDigit) (l := digits)
              have hdrop : (e :: (sign ++ digits)).drop
                    (1 + sign.length + (digits.takeWhile Text.isDecimalDigit).length)
                  = digits.dropWhile Text.isDecimalDigit := by
                have hleft : (digits.takeWhile Text.isDecimalDigit ++ digits.dropWhile Text.isDecimalDigit).drop
                    (digits.takeWhile Text.isDecimalDigit).length = digits.dropWhile Text.isDecimalDigit :=
                  List.drop_left
                rw [hdigits] at hleft
                rw [Nat.add_assoc, Nat.add_comm 1, List.drop_succ_cons, ← List.drop_drop, List.drop_left, hleft]
              simp only [hdrop] at h
              rw [← hdigits, List.mem_append] at hc
              exact hc.elim (isNumeric_of_digits c) (h c)
      · exact h

variable {token : String} (h : (unit? token).isSome = true)

include h

/-- A number has a digit, and no characters that numbers are not made of. -/
theorem of_isSome_unit? : (∃ c ∈ token.toList, Text.isDecimalDigit c = true) ∧
    ∀ c ∈ token.toList, isNumeric c = true := by
  simp only [unit?, List.span_eq_takeWhile_dropWhile] at h
  split at h
  · cases h
  next hparts =>
  simp only [Bool.or_eq_true, Bool.and_eq_true, List.isEmpty_iff, Bool.not_eq_true', not_or,
    Bool.not_eq_false] at hparts
  obtain ⟨hdigits, hunit⟩ := hparts
  have hsplit := List.takeWhile_append_dropWhile (p := Text.isDecimalDigit) (l := (cutSign token.toList).2)
  have hsign := cutSign_append token.toList
  refine ⟨?_, ?_⟩
  · by_cases hwhole : (cutSign token.toList).2.takeWhile Text.isDecimalDigit = []
    · generalize hrest : (cutSign token.toList).2.dropWhile Text.isDecimalDigit = rest at hsplit hdigits
      have hfraction := fun hnil => hdigits ⟨hwhole, hnil⟩
      unfold cutFraction at hfraction
      split at hfraction
      · next fraction =>
          rw [List.span_eq_takeWhile_dropWhile, Option.getD_some] at hfraction
          obtain ⟨c, hc⟩ := List.exists_mem_of_ne_nil _ hfraction
          refine ⟨c, ?_, List.mem_takeWhile_imp hc⟩
          rw [← hsign, ← hsplit, hwhole]
          have hmem : c ∈ fraction := (List.takeWhile_sublist _).subset hc
          simp [hmem]
      · exact absurd rfl hfraction
    · obtain ⟨c, hc⟩ := List.exists_mem_of_ne_nil _ hwhole
      refine ⟨c, ?_, List.mem_takeWhile_imp hc⟩
      rw [← hsign]
      exact List.mem_append_right _ ((List.takeWhile_sublist _).subset hc)
  · have hrest : ∀ c ∈ (cutSign token.toList).2.dropWhile Text.isDecimalDigit, isNumeric c = true := by
      refine isNumeric_cutFraction (isNumeric_exponent ?_)
      intro c hc
      have hc' := List.all_eq_true.mp hunit c hc
      simp [isNumeric, hc']
    intro c hc
    rw [← hsign, ← hsplit] at hc
    rcases List.mem_append.mp hc with hc | hc
    · exact isNumeric_cutSign _ c hc
    · exact (List.mem_append.mp hc).elim (isNumeric_of_digits c) (hrest c)

theorem functionName?_of_isSome_unit? : functionName? token = none := by
  refine functionName?_eq_none fun c hc => ?_
  have hnumeric := (of_isSome_unit? h).2 c hc
  rw [beq_eq_false_iff_ne]
  rintro rfl
  revert hnumeric
  decide

theorem isOneOf_of_isSome_unit? {words : List String} (hplain : Text.arePlain words = true) :
    Text.isOneOf words token = false := by
  rw [Bool.eq_false_iff]
  intro hword
  obtain ⟨⟨c, hc, hdigit⟩, -⟩ := of_isSome_unit? h
  rw [Text.isDecimalDigit_eq_false (Text.toLower_of_isOneOf hplain hword c hc)] at hdigit
  cases hdigit

end Numbers

section Keywords

variable {token : String} {words : List String}

theorem functionName?_of_isOneOf (hplain : Text.arePlain words = true) (h : Text.isOneOf words token = true) :
    functionName? token = none := by
  refine functionName?_eq_none fun c hc => ?_
  rw [beq_eq_false_iff_ne]
  rintro rfl
  have hplain' := Text.toLower_of_isOneOf hplain h _ hc
  revert hplain'
  decide

theorem isOneOf_of_functionName? {name : String} (hplain : Text.arePlain words = true)
    (h : functionName? token = some name) : Text.isOneOf words token = false := by
  rw [Bool.eq_false_iff]
  intro hword
  rw [functionName?_of_isOneOf hplain hword] at h
  cases h

theorem isOneOf_of_isUnit {profile : Profile} (hplain : Text.arePlain words = true)
    (h : isUnit profile token = true) : Text.isOneOf words token = false :=
  isOneOf_of_isSome_unit? (Option.isSome_of_any h) hplain

theorem isUnit_of_isOneOf (profile : Profile) (hplain : Text.arePlain words = true)
    (h : Text.isOneOf words token = true) : isUnit profile token = false := by
  rw [Bool.eq_false_iff]
  intro hunit
  rw [isOneOf_of_isUnit hplain hunit] at h
  cases h

theorem isImage_eq_false (hnone : Text.isOneOf ["none"] token = false) (h : functionName? token = none) :
    isImage token = false := by
  rw [isImage, isUrl, h]
  simpa [Text.isOneOf, Text.sameFolded_comm] using hnone

theorem isImage_of_isOneOf (hplain : Text.arePlain words = true) (hapart : words.all (! ["none"].contains ·) = true)
    (h : Text.isOneOf words token = true) : isImage token = false :=
  isImage_eq_false (Text.isOneOf_eq_false hplain (by decide) hapart h) (functionName?_of_isOneOf hplain h)

/-- A keyword is no length. -/
theorem isLength_of_isOneOf (profile : Profile) (hplain : Text.arePlain words = true)
    (h : Text.isOneOf words token = true) : (isUnit profile token || isCalculation token) = false := by
  rw [isUnit_of_isOneOf profile hplain h, isCalculation, functionName?_of_isOneOf hplain h]
  rfl

theorem isPosition_of_isOneOf (profile : Profile) (hplain : Text.arePlain words = true)
    (hapart : words.all (!Keyword.positions.contains ·) = true) (h : Text.isOneOf words token = true) :
    isPosition profile token = false := by
  rw [isPosition, Bool.or_assoc, Text.isOneOf_eq_false hplain (by decide) hapart h,
    isLength_of_isOneOf profile hplain h]
  rfl

theorem isSize_of_isOneOf (profile : Profile) (hplain : Text.arePlain words = true)
    (hapart : words.all (!Keyword.sizes.contains ·) = true) (h : Text.isOneOf words token = true) :
    isSize profile token = false := by
  rw [isSize, Bool.or_assoc, Text.isOneOf_eq_false hplain (by decide) hapart h,
    isLength_of_isOneOf profile hplain h]
  rfl

end Keywords

section Lengths

variable {profile : Profile} {token : String} {words keywords : List String}

theorem isOneOf_of_isLength (hplain : Text.arePlain words = true)
    (h : (isUnit profile token || isCalculation token) = true) : Text.isOneOf words token = false := by
  rcases Bool.or_eq_true_iff.mp h with h | h
  · exact isOneOf_of_isUnit hplain h
  · rw [isCalculation, Option.any_eq_true] at h
    obtain ⟨name, hname, -⟩ := h
    exact isOneOf_of_functionName? hplain hname

/-- A calculation is no image, since the two are told apart by the name of the function. -/
theorem isImage_of_isLength (h : (isUnit profile token || isCalculation token) = true) :
    isImage token = false := by
  have hnone : Text.isOneOf ["none"] token = false := isOneOf_of_isLength (by decide) h
  rcases Bool.or_eq_true_iff.mp h with h | h
  · exact isImage_eq_false hnone (functionName?_of_isSome_unit? (Option.isSome_of_any h))
  · rw [isCalculation, Option.any_eq_true] at h
    obtain ⟨name, hname, hcalculation⟩ := h
    have hurl : Text.sameFolded name "url" = false := by
      rw [Bool.eq_false_iff]
      intro hfolded
      have hname' : Text.isOneOf ["url"] name = true := by
        simpa [Text.isOneOf, Text.sameFolded_comm] using hfolded
      rw [unprefixed_of_isOneOf (by decide) (by decide) hname',
        Text.isOneOf_eq_false (by decide) (by decide) (by decide) hname'] at hcalculation
      cases hcalculation
    have himage : Text.isOneOf Keyword.imageFunctions (unprefixed name) = false :=
      Text.isOneOf_eq_false (by decide) (by decide) (by decide) hcalculation
    rw [isImage, isUrl, hname, Option.any_some, Option.any_some, hurl, himage]
    simpa [Text.isOneOf, Text.sameFolded_comm] using hnone

/-- A keyword of a list, a number or a calculation is none of the words of another list. -/
theorem isOneOf_of_isKeywordOrLength (hkeywords : Text.arePlain keywords = true)
    (hplain : Text.arePlain words = true) (hapart : keywords.all (!words.contains ·) = true)
    (h : (Text.isOneOf keywords token || isUnit profile token || isCalculation token) = true) :
    Text.isOneOf words token = false := by
  rw [Bool.or_assoc, Bool.or_eq_true] at h
  exact h.elim (Text.isOneOf_eq_false hkeywords hplain hapart) (isOneOf_of_isLength hplain)

theorem isImage_of_isPosition (h : isPosition profile token = true) : isImage token = false := by
  rw [isPosition, Bool.or_assoc, Bool.or_eq_true] at h
  exact h.elim (isImage_of_isOneOf (by decide) (by decide)) isImage_of_isLength

end Lengths

section Colors

variable {token : String} {words : List String}

/-- The words that are colors. -/
def colorWords : List String := "transparent" :: "currentcolor" :: Color.names.map Prod.fst

theorem arePlain_colorWords : Text.arePlain colorWords = true := by decide +kernel

/-- Lists of keywords that are no colors. -/
def colorless : List (List String) :=
  [["none"], Keyword.globals, Keyword.borderStyles, Keyword.borderWidths, Keyword.attachments, Keyword.boxes,
    Keyword.repeats, Keyword.positions, Keyword.sizes, Keyword.markerPositions, Keyword.markers]

theorem apart_of_mem_colorless : ∀ words ∈ colorless,
    Text.arePlain words = true ∧ colorWords.all (!words.contains ·) = true := by
  decide +kernel

theorem isOneOf_of_isNamedColor (h : isNamedColor token = true) : Text.isOneOf colorWords token = true := by
  rw [Text.isOneOf_iff arePlain_colorWords]
  have hlower := fun w => Text.lower_of_mem arePlain_colorWords (w := w)
  simp only [isNamedColor, Color.isName, Text.sameFolded, Bool.or_eq_true, List.any_eq_true,
    beq_iff_eq] at h
  rcases h with (⟨pair, hpair, hname⟩ | h) | h
  · have hmem : pair.1 ∈ colorWords := by simp [colorWords, List.mem_map_of_mem (f := Prod.fst) hpair]
    rw [← hname]
    exact hmem
  · have hmem : "transparent" ∈ colorWords := by simp [colorWords]
    rw [h, hlower _ hmem]
    exact hmem
  · have hmem : "currentcolor" ∈ colorWords := by simp [colorWords]
    rw [h, hlower _ hmem]
    exact hmem

/-- A color is a number sign with digits, one of its words, or a function of its own. -/
theorem isColor_cases (h : isColor token = true) :
    (token.toList.head? = some '#' ∧ functionName? token = none) ∨ Text.isOneOf colorWords token = true ∨
      ∃ name, functionName? token = some name ∧ Text.isOneOf Keyword.colorFunctions name = true := by
  rw [isColor, Bool.or_assoc, Bool.or_eq_true, Bool.or_eq_true] at h
  rcases h with h | h | h
  · left
    rw [isHexColor] at h
    split at h
    · next digits hdigits =>
        rw [Bool.and_eq_true, List.all_eq_true] at h
        refine ⟨by rw [hdigits]; rfl, functionName?_eq_none fun c hc => ?_⟩
        rw [beq_eq_false_iff_ne]
        rintro rfl
        rw [hdigits] at hc
        rcases List.mem_cons.mp hc with hc | hc
        · cases hc
        · have hhex := h.2 _ hc
          revert hhex
          decide
    · cases h
  · exact .inr (.inl (isOneOf_of_isNamedColor h))
  · rw [isColorFunction, Option.any_eq_true] at h
    exact .inr (.inr h)

theorem isOneOf_of_head? (hplain : Text.arePlain words = true) (h : token.toList.head? = some '#') :
    Text.isOneOf words token = false := by
  rw [Bool.eq_false_iff]
  intro hword
  have hnot := Text.toLower_of_isOneOf hplain hword '#' (List.mem_of_mem_head? h)
  revert hnot
  decide

variable (h : isColor token = true)

include h

theorem isOneOf_of_isColor (hwords : words ∈ colorless) : Text.isOneOf words token = false := by
  obtain ⟨hplain, hapart⟩ := apart_of_mem_colorless words hwords
  rcases isColor_cases h with ⟨hhead, -⟩ | hword | ⟨name, hname, -⟩
  · exact isOneOf_of_head? hplain hhead
  · exact Text.isOneOf_eq_false arePlain_colorWords hplain hapart hword
  · exact isOneOf_of_functionName? hplain hname

theorem isLength_of_isColor (profile : Profile) : (isUnit profile token || isCalculation token) = false := by
  rcases isColor_cases h with ⟨hhead, hname⟩ | hword | ⟨name, hname, hcolor⟩
  · have hunit : isUnit profile token = false := by
      rw [Bool.eq_false_iff]
      intro hunit
      have hnumeric := (of_isSome_unit? (Option.isSome_of_any hunit)).2 '#' (List.mem_of_mem_head? hhead)
      revert hnumeric
      decide
    rw [hunit, isCalculation, hname]
    rfl
  · exact isLength_of_isOneOf profile arePlain_colorWords hword
  · have hunit : isUnit profile token = false := by
      rw [Bool.eq_false_iff]
      intro hunit
      rw [functionName?_of_isSome_unit? (Option.isSome_of_any hunit)] at hname
      cases hname
    rw [hunit, isCalculation, hname, Option.any_some,
      unprefixed_of_isOneOf (by decide) (by decide) hcolor,
      Text.isOneOf_eq_false (by decide) (by decide) (by decide) hcolor]
    rfl

theorem isImage_of_isColor : isImage token = false := by
  have hnone : Text.isOneOf ["none"] token = false :=
    isOneOf_of_isColor h (by simp [colorless])
  rcases isColor_cases h with ⟨-, hname⟩ | hword | ⟨name, hname, hcolor⟩
  · exact isImage_eq_false hnone hname
  · exact isImage_eq_false hnone (functionName?_of_isOneOf arePlain_colorWords hword)
  · have hurl : Text.isOneOf ["url"] name = false :=
      Text.isOneOf_eq_false (by decide) (by decide) (by decide) hcolor
    have himage : Text.isOneOf Keyword.imageFunctions name = false :=
      Text.isOneOf_eq_false (by decide) (by decide) (by decide) hcolor
    rw [isImage, isUrl, hname, Option.any_some, Option.any_some,
      unprefixed_of_isOneOf (by decide) (by decide) hcolor, himage]
    simpa [Text.isOneOf, Text.sameFolded_comm] using And.intro hnone hurl

theorem isPosition_of_isColor (profile : Profile) : isPosition profile token = false := by
  have hkeyword : Text.isOneOf Keyword.positions token = false :=
    isOneOf_of_isColor h (by simp [colorless])
  rw [isPosition, Bool.or_assoc, isLength_of_isColor h, hkeyword]
  rfl

theorem isSize_of_isColor (profile : Profile) : isSize profile token = false := by
  have hkeyword : Text.isOneOf Keyword.sizes token = false :=
    isOneOf_of_isColor h (by simp [colorless])
  rw [isSize, Bool.or_assoc, isLength_of_isColor h, hkeyword]
  rfl

end Colors

/-- A shape that no color has. -/
theorem isColor_eq_false {token : String} {shape : Bool} (hshape : isColor token = true → shape = false)
    (h : shape = true) : isColor token = false := by
  rw [Bool.eq_false_iff]
  intro hcolor
  rw [hshape hcolor] at h
  cases h

theorem isColor_of_isOneOf {token : String} {words : List String} (hwords : words ∈ colorless)
    (h : Text.isOneOf words token = true) : isColor token = false :=
  isColor_eq_false (fun hcolor => isOneOf_of_isColor hcolor hwords) h

end Word

end CssMinify
