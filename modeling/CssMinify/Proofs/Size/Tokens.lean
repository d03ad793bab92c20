import CssMinify.Proofs.Runs.Round
import CssMinify.Proofs.Stability.Tokens

/-! Shortening a value never makes it longer: neither a number, nor a zero without its unit, nor the spelling
that is picked for a color takes more bytes than the token had. -/

namespace CssMinify

namespace Word

open Text NumberParts

theorem text_of_numberParts? {token : String} {p : NumberParts} (h : numberParts? token = some p) :
    p.text = token.toList := by
  simp only [numberParts?, List.span_eq_takeWhile_dropWhile] at h
  split at h
  case isFalse => cases h
  have hsign (cs : List Char) : (cutSign cs).1 ++ (cutSign cs).2 = cs := by
    cases cs with
    | nil => rfl
    | cons c cs =>
        rw [cutSign]
        split <;> rfl
  have hfraction (cs : List Char) : point (cutFraction cs).1 ++ (cutFraction cs).2 = cs := by
    unfold cutFraction
    split
    · simp [List.span_eq_takeWhile_dropWhile, point, List.takeWhile_append_dropWhile]
    · rfl
  rw [← Option.some.inj h, NumberParts.text]
  simp only [hfraction, List.takeWhile_append_dropWhile, hsign]

theorem dropZeros_sublist (digits : List Char) : (dropZeros digits).Sublist digits := by
  have hsub := (List.dropWhile_sublist (· == '0') (l := digits.reverse)).reverse
  rwa [List.reverse_reverse] at hsub

/-- The shortest text of a number leaves characters out and adds none. -/
theorem text_normal_sublist {p : NumberParts} (hdigits : (p.whole.isEmpty && (p.fraction.getD []).isEmpty) = false) :
    p.normal.text.Sublist p.text := by
  have hwhole := List.dropWhile_sublist (· == '0') (l := p.whole)
  have hfraction := dropZeros_sublist (p.fraction.getD [])
  have hpoint (h : dropZeros (p.fraction.getD []) ≠ []) :
      (point (some (dropZeros (p.fraction.getD [])))).Sublist (point p.fraction) := by
    cases hsome : p.fraction with
    | none =>
        rw [hsome] at h
        exact absurd rfl h
    | some digits =>
        rw [hsome, Option.getD_some] at hfraction
        exact hfraction.cons_cons '.'
  have hzero (hnone : p.whole.dropWhile (· == '0') = []) (hnone' : dropZeros (p.fraction.getD []) = []) :
      ['0'].Sublist (p.whole ++ point p.fraction) := by
    rw [dropZeros, List.reverse_eq_nil_iff, List.dropWhile_eq_nil_iff] at hnone'
    rw [List.dropWhile_eq_nil_iff] at hnone
    rw [List.singleton_sublist, List.mem_append]
    rw [Bool.and_eq_false_iff, List.isEmpty_eq_false_iff, List.isEmpty_eq_false_iff] at hdigits
    rcases hdigits with hdigits | hdigits
    · obtain ⟨c, hc⟩ := List.exists_mem_of_ne_nil _ hdigits
      exact .inl (beq_iff_eq.mp (hnone c hc) ▸ hc)
    · obtain ⟨c, hc⟩ := List.exists_mem_of_ne_nil _ hdigits
      rw [beq_iff_eq.mp (hnone' c (List.mem_reverse.mpr hc))] at hc
      cases hsome : p.fraction with
      | none =>
          rw [hsome] at hc
          cases hc
      | some digits =>
          rw [hsome] at hc
          exact .inr (List.mem_cons_of_mem '.' hc)
  rw [normal]
  generalize p.whole.dropWhile (· == '0') = whole at hwhole hzero
  generalize dropZeros (p.fraction.getD []) = fraction at hpoint hzero
  cases whole with
  | nil =>
      cases fraction with
      | nil =>
          have hsub := ((hzero rfl rfl).append_right p.unit).trans (List.sublist_append_right p.sign _)
          rwa [List.append_assoc] at hsub
      | cons c fraction =>
          exact (((hpoint (by simp)).append_right p.unit).trans (List.sublist_append_right p.whole _)).append_left p.sign
  | cons d whole =>
      cases fraction with
      | nil => exact (hwhole.append (List.sublist_append_right (point p.fraction) p.unit)).append_left p.sign
      | cons c fraction => exact (hwhole.append ((hpoint (by simp)).append_right p.unit)).append_left p.sign

theorem byteLength_shortNumber_le (token : String) : byteLength (shortNumber token) ≤ byteLength token := by
  cases h : minifyNumber? token with
  | none => rw [shortNumber, h, Option.getD_none]
  | some short =>
      obtain ⟨p, hp, rfl, hdigits⟩ := exists_of_minifyNumber? h
      rw [shortNumber, h, Option.getD_some, byteLength_eq, byteLength_eq, print_eq, String.toList_ofList,
        ← text_of_numberParts? hp]
      exact total_le_of_sublist _ (text_normal_sublist hdigits)

theorem byteLength_shortZero_le (zeroUnits : Bool) (token : String) :
    byteLength (shortZero zeroUnits token) ≤ byteLength token := by
  rw [shortZero]
  split
  · next hzero =>
      have hne : token.toList ≠ [] := by
        intro hnil
        simp [isZero, unit?, hnil, cutSign, cutFraction] at hzero
      have hle := length_le_byteLength token
      have hpos := List.length_pos_iff.mpr hne
      have hone : byteLength "0" = 1 := by decide
      omega
  · exact Nat.le_refl _

end Word

namespace Word

open Text

theorem byteLength_minify_le (zeroUnits colors : Bool) (token : String) :
    byteLength (minify zeroUnits colors token) ≤ byteLength token := by
  have hplain := (byteLength_shortZero_le zeroUnits (shortNumber token)).trans (byteLength_shortNumber_le token)
  rw [minify_eq, shortColor]
  split
  · cases h : Color.shortest? (shortZero zeroUnits (shortNumber token)) with
    | none => exact hplain
    | some short => exact (Color.byteLength_shortest?_le h).trans hplain
  · exact hplain

/-- Separators stay as they are. -/
theorem minify_separator {token : String} (h : isSeparator token = true) (zeroUnits colors : Bool) :
    minify zeroUnits colors token = token := by
  have hboth : ∀ t ∈ [",", "/"], ∀ zeroUnits colors, minify zeroUnits colors t = t := by decide
  refine hboth token ?_ zeroUnits colors
  simpa [isSeparator] using h

end Word

namespace Value

open Text

/-- A value whose tokens are shortened, and whose separators are kept, is no longer. -/
theorem byteLength_print_map_le {shorten : String → String}
    (hle : ∀ token, byteLength (shorten token) ≤ byteLength token)
    (hseparator : ∀ token, isSeparator token = true → shorten token = token) (value : Value) :
    byteLength (print (value.map shorten)) ≤ byteLength (print value) := by
  have hafter (previous : String) (rest : Value) :
      byteLength (printAfter (shorten previous) (rest.map shorten)) ≤ byteLength (printAfter previous rest) := by
    induction rest generalizing previous with
    | nil => exact Nat.le_refl _
    | cons token rest ih =>
        have hrest := ih token
        have htoken := hle token
        have hspace : byteLength (if isSeparator (shorten token) || isSeparator (shorten previous) then "" else " ")
            ≤ byteLength (if isSeparator token || isSeparator previous then "" else " ") := by
          by_cases h : (isSeparator token || isSeparator previous) = true
          · have h' : (isSeparator (shorten token) || isSeparator (shorten previous)) = true := by
              rw [Bool.or_eq_true] at h ⊢
              exact h.imp (fun h => by rw [hseparator _ h, h]) fun h => by rw [hseparator _ h, h]
            rw [h, h']
          · rw [if_neg h]
            split <;> decide
        simp only [List.map_cons, printAfter, byteLength_append]
        omega
  cases value with
  | nil => exact Nat.le_refl _
  | cons token rest =>
      have hrest := hafter token rest
      have htoken := hle token
      simp only [List.map_cons, print, byteLength_append]
      omega

end Value

namespace Declaration

theorem name_minify (profile : Profile) (d : Declaration) : (d.minify profile).name = d.name := by
  rw [minify]
  split <;> rfl

/-- A declaration of which only the value is another takes as much less as the value does. -/
theorem size_le_of_value_le {d : Declaration} {value : Value}
    (h : Text.byteLength (Value.print value) ≤ Text.byteLength (Value.print d.value)) :
    ({ d with value } : Declaration).size ≤ d.size := by
  simp only [size, print, Text.byteLength_append]
  omega

theorem size_lt_of_value_lt {d : Declaration} {value : Value}
    (h : Text.byteLength (Value.print value) < Text.byteLength (Value.print d.value)) :
    ({ d with value } : Declaration).size < d.size := by
  simp only [size, print, Text.byteLength_append]
  omega

theorem size_minify_le (profile : Profile) (d : Declaration) : (d.minify profile).size ≤ d.size := by
  rw [minify]
  split
  · exact Nat.le_refl _
  · exact size_le_of_value_le (Value.byteLength_print_map_le (Word.byteLength_minify_le _ _)
      (fun token h => Word.minify_separator h _ _) d.value)

end Declaration

end CssMinify
