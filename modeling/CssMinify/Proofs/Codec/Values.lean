import CssMinify.Proofs.Codec.Background

/-!
Sides, corners and list markers. The value that is put together from what one of these shorthands was split
into splits into the same again, and is made of the tokens that were there.
-/

namespace CssMinify

namespace Split

section Sides

variable {tokens : Value} {values : List Value} {a b c d : String}

/-- Four sides of one token each. -/
theorem fourValues?_cases (h : fourValues? tokens = some values) :
    ∃ a b c d, values = [[a], [b], [c], [d]] ∧ [a, b, c, d] ⊆ tokens ∧
      ∀ token ∈ tokens, isSeparator token = false := by
  unfold fourValues? at h
  split at h
  · cases h
  next hseparator =>
  have hfree : ∀ token ∈ tokens, isSeparator token = false := by simpa using hseparator
  split at h <;> cases h
  · exact ⟨_, _, _, _, rfl, by simp, hfree⟩
  · exact ⟨_, _, _, _, rfl, by simp, hfree⟩
  · exact ⟨_, _, _, _, rfl, by simp, hfree⟩
  · exact ⟨_, _, _, _, rfl, by simp, hfree⟩

theorem collapseFour_subset (a b c d : String) : Restore.collapseFour [a, b, c, d] ⊆ [a, b, c, d] := by
  rw [Restore.collapseFour]
  split_ifs <;> simp

theorem fourValues?_collapseFour (h : ∀ token ∈ [a, b, c, d], isSeparator token = false) :
    fourValues? (Restore.collapseFour [a, b, c, d]) = some [[a], [b], [c], [d]] := by
  have ha : isSeparator a = false := h a (by simp)
  have hb : isSeparator b = false := h b (by simp)
  have hc : isSeparator c = false := h c (by simp)
  have hd : isSeparator d = false := h d (by simp)
  by_cases hright : b = d
  · subst hright
    by_cases hbottom : a = c
    · subst hbottom
      by_cases htop : a = b
      · subst htop
        simp [Restore.collapseFour, fourValues?, ha]
      · simp [Restore.collapseFour, fourValues?, htop, ha, hb]
    · simp [Restore.collapseFour, fourValues?, hbottom, ha, hb, hc]
  · simp [Restore.collapseFour, fourValues?, hright, ha, hb, hc, hd]

theorem flatten_collapseFour (a b c d : String) :
    (Restore.collapseFour [[a], [b], [c], [d]]).flatten = Restore.collapseFour [a, b, c, d] := by
  simp only [Restore.collapseFour, ne_eq, List.cons.injEq, and_true]
  split_ifs <;> rfl

/-- A list with four values is one of four properties. -/
theorem eq_of_map_value {components : List Property} {a b c d : Value}
    (h : components.map (·.value) = [a, b, c, d]) :
    ∃ p q r s, components = [p, q, r, s] ∧ p.value = a ∧ q.value = b ∧ r.value = c ∧ s.value = d := by
  match components, h with
  | [p, q, r, s], h =>
      simp only [List.map_cons, List.map_nil, List.cons.injEq, and_true] at h
      exact ⟨p, q, r, s, rfl, h⟩

theorem fourValues?_restored (h : fourValues? tokens = some values) {components : List Property}
    (hvalues : components.map (·.value) = values) (hbound : ∀ c ∈ components, c.free = false) :
    ∃ value, Restore.fourValues? components = some value ∧ fourValues? value = some values ∧
      ∀ token ∈ value, token ∈ tokens ∧ token ∈ values.flatten := by
  obtain ⟨a, b, c, d, rfl, hsub, hfree⟩ := fourValues?_cases h
  obtain ⟨p, q, r, s, rfl, hp, hq, hr, hs⟩ := eq_of_map_value hvalues
  have hcollapse := collapseFour_subset a b c d
  refine ⟨Restore.collapseFour [a, b, c, d], ?_, ?_, ?_⟩
  · simp only [List.forall_mem_cons] at hbound
    rw [← flatten_collapseFour]
    simp [Restore.fourValues?, Restore.sideValue, hbound, hp, hq, hr, hs]
  · exact fourValues?_collapseFour fun token htoken => hfree token (hsub htoken)
  · exact fun token htoken => ⟨hsub (hcollapse htoken), hcollapse htoken⟩

end Sides

section Corners

variable {tokens : Value} {values : List Value}

/-- The radii of a corner, which are written once if they are the same. -/
def radii (h v : String) : Value := if h = v then [h] else [h, v]

theorem radii?_of_value {p : Property} {h v : String} (hp : p.value = radii h v) :
    Restore.radii? p = some (h, v) := by
  rw [Restore.radii?, hp, radii]
  by_cases heq : h = v
  · simp [heq]
  · simp [heq]

theorem zipWith_radii (h v : String) :
    (if ([h] : Value) == [v] then [h] else [h] ++ [v]) = radii h v := by
  by_cases heq : h = v
  · simp [radii, heq]
  · simp [radii, heq]

/-- Four corners with their radii. Where no vertical radii are written, they are the horizontal ones. -/
theorem borderRadius?_cases (h : borderRadius? tokens = some values) :
    ∃ h₁ h₂ h₃ h₄ v₁ v₂ v₃ v₄, values = [radii h₁ v₁, radii h₂ v₂, radii h₃ v₃, radii h₄ v₄] ∧
      [h₁, h₂, h₃, h₄] ++ [v₁, v₂, v₃, v₄] ⊆ tokens ∧
      ∀ token ∈ [h₁, h₂, h₃, h₄] ++ [v₁, v₂, v₃, v₄], isSeparator token = false := by
  have hcut := List.takeWhile_append_dropWhile (p := (· != "/")) (l := tokens)
  simp only [borderRadius?, List.span_eq_takeWhile_dropWhile] at h
  split at h
  · next horizontal heq =>
      obtain ⟨rfl, -⟩ := Prod.mk.inj heq
      obtain ⟨a, b, c, d, rfl, hsub, hfree⟩ := fourValues?_cases h
      have hsub' := List.Subset.trans hsub (List.takeWhile_sublist _).subset
      refine ⟨a, b, c, d, a, b, c, d, by simp [radii], List.append_subset.mpr ⟨hsub', hsub'⟩, ?_⟩
      exact fun token htoken => hfree token (hsub ((List.mem_append.mp htoken).elim id id))
  · next horizontal slash vertical heq =>
      obtain ⟨hhorizontal, hvertical⟩ := Prod.mk.inj heq
      simp only [Option.bind_eq_bind, Option.bind_eq_some_iff, Option.pure_def, Option.some.injEq] at h
      obtain ⟨hs, hhs, vs, hvs, rfl⟩ := h
      obtain ⟨h₁, h₂, h₃, h₄, rfl, hsubh, hfreeh⟩ := fourValues?_cases hhs
      obtain ⟨v₁, v₂, v₃, v₄, rfl, hsubv, hfreev⟩ := fourValues?_cases hvs
      refine ⟨h₁, h₂, h₃, h₄, v₁, v₂, v₃, v₄, ?_, ?_, ?_⟩
      · simp only [List.zipWith_cons_cons, List.zipWith_nil_right, zipWith_radii]
      · rw [hhorizontal, hvertical] at hcut
        rw [← hcut]
        refine List.append_subset.mpr ⟨?_, ?_⟩
        · exact List.Subset.trans hsubh (List.subset_append_left _ _)
        · exact List.Subset.trans hsubv (List.Subset.trans (List.subset_cons_self _ _) (List.subset_append_right _ _))
      · intro token htoken
        rcases List.mem_append.mp htoken with htoken | htoken
        · exact hfreeh token (hsubh htoken)
        · exact hfreev token (hsubv htoken)

theorem mem_radii (h v : String) : h ∈ radii h v ∧ v ∈ radii h v := by
  rw [radii]
  by_cases heq : h = v
  · simp [heq]
  · simp [heq]

theorem borderRadius?_restored (h : borderRadius? tokens = some values) {components : List Property}
    (hvalues : components.map (·.value) = values) :
    ∃ value, Restore.borderRadius? components = some value ∧ borderRadius? value = some values ∧
      ∀ token ∈ value, (token ∈ tokens ∧ token ∈ values.flatten) ∨ token = "/" := by
  obtain ⟨h₁, h₂, h₃, h₄, v₁, v₂, v₃, v₄, rfl, hsub, hfree⟩ := borderRadius?_cases h
  obtain ⟨p, q, r, s, rfl, hp, hq, hr, hs⟩ := eq_of_map_value hvalues
  have hflatten : [h₁, h₂, h₃, h₄] ++ [v₁, v₂, v₃, v₄]
      ⊆ [radii h₁ v₁, radii h₂ v₂, radii h₃ v₃, radii h₄ v₄].flatten := by
    simp [mem_radii]
  have hhorizontal := collapseFour_subset h₁ h₂ h₃ h₄
  have hvertical := collapseFour_subset v₁ v₂ v₃ v₄
  have hnoslash : ∀ token ∈ Restore.collapseFour [h₁, h₂, h₃, h₄], (token != "/") = true := by
    intro token htoken
    rw [bne_iff_ne]
    rintro rfl
    have hslash := hfree "/" (List.mem_append_left _ (hhorizontal htoken))
    revert hslash
    decide
  have hsplith : fourValues? (Restore.collapseFour [h₁, h₂, h₃, h₄]) = some [[h₁], [h₂], [h₃], [h₄]] :=
    fourValues?_collapseFour fun token htoken => hfree token (List.mem_append_left _ htoken)
  have hsplitv : fourValues? (Restore.collapseFour [v₁, v₂, v₃, v₄]) = some [[v₁], [v₂], [v₃], [v₄]] :=
    fourValues?_collapseFour fun token htoken => hfree token (List.mem_append_right _ htoken)
  refine ⟨Restore.collapseFour [h₁, h₂, h₃, h₄] ++ (if [v₁, v₂, v₃, v₄] = [h₁, h₂, h₃, h₄] then []
    else "/" :: Restore.collapseFour [v₁, v₂, v₃, v₄]), ?_, ?_, ?_⟩
  · simp [Restore.borderRadius?, List.mapM_cons, radii?_of_value hp, radii?_of_value hq, radii?_of_value hr,
      radii?_of_value hs]
  · rw [borderRadius?, List.span_eq_takeWhile_dropWhile, List.takeWhile_append_of_pos hnoslash,
      List.dropWhile_append_of_pos hnoslash]
    split_ifs with hsame
    · simp only [List.cons.injEq, and_true] at hsame
      obtain ⟨rfl, rfl, rfl, rfl⟩ := hsame
      simp [hsplith, radii]
    · simp [hsplith, hsplitv, radii]
  · intro token htoken
    rcases List.mem_append.mp htoken with htoken | htoken
    · have hmem := List.mem_append_left [v₁, v₂, v₃, v₄] (hhorizontal htoken)
      exact .inl ⟨hsub hmem, hflatten hmem⟩
    · split_ifs at htoken with hsame
      · cases htoken
      · rcases List.mem_cons.mp htoken with rfl | htoken
        · exact .inr rfl
        · have hmem := List.mem_append_right [h₁, h₂, h₃, h₄] (hvertical htoken)
          exact .inl ⟨hsub hmem, hflatten hmem⟩

end Corners

section Markers

namespace ListStyle

/-- Every part is of its kind, and what could be a marker is an image only if the marker has been found. -/
structure Fits (style : ListStyle) : Prop where
  marker : ∀ token ∈ style.marker, Word.isMarker token = true
  position : ∀ token ∈ style.position, Word.isMarkerPosition token = true
  image : ∀ token ∈ style.image, Word.isImage token = true
  image_marker : ∀ token ∈ style.image, Word.isMarker token = true → style.marker ≠ none

/-- The tokens of a list style in the order of its components. -/
def tokens (style : ListStyle) : Value :=
  style.marker.toList ++ (style.position.toList ++ style.image.toList)

theorem fits_add? {style found : ListStyle} {token : String} (hstyle : style.Fits)
    (h : style.add? token = some found) : found.Fits := by
  rw [add?] at h
  split at h
  · next hposition =>
      cases h
      exact { hstyle with position := by simpa using (Bool.and_eq_true _ _ ▸ hposition).2 }
  split at h
  · next hmarker =>
      cases h
      exact { hstyle with
        marker := by simpa using (Bool.and_eq_true _ _ ▸ hmarker).2
        image_marker := fun _ _ _ => Option.some_ne_none token }
  split at h
  · next hposition hmarker himage =>
      cases h
      refine { hstyle with image := by simpa using (Bool.and_eq_true _ _ ▸ himage).2, image_marker := ?_ }
      intro t ht hmarker' hnone
      rw [Option.mem_def, Option.some.injEq] at ht
      subst ht
      have hnone : style.marker = none := hnone
      simp [hnone, hmarker'] at hmarker
  · cases h

theorem mem_add? {style found : ListStyle} {token t : String} (h : style.add? token = some found)
    (ht : t ∈ found.tokens) : t ∈ style.tokens ∨ t = token := by
  simp only [add?] at h
  split_ifs at h <;> cases h <;> simp only [tokens, List.mem_append, Option.mem_toList, Option.some.injEq] at ht ⊢ <;>
    tauto

theorem of_foldlM_add? {style found : ListStyle} {tokens : Value} (hstyle : style.Fits)
    (h : tokens.foldlM add? style = some found) :
    found.Fits ∧ ∀ t ∈ found.tokens, t ∈ style.tokens ∨ t ∈ tokens := by
  induction tokens generalizing style with
  | nil =>
      cases h
      exact ⟨hstyle, fun t ht => .inl ht⟩
  | cons token tokens ih =>
      rw [List.foldlM_cons, Option.bind_eq_bind, Option.bind_eq_some_iff] at h
      obtain ⟨next, hnext, h⟩ := h
      obtain ⟨hfits, hmem⟩ := ih (fits_add? hstyle hnext) h
      refine ⟨hfits, fun t ht => ?_⟩
      rcases hmem t ht with ht | ht
      · rcases mem_add? hnext ht with ht | rfl
        · exact .inl ht
        · exact .inr List.mem_cons_self
      · exact .inr (List.mem_cons_of_mem token ht)

theorem isMarkerPosition_of_isMarker {token : String} (h : Word.isMarker token = true) :
    Word.isMarkerPosition token = false :=
  Text.isOneOf_eq_false (by decide) (by decide) (by decide) h

theorem isMarkerPosition_of_isImage {token : String} (h : Word.isImage token = true) :
    Word.isMarkerPosition token = false := by
  rw [Bool.eq_false_iff]
  intro hposition
  rw [Word.isImage_of_isOneOf (by decide) (by decide) hposition] at h
  cases h

/-- Parts that fit are found in their tokens. -/
theorem foldlM_tokens {style : ListStyle} (h : style.Fits) : style.tokens.foldlM add? {} = some style := by
  have hmarker (rest : Value) : (style.marker.toList ++ rest).foldlM add? {}
      = rest.foldlM add? { marker := style.marker } := by
    cases hmarker : style.marker with
    | none => rfl
    | some token =>
        have htoken := h.marker token hmarker
        simp [add?, isMarkerPosition_of_isMarker htoken, htoken]
  have hposition (rest : Value) : (style.position.toList ++ rest).foldlM add? { marker := style.marker }
      = rest.foldlM add? { marker := style.marker, position := style.position } := by
    cases hposition : style.position with
    | none => rfl
    | some token => simp [add?, h.position token hposition]
  have himage (image : Option String) (heq : style.image = image) :
      image.toList.foldlM add? { marker := style.marker, position := style.position }
        = some { marker := style.marker, position := style.position, image } := by
    cases image with
    | none => rfl
    | some token =>
        have htoken := h.image token heq
        have hnot : ¬(style.marker = none ∧ Word.isMarker token = true) :=
          fun hboth => h.image_marker token heq hboth.2 hboth.1
        simp [add?, isMarkerPosition_of_isImage htoken, htoken, hnot]
  rw [tokens, hmarker, hposition]
  exact himage style.image rfl

/-- What of a list style has to be said. -/
def needed (style : ListStyle) : ListStyle where
  marker := style.marker
  position := style.position.filter ([·] != initialOf "list-style-position")
  image := style.image.filter ([·] != initialOf "list-style-image")

theorem fits_needed {style : ListStyle} (h : style.Fits) : style.needed.Fits where
  marker := h.marker
  position := fun token ht => h.position token (Layer.of_mem_filter ht)
  image := fun token ht => h.image token (Layer.of_mem_filter ht)
  image_marker := fun token ht => h.image_marker token (Layer.of_mem_filter ht)

/-- The values that a list style gives to its components. -/
def values (style : ListStyle) : List Value :=
  [orInitial "list-style-type" style.marker.toList, orInitial "list-style-position" style.position.toList,
   orInitial "list-style-image" style.image.toList]

theorem values_needed (style : ListStyle) : style.needed.values = style.values := by
  simp only [values, needed, Layer.toList_filter, Restore.orInitial_unlessInitial]

theorem tokens_needed {style : ListStyle} (h : style.Fits) :
    Restore.unlessInitial "list-style-type" (orInitial "list-style-type" style.marker.toList)
        ++ (Restore.unlessInitial "list-style-position" (orInitial "list-style-position" style.position.toList)
          ++ Restore.unlessInitial "list-style-image" (orInitial "list-style-image" style.image.toList))
      = style.needed.tokens := by
  have hmarker : Restore.unlessInitial "list-style-type" style.marker.toList = style.marker.toList := by
    cases hmarker : style.marker with
    | none => rw [Option.toList_none, Restore.unlessInitial, ite_self]
    | some token =>
        refine if_neg fun heq => ?_
        have hinitial : initialOf "list-style-type" = ["__hack"] := by decide
        rw [hinitial] at heq
        cases heq
        have hnot := h.marker _ hmarker
        revert hnot
        decide
  simp only [tokens, needed, Layer.toList_filter, Restore.unlessInitial_orInitial, hmarker]

end ListStyle

/-- The components of a list style, in the order of the table. -/
def listStyleNames : List String := ["list-style-type", "list-style-position", "list-style-image"]

variable {tokens : Value} {values : List Value}

theorem exists_foldlM_of_listStyle? (h : listStyle? tokens = some values) :
    ∃ style, tokens.foldlM ListStyle.add? {} = some style ∧ style.values = values := by
  simp only [listStyle?] at h
  split at h
  · cases h
  simp only [Option.bind_eq_bind, Option.bind_eq_some_iff, Option.pure_def, Option.some.injEq] at h
  exact h

theorem exists_of_listStyle? (h : listStyle? tokens = some values) :
    ∃ style : ListStyle, style.Fits ∧ style.values = values ∧ ∀ t ∈ style.tokens, t ∈ tokens := by
  obtain ⟨style, hfound, hvalues⟩ := exists_foldlM_of_listStyle? h
  obtain ⟨hfits, hmem⟩ := ListStyle.of_foldlM_add? ⟨by simp, by simp, by simp, by simp⟩ hfound
  exact ⟨style, hfits, hvalues, fun t ht => (hmem t ht).resolve_left (by simp [ListStyle.tokens])⟩

theorem listStyle?_tokens {style : ListStyle} (h : style.Fits) :
    listStyle? style.tokens = some style.values := by
  have hlength : ¬style.tokens.length > 3 := by
    simp only [ListStyle.tokens, List.length_append]
    cases style.marker <;> cases style.position <;> cases style.image <;> simp
  simp only [listStyle?]
  rw [if_neg hlength, ListStyle.foldlM_tokens h]
  rfl

end Markers

end Split

namespace Property

theorem withoutDefaults?_cons (c : Property) (components : List Property) :
    withoutDefaults? (c :: components)
      = (if c.isAnalysed then c.restore?.bind fun value => if value.length == 1 then some value else none
          else some c.value).bind fun tokens => (withoutDefaults? components).bind fun more =>
            some (if c.descriptor?.any (·.initialValue == tokens) then more else tokens ++ more) := by
  rw [withoutDefaults?]
  split <;> rfl

/-- Components that are longhands, or that come down to one token, are written one after the other, without those
that have their initial values. -/
theorem withoutDefaults?_eq {components : List Property}
    (h : ∀ c ∈ components, c.isAnalysed = true → c.restore? = some c.value ∧ c.value.length = 1)
    (hdescribed : ∀ c ∈ components, c.descriptor? ≠ none) :
    withoutDefaults? components
      = some ((components.map fun c => (c.name, c.value)).flatMap fun part =>
          Restore.unlessInitial part.1 part.2) := by
  induction components with
  | nil => rw [withoutDefaults?, List.map_nil, List.flatMap_nil]
  | cons c components ih =>
      obtain ⟨d, hd⟩ := Option.ne_none_iff_exists'.mp (hdescribed c List.mem_cons_self)
      have hinitial : Split.initialOf c.name = d.initialValue := by
        rw [descriptor?] at hd
        rw [Split.initialOf, hd]
        rfl
      have htokens : (if c.isAnalysed then c.restore?.bind fun value => if value.length == 1 then some value else none
          else some c.value) = some c.value := by
        split
        · next hanalysed =>
            obtain ⟨hrestore, hlength⟩ := h c List.mem_cons_self hanalysed
            rw [hrestore, Option.bind_some, hlength]
            rfl
        · rfl
      rw [withoutDefaults?_cons, htokens, ih (fun q hq => h q (List.mem_cons_of_mem c hq))
        fun q hq => hdescribed q (List.mem_cons_of_mem c hq)]
      simp only [hd, Option.any_some, Option.bind_some, List.map_cons, List.flatMap_cons, Restore.unlessInitial,
        hinitial]
      by_cases heq : d.initialValue = c.value
      · simp [heq]
      · simp [heq, Ne.symm heq]

end Property

namespace Split

theorem listStyle?_restored {tokens : Value} {values : List Value} (h : listStyle? tokens = some values)
    {components : List Property} (hlonghands : ∀ c ∈ components, c.isAnalysed = false)
    (hcomponents : components.map (fun c => (c.name, c.value)) = listStyleNames.zip values) :
    ∃ value, Property.withoutDefaults? components = some value ∧
      listStyle? (if value.isEmpty then ["outside"] else value) = some values ∧
      ∀ token ∈ value, token ∈ tokens ∧ token ∈ values.flatten := by
  obtain ⟨style, hfits, rfl, hmem⟩ := exists_of_listStyle? h
  have hdescribed : ∀ c ∈ components, c.descriptor? ≠ none := by
    intro c hc
    have hname : c.name ∈ listStyleNames := by
      have hpair := List.mem_map_of_mem (f := fun c : Property => (c.name, c.value)) hc
      rw [hcomponents] at hpair
      exact (List.of_mem_zip hpair).1
    have hall : ∀ name ∈ listStyleNames, Registry.builtin.find? name ≠ none := by decide
    exact hall c.name hname
  have hanalysed : ∀ c ∈ components, c.isAnalysed = true → c.restore? = some c.value ∧ c.value.length = 1 := by
    intro c hc hanalysed
    rw [hlonghands c hc] at hanalysed
    cases hanalysed
  have hflat : ((listStyleNames.zip style.values).flatMap fun part => Restore.unlessInitial part.1 part.2)
      = style.needed.tokens := by
    rw [← ListStyle.tokens_needed hfits]
    simp [listStyleNames, ListStyle.values]
  refine ⟨style.needed.tokens, ?_, ?_, ?_⟩
  · rw [Property.withoutDefaults?_eq hanalysed hdescribed, hcomponents, hflat]
  · by_cases hnil : style.needed.tokens = []
    · have hstart : listStyle? ["outside"] = some (ListStyle.values {}) := by decide
      simp only [ListStyle.tokens, List.append_eq_nil_iff, Option.toList_eq_nil_iff] at hnil
      rw [if_pos (by simp [ListStyle.tokens, hnil]), hstart, ← ListStyle.values_needed style, ListStyle.values,
        ListStyle.values, hnil.1, hnil.2.1, hnil.2.2]
    · rw [if_neg (by simpa using hnil), listStyle?_tokens (ListStyle.fits_needed hfits),
        ListStyle.values_needed]
  · intro token htoken
    refine ⟨hmem token ?_, ?_⟩
    · simp only [ListStyle.tokens, ListStyle.needed, List.mem_append, Option.mem_toList,
        Option.filter_eq_some_iff] at htoken ⊢
      tauto
    · rw [← ListStyle.tokens_needed hfits, List.mem_append, List.mem_append] at htoken
      have hunless (name : String) (value : Value) := Restore.unlessInitial_subset name value
      simp only [ListStyle.values, List.flatten_cons, List.flatten_nil, List.append_nil, List.mem_append]
      exact htoken.imp (hunless _ _ ·) (Or.imp (hunless _ _ ·) (hunless _ _ ·))

end Split

end CssMinify
