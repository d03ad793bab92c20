import CssMinify.Proofs.Codec.Line
import CssMinify.Proofs.Effect.Folding
import CssMinify.Proofs.Stability.Tokens
import CssMinify.Property.Body

/-!
Values whose tokens are short already. Splitting a shorthand hands its tokens down to components, and putting
components together hands theirs up; a token that is short in the one place is short in the other, since no
color comes to a component that has none.
-/

namespace CssMinify

/-- Shortening changes nothing in the declaration. -/
def Declaration.IsMinified (profile : Profile) (d : Declaration) : Prop := d.minify profile = d

/-- Shortening changes nothing in the token, as one of a value of this property. -/
def Word.IsShort (profile : Profile) (name token : String) : Prop :=
  Word.minify (profile.properties.zeroUnits && !zeroUnitProperties.contains name)
    (profile.properties.colors && carriesColor name) token = token

namespace Split

/-- Separators, and what properties without a color fall back on. -/
def plainFallbacks : List String :=
  [",", "/", "0", "1", "__hack", "auto", "baseline", "border-box", "inherit", "inline", "invert", "left", "medium", "none",
   "normal", "outside", "padding-box", "repeat", "scroll", "static", "visible"]

/-- Tokens that come to a value from elsewhere than another value. -/
def fallbacks : List String := plainFallbacks ++ ["transparent", "currentcolor"]

theorem isColor_plainFallback : ∀ token ∈ plainFallbacks, Word.isColor token = false := by decide +kernel

theorem minify_fallback {token : String} (h : token ∈ fallbacks) (zeroUnits colors : Bool) :
    Word.minify zeroUnits colors token = token := by
  have hnumbers : ∀ token ∈ fallbacks, Word.shortNumber token = token ∧
      (Word.isZero token && Word.hasLengthUnit token) = false := by decide +kernel
  have hcolors : ∀ token ∈ ["transparent", "currentcolor"], (Color.shortest? token).getD token = token := by
    decide +kernel
  obtain ⟨hnumber, hzero⟩ := hnumbers token h
  rw [Word.minify_eq, hnumber, Word.shortZero, Bool.and_assoc, hzero, Bool.and_false, if_neg (by simp), Word.shortColor]
  split
  · next hcolor =>
      rw [Bool.and_eq_true] at hcolor
      refine hcolors token ((List.mem_append.mp h).resolve_left fun hplain => ?_)
      rw [isColor_plainFallback token hplain] at hcolor
      cases hcolor.2
  · rfl

end Split

namespace Registry

/-- What the table is checked for in each of its rows. -/
theorem checked_of_mem_descriptors : ∀ d ∈ builtin.descriptors,
    (Text.lower d.name = d.name ∧ isCustomName d.name = false ∧ d.name ≠ "filter" ∧ d.name ≠ "src" ∧
      zeroUnitProperties.contains d.name = false) ∧
    (∀ token ∈ d.initialValue,
      token ∈ Split.plainFallbacks ∨ token ∈ Split.fallbacks ∧ carriesColor d.name = true) ∧
    ∀ token ∈ d.shortestValue, token ∈ Split.fallbacks := by
  decide +kernel

/-- Declarations of properties in the table are shortened like any other, zeros included. -/
theorem names_of_mem_descriptors : ∀ d ∈ builtin.descriptors,
    Text.lower d.name = d.name ∧ isCustomName d.name = false ∧ Text.sameFolded d.name "filter" = false ∧
      Text.sameFolded d.name "src" = false ∧ zeroUnitProperties.contains d.name = false := by
  intro d hd
  obtain ⟨hlower, hcustom, hfilter, hsrc, hzero⟩ := (checked_of_mem_descriptors d hd).1
  refine ⟨hlower, hcustom, ?_, ?_, hzero⟩ <;> rw [Text.sameFolded, hlower, beq_eq_false_iff_ne]
  · exact hfilter
  · exact hsrc

theorem initialValue_of_mem_descriptors : ∀ d ∈ builtin.descriptors, ∀ token ∈ d.initialValue,
    token ∈ Split.plainFallbacks ∨ token ∈ Split.fallbacks ∧ carriesColor d.name = true :=
  fun d hd => (checked_of_mem_descriptors d hd).2.1

theorem shortestValue_of_mem_descriptors : ∀ d ∈ builtin.descriptors, ∀ token ∈ d.shortestValue,
    token ∈ Split.fallbacks :=
  fun d hd => (checked_of_mem_descriptors d hd).2.2

/-- What the table is checked for in the row of each shorthand. -/
theorem checked_of_mem_shorthands : ∀ d ∈ builtin.shorthands,
    (∀ name ∈ d.leaves,
      zeroUnitProperties.contains name = false ∧ (carriesColor d.name = true ∨ carriesColor name = false)) ∧
    (d.split = some .background ∨ d.split = some .border ∨
      ∀ name ∈ d.components, carriesColor d.name = false ∨ carriesColor name = true) ∧
    (d.split = some .background → d.components = Split.backgroundNames) ∧
    (d.split = some .listStyle → d.components = Split.listStyleNames) ∧
    (d.split = some .border → ∀ name ∈ d.components,
      Text.endsWith name "-width" = true ∨ Text.endsWith name "-style" = true ∨ carriesColor name = true) := by
  decide +kernel

/-- The longhands of a shorthand have no colors if it has none. -/
theorem names_of_mem_leaves : ∀ d ∈ builtin.shorthands, ∀ name ∈ d.leaves,
    zeroUnitProperties.contains name = false ∧ (carriesColor d.name = true ∨ carriesColor name = false) :=
  fun d hd => (checked_of_mem_shorthands d hd).1

/-- Only where there is a part of its own for colors does a shorthand with colors have components without. -/
theorem carriesColor_of_split : ∀ d ∈ builtin.shorthands, d.split = some .background ∨ d.split = some .border ∨
    ∀ name ∈ d.components, carriesColor d.name = false ∨ carriesColor name = true :=
  fun d hd => (checked_of_mem_shorthands d hd).2.1

theorem components_of_background : ∀ d ∈ builtin.shorthands, d.split = some .background →
    d.components = Split.backgroundNames :=
  fun d hd => (checked_of_mem_shorthands d hd).2.2.1

theorem components_of_listStyle : ∀ d ∈ builtin.shorthands, d.split = some .listStyle →
    d.components = Split.listStyleNames :=
  fun d hd => (checked_of_mem_shorthands d hd).2.2.2.1

theorem components_of_border : ∀ d ∈ builtin.shorthands, d.split = some .border → ∀ name ∈ d.components,
    Text.endsWith name "-width" = true ∨ Text.endsWith name "-style" = true ∨ carriesColor name = true :=
  fun d hd => (checked_of_mem_shorthands d hd).2.2.2.2

end Registry

namespace Split

/-- A token that a component gets from the value of its shorthand: one of the tokens there, or one to fall back
on. No color comes to a component without colors, if it was one in the shorthand. -/
inductive Passed (row : String) (value : Value) (name token : String) : Prop
  | own (hmem : token ∈ value)
      (hcolor : carriesColor row = true → carriesColor name = false → Word.isColor token = false)
  | fallback (hmem : token ∈ fallbacks) (hcolor : carriesColor name = false → Word.isColor token = false)

theorem mem_initialOf {name token : String} (h : token ∈ initialOf name) :
    token ∈ plainFallbacks ∨ token ∈ fallbacks ∧ carriesColor name = true := by
  rw [initialOf] at h
  cases hrow : Registry.builtin.find? name with
  | none => simp [hrow] at h
  | some row =>
      obtain ⟨hmem, rfl⟩ := Registry.mem_of_find? hrow
      rw [hrow, Option.map_some, Option.getD_some] at h
      exact Registry.initialValue_of_mem_descriptors row hmem token h

section Passing

variable {profile : Profile} {row name token : String} {value : Value}

/-- What passes to a component and from there to one of its own passes all the way. -/
theorem Passed.trans {middle : String} {between : Value} (h : Passed middle between name token)
    (hmiddle : token ∈ between → Passed row value middle token) : Passed row value name token := by
  cases h with
  | fallback hmem hcolor => exact .fallback hmem hcolor
  | own hmem hcolor =>
      cases hmiddle hmem with
      | own hmem' hcolor' =>
          refine .own hmem' fun hrow hname => ?_
          cases hcarries : carriesColor middle with
          | true => exact hcolor hcarries hname
          | false => exact hcolor' hrow hcarries
      | fallback hmem' hcolor' =>
          refine .fallback hmem' fun hname => ?_
          cases hcarries : carriesColor middle with
          | true => exact hcolor hcarries hname
          | false => exact hcolor' hcarries

theorem passed_plainFallback (h : token ∈ plainFallbacks) : Passed row value name token :=
  .fallback (List.mem_append_left _ h) fun _ => isColor_plainFallback token h

/-- Where a shorthand has no part of its own for colors, a token stands for the same in a component. -/
theorem passed_of_mem (hname : carriesColor row = false ∨ carriesColor name = true) (h : token ∈ value) :
    Passed row value name token := by
  refine .own h fun hrow hnone => ?_
  rcases hname with hname | hname
  · rw [hname] at hrow
    cases hrow
  · rw [hname] at hnone
    cases hnone

theorem mem_zip_map {names : List String} {f : String → Value} {part : String × Value}
    (h : part ∈ names.zip (names.map f)) : part.1 ∈ names ∧ part.2 = f part.1 := by
  induction names with
  | nil => cases h
  | cons name names ih =>
      rw [List.map_cons, List.zip_cons_cons] at h
      rcases List.mem_cons.mp h with rfl | h
      · exact ⟨List.mem_cons_self, rfl⟩
      · exact ⟨List.mem_cons_of_mem name (ih h).1, (ih h).2⟩

theorem passed_orInitial {found : Value}
    (hfound : ∀ t ∈ found, t ∈ value ∧ (carriesColor name = false → Word.isColor t = false))
    (h : token ∈ orInitial name found) : Passed row value name token := by
  rw [orInitial] at h
  split at h
  · rcases mem_initialOf h with hplain | ⟨hfallback, hcarries⟩
    · exact passed_plainFallback hplain
    · refine .fallback hfallback fun hnone => ?_
      rw [hcarries] at hnone
      cases hnone
  · exact .own (hfound token h).1 fun _ => (hfound token h).2

variable {d : Descriptor}

theorem passed_listStyle {values : List Value} (hnames : d.components = listStyleNames)
    (h : listStyle? value = some values) :
    ∀ part ∈ d.components.zip values, ∀ token ∈ part.2, Passed d.name value part.1 token := by
  obtain ⟨style, hfits, rfl, hmem⟩ := exists_of_listStyle? h
  have hpart {name : String} {found : Option String}
      (hfound : ∀ t ∈ found, t ∈ style.tokens ∧ Word.isColor t = false) :
      ∀ token ∈ orInitial name found.toList, Passed d.name value name token := by
    refine fun token htoken => passed_orInitial (fun t ht => ?_) htoken
    obtain ⟨htokens, hcolor⟩ := hfound t (by simpa using ht)
    exact ⟨hmem t htokens, fun _ => hcolor⟩
  rw [hnames]
  simp only [listStyleNames, ListStyle.values, List.zip_cons_cons, List.zip_nil_right, List.forall_mem_cons,
    List.not_mem_nil, false_implies, implies_true, and_true]
  refine ⟨hpart fun t ht => ⟨?_, Word.isColor_of_isOneOf (by simp [Word.colorless]) (hfits.marker t ht)⟩,
    hpart fun t ht => ⟨?_, Word.isColor_of_isOneOf (by simp [Word.colorless]) (hfits.position t ht)⟩,
    hpart fun t ht => ⟨?_, Word.isColor_eq_false Word.isImage_of_isColor (hfits.image t ht)⟩⟩ <;>
    simp [ListStyle.tokens, Option.mem_def.mp ht]

theorem passed_background {values : List Value} (hnames : d.components = backgroundNames)
    (h : background? profile value = some values) :
    ∀ part ∈ d.components.zip values, ∀ token ∈ part.2, Passed d.name value part.1 token := by
  obtain ⟨layers, hne, rfl, hfits, -, hmem⟩ := exists_layers_of_background? h
  have hlayers {name : String} {found : Layer → Value}
      (hfound : ∀ l ∈ layers, ∀ t ∈ found l, t ∈ l.tokens ∧ Word.isColor t = false) :
      ∀ token ∈ Value.ofLayers (layers.map fun l => orInitial name (found l)), Passed d.name value name token := by
    intro token htoken
    obtain rfl | ⟨part, hpart, htoken⟩ := Value.mem_ofLayers htoken
    · exact passed_plainFallback (by decide)
    · obtain ⟨l, hl, rfl⟩ := List.mem_map.mp hpart
      refine passed_orInitial (fun t ht => ?_) htoken
      obtain ⟨htokens, hcolor⟩ := hfound l hl t ht
      exact ⟨hmem l hl t htokens, fun _ => hcolor⟩
  have hcolor : ∀ token ∈ orInitial "background-color" ((layers.getLast?.bind Layer.color).toList),
      Passed d.name value "background-color" token := by
    refine fun token htoken => passed_orInitial (fun t ht => ?_) htoken
    obtain ⟨l, hl, ht⟩ := Option.bind_eq_some_iff.mp (Option.mem_toList.mp ht)
    exact ⟨hmem l (List.mem_of_getLast? hl) t (by simp [Layer.mem_tokens, ht]), fun hnone => nomatch hnone⟩
  rw [hnames]
  simp only [backgroundNames, layerValues, List.zip_cons_cons, List.zip_nil_right, List.forall_mem_cons,
    List.not_mem_nil, false_implies, implies_true, and_true]
  refine ⟨hlayers fun l hl t ht => ?_, hlayers fun l hl t ht => ?_,
    hlayers fun l hl t ht => ?_, hlayers fun l hl t ht => ?_,
    hlayers fun l hl t ht => ?_, hlayers fun l hl t ht => ?_,
    hlayers fun l hl t ht => ?_, hcolor⟩
  · have himage := Option.mem_toList.mp ht
    exact ⟨by simp [Layer.mem_tokens, himage],
      Word.isColor_eq_false Word.isImage_of_isColor ((hfits l hl).image t himage)⟩
  · exact ⟨by simp [Layer.mem_tokens, ht],
      Word.isColor_eq_false (Word.isPosition_of_isColor · profile) ((hfits l hl).position t ht)⟩
  · exact ⟨by simp [Layer.mem_tokens, ht],
      Word.isColor_eq_false (Word.isSize_of_isColor · profile) ((hfits l hl).size t ht)⟩
  · exact ⟨by simp [Layer.mem_tokens, ht],
      Word.isColor_of_isOneOf (by simp [Word.colorless]) ((hfits l hl).repeats t ht)⟩
  · have hattachment := Option.mem_toList.mp ht
    exact ⟨by simp [Layer.mem_tokens, hattachment],
      Word.isColor_of_isOneOf (by simp [Word.colorless]) ((hfits l hl).attachment t hattachment)⟩
  · have hbox := List.mem_of_mem_head? (Option.mem_toList.mp ht)
    exact ⟨by simp [Layer.mem_tokens, hbox],
      Word.isColor_of_isOneOf (by simp [Word.colorless]) ((hfits l hl).boxes t hbox)⟩
  · have hbox := List.mem_of_getLast? (Option.mem_toList.mp ht)
    exact ⟨by simp [Layer.mem_tokens, hbox],
      Word.isColor_of_isOneOf (by simp [Word.colorless]) ((hfits l hl).boxes t hbox)⟩

variable (hd : d ∈ Registry.builtin.shorthands)

include hd

theorem passed_line {values : List Value} (hborder : d.split = some .border)
    (h : line? profile d.components value = some values) :
    ∀ part ∈ d.components.zip values, ∀ token ∈ part.2, Passed d.name value part.1 token := by
  obtain ⟨line, hread, rfl, -⟩ := exists_of_line? h
  have hclosed := Line.closed_of_read? hread
  have hmem {t : String} (ht : t ∈ line.tokens) : t ∈ value := (Line.perm_tokens_of_read? hread).mem_iff.mp ht
  intro part hpart token htoken
  obtain ⟨hname, hvalue⟩ := mem_zip_map hpart
  rw [hvalue] at htoken
  refine passed_orInitial (fun t ht => ?_) htoken
  rw [Line.part] at ht
  split_ifs at ht with hwidth hstyle <;> rw [Option.mem_toList] at ht
  · exact ⟨hmem (Line.mem_tokens.mpr (.inl ht)), fun _ => Word.isColor_of_isBorderWidth (hclosed.width t ht)⟩
  · exact ⟨hmem (Line.mem_tokens.mpr (.inr (.inl ht))), fun _ => Word.isColor_of_isBorderStyle (hclosed.style t ht)⟩
  · refine ⟨hmem (Line.mem_tokens.mpr (.inr (.inr (.inl ht)))), fun hnone => ?_⟩
    rcases Registry.components_of_border d hd hborder part.1 hname with h | h | h
    · exact absurd h hwidth
    · exact absurd h hstyle
    · rw [hnone] at h
      cases h

/-- What comes to the components of a shorthand when its value is split. -/
theorem passed_values? {values : List Value} (h : values? profile d value = some values) :
    ∀ part ∈ d.components.zip values, ∀ token ∈ part.2, Passed d.name value part.1 token := by
  cases hkind : d.split with
  | none =>
      rw [values?, hkind] at h
      cases h
  | some kind =>
      rw [values?_eq hkind] at h
      split at h
      · next hglobal =>
          -- One keyword for all; it is no color.
          cases h
          intro part hpart token htoken
          obtain ⟨-, hvalue⟩ := mem_zip_map hpart
          rw [hvalue] at htoken
          rw [Bool.and_eq_true, List.all_eq_true] at hglobal
          exact .own htoken fun _ _ =>
            Word.isColor_of_isOneOf (by simp [Word.colorless]) (hglobal.2 token htoken)
      have hown (hsplit : kind ≠ .background ∧ kind ≠ .border) (hmem : ∀ v ∈ values, ∀ t ∈ v, t ∈ value) :
          ∀ part ∈ d.components.zip values, ∀ token ∈ part.2, Passed d.name value part.1 token := by
        intro part hpart token htoken
        obtain ⟨hname, hvalue⟩ := List.of_mem_zip hpart
        refine passed_of_mem ?_ (hmem part.2 hvalue token htoken)
        rcases Registry.carriesColor_of_split d hd with h | h | h
        · exact absurd (Option.some.inj (hkind.symm.trans h)) hsplit.1
        · exact absurd (Option.some.inj (hkind.symm.trans h)) hsplit.2
        · exact h part.1 hname
      cases kind with
      | fourValues =>
          obtain ⟨a, b, c, e, rfl, hsub, -⟩ := fourValues?_cases h
          refine hown (by simp) fun v hv t ht => hsub ?_
          simp only [List.mem_cons, List.not_mem_nil, or_false] at hv ⊢
          rcases hv with rfl | rfl | rfl | rfl <;> simp_all
      | borderRadius =>
          obtain ⟨h₁, h₂, h₃, h₄, v₁, v₂, v₃, v₄, rfl, hsub, -⟩ := borderRadius?_cases h
          refine hown (by simp) fun v hv t ht => hsub ?_
          have hradii (a b : String) (h : t ∈ radii a b) : t = a ∨ t = b := by
            rw [radii] at h
            split at h <;> simp_all
          simp only [List.mem_cons, List.not_mem_nil, or_false] at hv
          simp only [List.mem_append, List.mem_cons, List.not_mem_nil, or_false]
          rcases hv with rfl | rfl | rfl | rfl <;> rcases hradii _ _ ht with rfl | rfl <;> simp
      | background => exact passed_background (Registry.components_of_background d hd hkind) h
      | border => exact passed_line hd hkind h
      | listStyle => exact passed_listStyle (Registry.components_of_listStyle d hd hkind) h

end Passing

/-- What comes to the longhands of a shorthand at any depth. -/
theorem passed_longhandsWithin? {profile : Profile} {depth : Nat} {name : String} {value : Value}
    {longhands : List (String × Value)} (h : longhandsWithin? profile depth name value = some longhands) :
    ∀ l ∈ longhands, ∀ token ∈ l.2, Passed name value l.1 token := by
  induction depth generalizing name value longhands with
  | zero => cases h
  | succ depth ih =>
      simp only [longhandsWithin?, Option.bind_eq_bind, Option.bind_eq_some_iff] at h
      obtain ⟨d, hd, h⟩ := h
      split at h
      · cases h
      simp only [Option.bind_eq_some_iff] at h
      obtain ⟨values, hvalues, parts, hparts, h⟩ := h
      cases h
      obtain ⟨hrow, rfl⟩ := Registry.mem_of_find? hd
      intro l hl token htoken
      obtain ⟨longhands, hlonghands, hl⟩ := List.mem_flatten.mp hl
      obtain ⟨part, hpart, hsplit⟩ := Property.exists_of_mem_left (forall₂_of_mapM hparts).flip hlonghands
      have hshorthand : d ∈ Registry.builtin.shorthands := by
        refine List.mem_filter.mpr ⟨hrow, ?_⟩
        rw [Descriptor.isShorthand, Bool.not_eq_true', List.isEmpty_eq_false_iff]
        exact List.ne_nil_of_mem (List.of_mem_zip hpart).1
      have hpassed := passed_values? hshorthand hvalues part hpart
      split at hsplit
      · exact (ih hsplit l hl token htoken).trans (hpassed token)
      · cases hsplit
        rw [List.mem_singleton.mp hl] at htoken ⊢
        exact hpassed token htoken

end Split

end CssMinify
