import CssMinify.Proofs.Stability.Values

/-!
What the value of a shorthand is put together of. Every token of it stands in one of the longhands, or is one that
the table has for what is not said.
-/

namespace CssMinify

namespace Registry

theorem length_leaves_of_restore : ∀ d ∈ builtin.descriptors,
    d.restore = some .fourValues ∨ d.restore = some .borderRadius → d.leaves.length = 4 := by
  decide +kernel

theorem isShorthand_of_mem_backgroundNames : ∀ name ∈ Split.backgroundNames, builtin.isShorthand name = false := by
  decide +kernel

end Registry

namespace Property

variable {p : Property} {value : Value} {token : String}

/-- A token for the value of a shorthand with these longhands: one of theirs, or one to fall back on. -/
def Supplies (leaves : List Property) (token : String) : Prop :=
  token ∈ Split.fallbacks ∨ ∃ leaf ∈ leaves, token ∈ leaf.value

theorem Supplies.mono {leaves more : List Property} (h : Supplies leaves token) (hsub : leaves ⊆ more) :
    Supplies more token :=
  h.imp id fun ⟨leaf, hleaf, htoken⟩ => ⟨leaf, hsub hleaf, htoken⟩

theorem mem_collapseFour {α : Type} [DecidableEq α] {values : List α} {a : α} (h : a ∈ Restore.collapseFour values) :
    a ∈ values := by
  unfold Restore.collapseFour at h
  split at h
  · repeat' split at h
    all_goals
      simp only [List.mem_cons, List.not_mem_nil, or_false] at h ⊢
      tauto
  · exact h

theorem supplies_sideValue {q : Property} {leaves : List Property} (hp : p ∈ leaves) (hq : q ∈ leaves)
    (h : token ∈ Restore.sideValue p q) : Supplies leaves token := by
  rw [Restore.sideValue] at h
  split at h
  · exact .inr ⟨p, hp, h⟩
  split at h
  · exact .inr ⟨q, hq, h⟩
  cases hrow : p.descriptor? with
  | none =>
      rw [hrow] at h
      exact .inr ⟨p, hp, h⟩
  | some row =>
      rw [hrow] at h
      left
      rcases Registry.initialValue_of_mem_descriptors row (Registry.mem_of_find? hrow).1 token h with hplain | hcolor
      · exact List.mem_append_left _ hplain
      · exact hcolor.1

theorem supplies_fourValues {components : List Property} (h : Restore.fourValues? components = some value) :
    components.length = 4 ∧ ∀ token ∈ value, Supplies components token := by
  unfold Restore.fourValues? at h
  split at h
  case h_2 => cases h
  next top right bottom left =>
  simp only at h
  split at h
  case isFalse => cases h
  refine ⟨rfl, fun token htoken => ?_⟩
  rw [← Option.some.inj h] at htoken
  obtain ⟨side, hside, htoken⟩ := List.mem_flatten.mp htoken
  have hside := mem_collapseFour hside
  simp only [List.mem_cons, List.not_mem_nil, or_false] at hside
  rcases hside with rfl | rfl | rfl | rfl <;> exact supplies_sideValue (by simp) (by simp) htoken

theorem supplies_borderRadius {components : List Property} (h : Restore.borderRadius? components = some value) :
    components.length = 4 ∧ ∀ token ∈ value, Supplies components token := by
  simp only [Restore.borderRadius?] at h
  split at h
  · cases h
  next hlength =>
  refine ⟨by simpa using hlength, fun token htoken => ?_⟩
  simp only [Option.bind_eq_bind, Option.bind_eq_some_iff] at h
  obtain ⟨radii, hradii, h⟩ := h
  have hmem (pair : String × String) (hpair : pair ∈ radii) :
      ∃ c ∈ components, pair.1 ∈ c.value ∧ pair.2 ∈ c.value := by
    obtain ⟨c, hc, hpair⟩ := exists_of_mem_left (forall₂_of_mapM hradii).flip hpair
    refine ⟨c, hc, ?_⟩
    unfold Restore.radii? at hpair
    split at hpair
    · next hvalue =>
        cases hpair
        simp [hvalue]
    · next hvalue =>
        cases hpair
        simp [hvalue]
    · cases hpair
  have hfst (htoken : token ∈ Restore.collapseFour (radii.map Prod.fst)) : Supplies components token := by
    obtain ⟨pair, hpair, rfl⟩ := List.mem_map.mp (mem_collapseFour htoken)
    obtain ⟨c, hc, hfirst, -⟩ := hmem pair hpair
    exact .inr ⟨c, hc, hfirst⟩
  rw [← Option.some.inj h, List.mem_append] at htoken
  rcases htoken with htoken | htoken
  · exact hfst htoken
  split at htoken
  · cases htoken
  rcases List.mem_cons.mp htoken with rfl | htoken
  · exact .inl (by decide)
  · obtain ⟨pair, hpair, rfl⟩ := List.mem_map.mp (mem_collapseFour htoken)
    obtain ⟨c, hc, -, hsecond⟩ := hmem pair hpair
    exact .inr ⟨c, hc, hsecond⟩

theorem mem_of_mem_unlessInitial {name : String} (h : token ∈ Restore.unlessInitial name value) : token ∈ value := by
  rw [Restore.unlessInitial] at h
  split at h
  · cases h
  · exact h

theorem supplies_layer {components : List Property} {l : Restore.Layer}
    (hparts : ∀ part ∈ [l.image, l.position, l.size, l.repeats, l.attachment, l.origin, l.clip], ∀ t ∈ part,
      Supplies components t) (htoken : token ∈ l.tokens) : Supplies components token := by
  simp only [List.forall_mem_cons, List.not_mem_nil, false_implies, implies_true, and_true] at hparts
  obtain ⟨himage, hposition, hsize, hrepeats, hattachment, horigin, hclip⟩ := hparts
  simp only [Restore.Layer.tokens, List.mem_append] at htoken
  rcases htoken with (((htoken | htoken) | htoken) | htoken) | htoken
  · exact himage token (mem_of_mem_unlessInitial htoken)
  · split at htoken
    · rw [List.mem_append, List.mem_cons] at htoken
      rcases htoken with htoken | rfl | htoken
      · exact hposition token htoken
      · exact .inl (by decide)
      · exact hsize token htoken
    · exact hposition token (mem_of_mem_unlessInitial htoken)
  · exact hrepeats token (mem_of_mem_unlessInitial htoken)
  · exact hattachment token (mem_of_mem_unlessInitial htoken)
  · split at htoken
    · rw [List.mem_append] at htoken
      rcases htoken with htoken | htoken
      · exact horigin token htoken
      split at htoken
      · cases htoken
      · exact hclip token htoken
    · cases htoken

theorem supplies_nonEmpty {components : List Property} {tokens : Value} (htokens : ∀ t ∈ tokens, Supplies components t) :
    ∀ t ∈ Restore.nonEmpty tokens, Supplies components t := by
  rw [Restore.nonEmpty]
  split
  · exact fun t ht => .inl ((Split.mem_initialOf ht).elim (List.mem_append_left _) And.left)
  · exact htokens

theorem supplies_layerTokens {components : List Property} {color : Value} {layers : List Restore.Layer}
    (hcolor : ∀ t ∈ color, Supplies components t) (hlayers : ∀ l ∈ layers, ∀ t ∈ l.tokens, Supplies components t) :
    ∀ tokens ∈ Restore.layerTokens color layers, ∀ t ∈ tokens, Supplies components t := by
  fun_induction Restore.layerTokens color layers with
  | case1 => simp
  | case2 l =>
      rw [List.forall_mem_singleton]
      refine supplies_nonEmpty (List.forall_mem_append.mpr ⟨hlayers l List.mem_cons_self, ?_⟩)
      exact fun t ht => hcolor t (mem_of_mem_unlessInitial ht)
  | case3 l rest _ ih =>
      rw [List.forall_mem_cons] at hlayers ⊢
      exact ⟨supplies_nonEmpty hlayers.1, ih hlayers.2⟩

theorem supplies_background {components leaves : List Property}
    (hleaves : ∀ c ∈ components, c.name ∈ Split.backgroundNames → c ∈ leaves)
    (h : Restore.background? components = some value) (htoken : token ∈ value) : Supplies leaves token := by
  have hvalue {name : String} (hname : name ∈ Split.backgroundNames) {found : Value}
      (h : (components.find? (·.name == name)).map (·.value) = some found) : ∀ t ∈ found, Supplies leaves t := by
    obtain ⟨c, hc, rfl⟩ := Option.map_eq_some_iff.mp h
    have hcname : c.name = name := beq_iff_eq.mp (List.find?_some (p := fun c : Property => c.name == name) hc)
    exact fun t ht => .inr ⟨c, hleaves c (List.mem_of_find?_eq_some hc) (hcname ▸ hname), ht⟩
  simp only [Restore.background?, Option.bind_eq_bind, Option.bind_eq_some_iff] at h
  obtain ⟨image, himage, position, hposition, size, hsize, rep, hrep, attachment, hattachment, origin, horigin,
    clip, hclip, color, hcolor, h⟩ := h
  have hlayers {name : String} (hname : name ∈ Split.backgroundNames) {parts : List Value}
      (h : ∃ found, (components.find? (·.name == name)).map (·.value) = some found ∧
        (if (found.layers.length == image.layers.length) = true then some found.layers else none) = some parts) :
      ∀ part ∈ parts, ∀ t ∈ part, Supplies leaves t := by
    obtain ⟨found, hfound, h⟩ := h
    split at h
    · rw [← Option.some.inj h]
      exact fun part hpart t ht => hvalue hname hfound t (mem_of_mem_splitWhere hpart ht)
    · cases h
  rw [← Option.some.inj h] at htoken
  rcases Value.mem_ofLayers htoken with rfl | ⟨tokens, htokens, htoken⟩
  · exact .inl (by decide)
  refine supplies_layerTokens (hvalue (by decide) hcolor) (fun l hl t ht => ?_) tokens htokens token htoken
  obtain ⟨⟨i, p, s, r, a, o, c⟩, hmem, rfl⟩ := List.mem_map.mp hl
  obtain ⟨hi, hmem⟩ := List.of_mem_zip hmem
  obtain ⟨hp, hmem⟩ := List.of_mem_zip hmem
  obtain ⟨hs, hmem⟩ := List.of_mem_zip hmem
  obtain ⟨hr, hmem⟩ := List.of_mem_zip hmem
  obtain ⟨ha, hmem⟩ := List.of_mem_zip hmem
  obtain ⟨ho, hc⟩ := List.of_mem_zip hmem
  refine supplies_layer ?_ ht
  simp only [List.forall_mem_cons, List.not_mem_nil, false_implies, implies_true, and_true]
  exact ⟨fun t ht => hvalue (by decide) himage t (mem_of_mem_splitWhere hi ht), hlayers (by decide) hposition p hp,
    hlayers (by decide) hsize s hs, hlayers (by decide) hrep r hr, hlayers (by decide) hattachment a ha,
    hlayers (by decide) horigin o ho, hlayers (by decide) hclip c hc⟩

theorem length_leaves (hp : p.Regular) : p.leaves.length = p.leafNames.length := by
  rw [← (regular_iff.mp hp).1, List.length_map]

theorem leaves_eq_singleton_of_not_isShorthand (hp : p.Regular) (h : p.isShorthand = false) : p.leaves = [p] := by
  refine leaves_of_components_eq_nil (by_contra fun hne => ?_)
  rw [(regular_iff.mp hp).2.2 hne] at h
  cases h

/-- A property with one longhand is that longhand. -/
theorem leaves_eq_singleton (hp : p.Regular) (h : p.leaves.length ≤ 1) : p.leaves = [p] := by
  refine leaves_eq_singleton_of_not_isShorthand hp (Bool.eq_false_iff.mpr fun hshorthand => ?_)
  obtain ⟨row, hrow, hne⟩ := isShorthand_iff.mp hshorthand
  have htwo := Registry.two_le_length_leaves (Registry.mem_of_find? hrow).1 hne
  rw [length_leaves hp, leafNames_of_descriptor? hrow] at h
  omega

/-- Components that are as many as their longhands are longhands. -/
theorem flatMap_leaves_eq_self {cs : List Property} (hcs : ∀ c ∈ cs, c.Regular)
    (h : (cs.flatMap leaves).length ≤ cs.length) : cs.flatMap leaves = cs := by
  have hle (cs : List Property) (hcs : ∀ c ∈ cs, c.Regular) : cs.length ≤ (cs.flatMap leaves).length := by
    induction cs with
    | nil => exact Nat.le_refl _
    | cons c cs ih =>
        rw [List.forall_mem_cons] at hcs
        have hpos := List.length_pos_iff.mpr (leafNames_ne_nil c)
        have hrest := ih hcs.2
        rw [List.flatMap_cons, List.length_append, length_leaves hcs.1, List.length_cons]
        omega
  induction cs with
  | nil => rfl
  | cons c cs ih =>
      rw [List.forall_mem_cons] at hcs
      have hpos := List.length_pos_iff.mpr (leafNames_ne_nil c)
      have hrest := hle cs hcs.2
      rw [← length_leaves hcs.1] at hpos
      rw [List.flatMap_cons, List.length_append, List.length_cons] at h
      rw [List.flatMap_cons, leaves_eq_singleton hcs.1 (by omega), ih hcs.2 (by omega), List.singleton_append]

theorem leaves_eq_components (hp : p.Regular) (hne : p.components ≠ [])
    (hlength : p.leafNames.length ≤ p.components.length) : p.leaves = p.components := by
  rw [← length_leaves hp, leaves_of_components_ne_nil hne] at hlength
  rw [leaves_of_components_ne_nil hne]
  exact flatMap_leaves_eq_self (regular_iff.mp hp).2.1 hlength

theorem components_ne_nil_of_restore? (h : p.restore? = some value) : p.components ≠ [] := by
  obtain ⟨-, -, -, -, hne, -⟩ := restore?_eq_some.mp h
  exact hne

/-- What a value is put together of where the components are longhands. -/
theorem supplies_restoreAs? (hp : p.Regular) {row : Descriptor} {kind : RestoreKind} (hrow : p.descriptor? = some row)
    (hkind : row.restore = some kind) (hne : p.components ≠ []) (hlonghands : kind ≠ .withoutDefaults)
    (h : restoreAs? row p.components kind = some value) : ∀ token ∈ value, Supplies p.leaves token := by
  have hfour (hrestore : row.restore = some .fourValues ∨ row.restore = some .borderRadius)
      (h : p.components.length = 4 ∧ ∀ token ∈ value, Supplies p.components token) :
      ∀ token ∈ value, Supplies p.leaves token := by
    have hlength := Registry.length_leaves_of_restore row (Registry.mem_of_find? hrow).1 hrestore
    rw [leaves_eq_components hp hne (by rw [leafNames_of_descriptor? hrow, hlength, h.1])]
    exact h.2
  cases kind with
  | fourValues => exact hfour (.inl hkind) (supplies_fourValues h)
  | borderRadius => exact hfour (.inr hkind) (supplies_borderRadius h)
  | background =>
      refine fun token => supplies_background (fun c hc hname => ?_) h
      have hlonghand : c.isShorthand = false := Registry.isShorthand_of_mem_backgroundNames c.name hname
      rw [leaves_of_components_ne_nil hne]
      refine List.mem_flatMap.mpr ⟨c, hc, ?_⟩
      rw [leaves_eq_singleton_of_not_isShorthand ((regular_iff.mp hp).2.1 c hc) hlonghand]
      exact List.mem_cons_self
  | withoutDefaults => exact absurd rfl hlonghands

mutual

/-- What the value of a shorthand is put together of. -/
theorem supplies_restore? : ∀ {p : Property} {value : Value}, p.Regular → p.restore? = some value →
    ∀ token ∈ value, Supplies p.leaves token
  | .mk d components unused rebuilt layered free dynamic position, value, hp, h => by
      obtain ⟨row, kind, hrow, hkind, hne, h | ⟨-, -, h⟩⟩ := restore?_eq_some.mp h
      · unfold Restore.sharedGlobal? at h
        split at h
        · cases h
        next first rest hleaves =>
        split at h
        case isFalse => cases h
        rw [← Option.some.inj h]
        exact fun token htoken => .inr ⟨first, hleaves ▸ List.mem_cons_self, htoken⟩
      by_cases hlonghands : kind = .withoutDefaults
      · rw [hlonghands] at h
        obtain ⟨tokens, htokens, rfl⟩ := Option.map_eq_some_iff.mp h
        split
        · have hrow := (Registry.mem_of_find? hrow).1
          exact fun token htoken => .inl (Registry.shortestValue_of_mem_descriptors row hrow token htoken)
        · rw [leaves_of_components_ne_nil hne]
          exact supplies_withoutDefaults? (regular_iff.mp hp).2.1 htokens
      · exact supplies_restoreAs? hp hrow hkind hne hlonghands h

theorem supplies_withoutDefaults? : ∀ {cs : List Property} {value : Value}, (∀ c ∈ cs, c.Regular) →
    withoutDefaults? cs = some value → ∀ token ∈ value, Supplies (cs.flatMap leaves) token
  | [], value, _, h => by
      rw [withoutDefaults?] at h
      cases h
      simp
  | c :: rest, value, hcs, h => by
      rw [List.forall_mem_cons] at hcs
      have hcons (tokens : Value) (htokens : ∀ token ∈ tokens, Supplies c.leaves token)
          (h : ((withoutDefaults? rest).bind fun more =>
            some (if c.descriptor?.any (·.initialValue == tokens) then more else tokens ++ more)) = some value) :
          ∀ token ∈ value, Supplies ((c :: rest).flatMap leaves) token := by
        obtain ⟨more, hmore, h⟩ := Option.bind_eq_some_iff.mp h
        have hrest (token : String) (htoken : token ∈ more) : Supplies ((c :: rest).flatMap leaves) token :=
          (supplies_withoutDefaults? hcs.2 hmore token htoken).mono (by simp)
        rw [← Option.some.inj h]
        split
        · exact hrest
        · exact List.forall_mem_append.mpr ⟨fun token htoken => (htokens token htoken).mono (by simp), hrest⟩
      rw [withoutDefaults?] at h
      split at h
      · obtain ⟨tokens, htokens, h⟩ := Option.bind_eq_some_iff.mp h
        obtain ⟨restored, hrestored, htokens⟩ := Option.bind_eq_some_iff.mp htokens
        split at htokens
        · rw [Option.some.inj htokens] at hrestored
          exact hcons tokens (supplies_restore? hcs.1 hrestored) h
        · cases htokens
      · next hknown =>
          refine hcons c.value (fun token htoken => ?_) h
          have hnone : c.components = [] := by
            by_contra hne
            exact hknown (by simp [isAnalysed, (regular_iff.mp hcs.1).2.2 hne, hne])
          rw [leaves_of_components_eq_nil hnone]
          exact .inr ⟨c, List.mem_cons_self, htoken⟩

end

end Property

end CssMinify
