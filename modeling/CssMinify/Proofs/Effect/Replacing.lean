import CssMinify.Proofs.Effect.Folding

/-! What is known of values that may replace others. Longhand by longhand, a property replaces another only
where each of its longhands may replace the same one of the other. As a whole, the value of a shorthand that
cannot be split never replaces one that can. -/

namespace CssMinify

namespace Registry

theorem name_eq_of_leaves : ∀ a ∈ builtin.shorthands, ∀ b ∈ builtin.shorthands, a.leaves ⊆ b.leaves →
    b.leaves ⊆ a.leaves → a.name = b.name := by
  decide +kernel

/-- Whole values of a shorthand are compared for being the same, or as the lines of borders, which are
split as this shorthand is. -/
theorem override_of_mem_shorthands : ∀ d ∈ builtin.shorthands, d.override = .sameValue ∨
    (d.override = .border ∧ d.split = some .border ∧
      (d.name = "border" ∨ ∀ name ∈ d.components, builtin.isShorthand name = false)) := by
  decide +kernel

theorem exists_mem_shorthands {name : String} (h : builtin.isShorthand name = true) :
    ∃ d ∈ builtin.shorthands, builtin.find? name = some d := by
  obtain ⟨d, hd, hshort⟩ := (Option.any_eq_true _ _).mp h
  exact ⟨d, List.mem_filter.mpr ⟨(mem_of_find? hd).1, hshort⟩, hd⟩

theorem split_border : (builtin.find? "border").bind (·.split) = some .border := by decide +kernel

end Registry

namespace Property

theorem two_le_length_leafNames {p : Property} (h : p.isShorthand = true) : 2 ≤ p.leafNames.length := by
  obtain ⟨d, hd, hne⟩ := isShorthand_iff.mp h
  rw [leafNames_of_descriptor? hd]
  exact Registry.two_le_length_leaves (Registry.mem_of_find? hd).1 hne

mutual

theorem leafNames_of_mem_leaves : ∀ {p leaf : Property}, p.Regular → leaf ∈ p.leaves →
    leaf.leafNames = [leaf.name]
  | .mk d components unused rebuilt layered free dynamic position, leaf, hp, hleaf => by
      have hreg := regular_iff.mp hp
      by_cases hnil : components = []
      · subst hnil
        rw [leaves_of_components_eq_nil rfl, List.mem_singleton] at hleaf
        rw [leaves_of_components_eq_nil rfl, List.map_singleton] at hreg
        rw [hleaf]
        exact hreg.1.symm
      · rw [leaves_of_components_ne_nil hnil] at hleaf
        exact leafNames_of_mem_leavesOfAll hreg.2.1 hleaf

theorem leafNames_of_mem_leavesOfAll : ∀ {ps : List Property} {leaf : Property}, (∀ p ∈ ps, p.Regular) →
    leaf ∈ ps.flatMap leaves → leaf.leafNames = [leaf.name]
  | [], leaf, _, hleaf => by cases hleaf
  | p :: ps, leaf, hps, hleaf => by
      rcases List.mem_append.mp (List.flatMap_cons ▸ hleaf) with hleaf | hleaf
      · exact leafNames_of_mem_leaves (hps p List.mem_cons_self) hleaf
      · exact leafNames_of_mem_leavesOfAll (fun q hq => hps q (List.mem_cons_of_mem p hq)) hleaf

end

/-- What is found under the name of a longhand is that longhand. -/
theorem mem_leaves_of_find? {p c : Property} {name : String} (hp : p.Regular) (h : p.find? name = some c)
    (hsingle : c.leafNames.length = 1) : c ∈ p.leaves := by
  obtain ⟨hc, -, before, after, hleaves⟩ := find?_regular hp h
  have hnil : c.components = [] := by
    by_contra hne
    have htwo := two_le_length_leafNames ((regular_iff.mp hc).2.2 hne)
    omega
  rw [hleaves, leaves_of_components_eq_nil hnil]
  simp

section Replace

variable {profile : Profile} {p q : Property}

/-- Each longhand that may take the place of another has its place in that property. -/
theorem exists_of_leavesReplaceable (hp : p.Regular) (hq : q.Regular) (hname : p.name = q.name)
    (h : leavesReplaceable profile p q = true) {leaf : Property} (hleaf : leaf ∈ q.leaves) :
    ∃ before ∈ p.leaves, before.name = leaf.name ∧
      canOverride profile leaf.name before.value leaf.value = true := by
  have hover := List.all_eq_true.mp h leaf hleaf
  have hsingle := leafNames_of_mem_leaves hq hleaf
  -- Without components, `p` has the one name that both of them have for its only longhand.
  by_cases hnil : p.components = []
  · simp only [hnil, List.isEmpty_nil, if_true] at hover
    have hnames := (regular_iff.mp hp).1
    rw [leaves_of_components_eq_nil hnil, List.map_singleton, leafNames_congr hname,
      ← (regular_iff.mp hq).1] at hnames
    have hmem : leaf.name ∈ [p.name] := hnames ▸ List.mem_map_of_mem hleaf
    refine ⟨p, ?_, (List.mem_singleton.mp hmem).symm, hover⟩
    rw [leaves_of_components_eq_nil hnil]
    exact List.mem_singleton_self p
  · have hempty : p.components.isEmpty = false := by simpa using hnil
    simp only [hempty, Bool.false_eq_true, if_false] at hover
    cases hfind : p.find? leaf.name with
    | none => simp [hfind] at hover
    | some c =>
        simp only [hfind] at hover
        have hcname := (find?_regular hp hfind).2.1
        refine ⟨c, mem_leaves_of_find? hp hfind ?_, hcname, hover⟩
        rw [leafNames_congr hcname, hsingle]
        rfl

end Replace

end Property

namespace Split

variable {profile : Profile} {value : Value}

/-- Whether a line can be split does not depend on the components. -/
theorem isSome_line? (components components' : List String) :
    (line? profile components value).isSome = (line? profile components' value).isSome := by
  simp only [line?, Option.pure_def, Option.bind_eq_bind]
  split
  · rfl
  · cases (value.foldl (Line.add profile) {}).others with
    | nil => rfl
    | cons token rest =>
        cases rest <;> cases (value.foldl (Line.add profile) {}).color <;> rfl

theorem isSome_values? {d d' : Descriptor} (hd : d.split = some .border) (hd' : d'.split = some .border) :
    (values? profile d value).isSome = (values? profile d' value).isSome := by
  simp only [values?, hd, hd', Option.bind_eq_bind, Option.bind_some]
  split
  · rfl
  · exact isSome_line? d.components d'.components

theorem of_isSome_longhandsWithin? {depth : Nat} {name : String}
    (h : (longhandsWithin? profile (depth + 1) name value).isSome = true) :
    value.any Word.isVariable = false ∧
      ∃ d, Registry.builtin.find? name = some d ∧ (values? profile d value).isSome = true := by
  rw [longhandsWithin?] at h
  cases hd : Registry.builtin.find? name with
  | none => simp [hd] at h
  | some d =>
      simp only [hd, Option.bind_eq_bind, Option.bind_some] at h
      split at h
      · cases h
      · next hvariable =>
          refine ⟨by simpa using hvariable, d, rfl, ?_⟩
          cases hvalues : values? profile d value with
          | none => simp [hvalues] at h
          | some values => rfl

/-- What splits as a border splits as a line of any kind. -/
theorem isSome_longhandsWithin?_of_border {d : Descriptor} (hd : Registry.builtin.find? d.name = some d)
    (hsplit : d.split = some .border)
    (hcomponents : ∀ name ∈ d.components, Registry.builtin.isShorthand name = false)
    (h : (longhandsWithin? profile Property.nesting "border" value).isSome = true) :
    (longhandsWithin? profile Property.nesting d.name value).isSome = true := by
  obtain ⟨hvariable, b, hb, hvalues⟩ := of_isSome_longhandsWithin? h
  have hbsplit := Registry.split_border
  rw [hb, Option.bind_some] at hbsplit
  rw [isSome_values? hbsplit hsplit] at hvalues
  obtain ⟨values, hvalues⟩ := Option.isSome_iff_exists.mp hvalues
  have hparts : ∀ part ∈ d.components.zip values, ∃ longhands,
      (if Registry.builtin.isShorthand part.1 then longhandsWithin? profile 1 part.1 part.2
        else some [(part.1, part.2)]) = some longhands ∧ True := by
    intro part hpart
    rw [hcomponents part.1 (List.of_mem_zip hpart).1]
    exact ⟨_, rfl, trivial⟩
  obtain ⟨parts, hparts, -⟩ := exists_mapM hparts
  rw [Property.nesting, longhandsWithin?]
  simp [hd, hvariable, hvalues, hparts]

end Split

namespace Property

variable {profile : Profile}

/-- Lines that are compared part by part can be split as borders. -/
theorem isSome_of_lines {left right : Value} (h : Override.lines profile left right = true) :
    (Split.longhandsWithin? profile nesting "border" right).isSome = true := by
  let border := wrap profile { name := "border", value := right } 0
  have hne : border.components ≠ [] := by
    simp only [Override.lines, Bool.and_eq_true, Bool.not_eq_true', List.isEmpty_eq_false_iff] at h
    exact h.1.2
  have hknown := isOpaque_of_components_ne_nil hne
  cases hshort : Registry.builtin.isShorthand "border" with
  | false => exact absurd (congrArg components (wrap_of_not_isShorthand hshort)) hne
  | true =>
      rw [(longhands_wrap profile _ 0).2, hshort, Bool.true_and] at hknown
      simpa using hknown

/-- A value of a shorthand that cannot be split never replaces one that can. -/
theorem canOverride_of_split {name : String} {left right : Value}
    (hshort : Registry.builtin.isShorthand name = true)
    (hleft : (Split.longhandsWithin? profile nesting name left).isSome = true)
    (hright : Split.longhandsWithin? profile nesting name right = none) :
    canOverride profile name left right = false := by
  obtain ⟨d, hmem, hd⟩ := Registry.exists_mem_shorthands hshort
  have hdname := (Registry.mem_of_find? hd).2
  have hvariable := (Split.of_isSome_longhandsWithin? hleft).1
  have hne : (left == right) = false := by
    rw [beq_eq_false_iff_ne]
    rintro rfl
    rw [hright] at hleft
    cases hleft
  have hkind : ((Registry.builtin.find? name).map (·.override)).getD .sameValue = d.override := by
    rw [hd, Option.map_some, Option.getD_some]
  have hlines : d.override = .border → Override.lines profile left right = false := by
    intro hborder
    by_contra hlines
    have hsplit := isSome_of_lines (by simpa using hlines)
    rcases Registry.override_of_mem_shorthands d hmem with hsame | ⟨-, hline, hname | hcomponents⟩
    · rw [hsame] at hborder
      cases hborder
    · rw [← hname, hdname, hright] at hsplit
      cases hsplit
    · have hsplit := Split.isSome_longhandsWithin?_of_border (hdname.symm ▸ hd) hline hcomponents hsplit
      rw [hdname, hright] at hsplit
      cases hsplit
  simp only [canOverride, Override.values, Override.guarded, hkind, hne, hvariable, Bool.false_eq_true, if_false]
  split
  · rfl
  split
  · rfl
  rcases Registry.override_of_mem_shorthands d hmem with hsame | ⟨hborder, -⟩
  · rw [hsame]
  · rw [hborder]
    exact hlines hborder

end Property

end CssMinify
