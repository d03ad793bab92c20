import CssMinify.Proofs.Effect.Replacing
import CssMinify.Proofs.Runs.Round
import CssMinify.Proofs.Stability.Supply

/-!
Values stay short. A body whose values are shortened holds short ones after every round: what is folded, merged or
collapsed is made of tokens that were short before, or of those that the table has for what is not said.
-/

namespace CssMinify

namespace Registry

/-- What the table says of a name that it has. -/
theorem plain_of_find? {name : String} {row : Descriptor} (h : builtin.find? name = some row) :
    Text.lower name = name ∧ isCustomName name = false ∧ Text.sameFolded name "filter" = false ∧
      Text.sameFolded name "src" = false ∧ zeroUnitProperties.contains name = false := by
  obtain ⟨hmem, hname⟩ := mem_of_find? h
  rw [← hname]
  exact names_of_mem_descriptors row hmem

end Registry

namespace Word

variable {profile : Profile} {name token : String}

theorem isShort_iff (h : zeroUnitProperties.contains name = false) : IsShort profile name token ↔
    minify profile.properties.zeroUnits (profile.properties.colors && carriesColor name) token = token := by
  rw [IsShort, h, Bool.not_false, Bool.and_true]

theorem isShort_fallback (h : token ∈ Split.fallbacks) : IsShort profile name token :=
  Split.minify_fallback h _ _

/-- A token that is short for one property is short for another that has colors as well, or has none, or for
which it is no color. -/
theorem IsShort.trans {other : String} (h : IsShort profile name token)
    (hname : zeroUnitProperties.contains name = false) (hother : zeroUnitProperties.contains other = false)
    (hcolor : carriesColor name = false → carriesColor other = true → isColor token = false) :
    IsShort profile other token := by
  rw [isShort_iff hname] at h
  rw [isShort_iff hother]
  cases hcolors : profile.properties.colors with
  | false => simpa [hcolors] using h
  | true =>
      rw [hcolors, Bool.true_and] at h
      rw [Bool.true_and]
      cases hn : carriesColor name <;> cases ho : carriesColor other <;> rw [hn] at h
      · exact h
      · exact minify_true_of_not_isColor h (hcolor hn ho)
      · exact minify_false_of_minify_true h
      · exact h

end Word

namespace Declaration

variable {profile : Profile} {d : Declaration}

theorem keepsValue_of_find? {row : Descriptor} (h : Registry.builtin.find? d.name = some row) :
    d.keepsValue = (d.hack != .none || d.value.any Word.isVariable) := by
  obtain ⟨-, hcustom, hfilter, hsrc, -⟩ := Registry.plain_of_find? h
  simp [keepsValue, hcustom, hfilter, hsrc]

theorem isMinified_of_keepsValue (h : d.keepsValue = true) : d.IsMinified profile := if_pos h

/-- A declaration of a property in the table is short if its tokens are. -/
theorem isMinified_iff {row : Descriptor} (h : Registry.builtin.find? d.name = some row)
    (hkeeps : d.keepsValue = false) : d.IsMinified profile ↔ ∀ token ∈ d.value, Word.IsShort profile d.name token := by
  have hlower := (Registry.plain_of_find? h).1
  have hminify : d.minify profile = { d with value := d.value.map (Word.minify
      (profile.properties.zeroUnits && !zeroUnitProperties.contains d.name)
      (profile.properties.colors && carriesColor d.name)) } := by
    rw [minify, if_neg (by simp [hkeeps]), hlower]
  have hvalue (value : Value) : ({ d with value } : Declaration) = d ↔ value = d.value := by
    cases d
    simp
  rw [IsMinified, hminify, hvalue]
  conv_lhs => rw [← List.map_id d.value, List.map_map]
  exact List.map_inj_left

theorem isMinified_of_isShort {row : Descriptor} (h : Registry.builtin.find? d.name = some row)
    (hshort : ∀ token ∈ d.value, Word.IsShort profile d.name token) : d.IsMinified profile := by
  cases hkeeps : d.keepsValue with
  | true => exact isMinified_of_keepsValue hkeeps
  | false => exact (isMinified_iff h hkeeps).mpr hshort

/-- What has been shortened is short. -/
theorem isMinified_minify (profile : Profile) (d : Declaration) : (d.minify profile).IsMinified profile := by
  by_cases hkeeps : d.keepsValue = true
  · have hsame : d.minify profile = d := if_pos hkeeps
    rw [hsame]
    exact hsame
  let shorten := Word.minify (profile.properties.zeroUnits && !zeroUnitProperties.contains (Text.lower d.name))
    (profile.properties.colors && carriesColor (Text.lower d.name))
  have hminify : d.minify profile = { d with value := d.value.map shorten } := if_neg hkeeps
  rw [hminify]
  by_cases hagain : ({ d with value := d.value.map shorten } : Declaration).keepsValue = true
  · exact isMinified_of_keepsValue hagain
  have htwice : (d.value.map shorten).map shorten = d.value.map shorten := by
    rw [List.map_map]
    exact List.map_congr_left fun token _ => Word.minify_minify _ _ token
  have hsecond : ({ d with value := d.value.map shorten } : Declaration).minify profile
      = { d with value := (d.value.map shorten).map shorten } := if_neg hagain
  rw [IsMinified, hsecond, htwice]

end Declaration

namespace Property

/-- A property whose longhands at any depth have short tokens. What is left open has a value that the table has. -/
structure Short (profile : Profile) (p : Property) : Prop where
  regular : p.Regular
  tokens : ∀ leaf ∈ p.leaves, ∀ token ∈ leaf.value, Word.IsShort profile leaf.name token
  free : ∀ leaf ∈ p.leaves, leaf.free = true → ∀ token ∈ leaf.value, token ∈ Split.fallbacks

section Short

variable {profile : Profile} {p : Property} {value : Value}

theorem Short.congr {q : Property} (h : Short profile p) (hne : p.components ≠ []) (hname : p.name = q.name)
    (hcomponents : p.components = q.components) : Short profile q where
  regular := regular_congr hname hcomponents h.regular
  tokens := leaves_congr hcomponents hne ▸ h.tokens
  free := leaves_congr hcomponents hne ▸ h.free

/-- A component of another shorthand is as short as it was. -/
theorem Short.belongTo (h : Short profile p) (owner : Property) : Short profile (belongTo owner p) where
  regular := regular_belongTo owner h.regular
  tokens := by
    rw [leaves_belongTo, List.forall_mem_map]
    exact h.tokens
  free := by
    rw [leaves_belongTo, List.forall_mem_map]
    exact h.free

/-- A shorthand stays short when a component is exchanged for a short one. -/
theorem Short.modify? {r changed : Property} (h : Short profile p) (hr : Short profile r) {name : String}
    (hname : r.name = name) (hchanged : p.modify? name (fun _ => r) = some changed) : Short profile changed := by
  obtain ⟨hregular, -, -, c, before, after, -, hleaves, hleaves'⟩ :=
    modify?_regular hr.regular hname h.regular hchanged
  have hall {P : Property → Prop} (hp : ∀ leaf ∈ p.leaves, P leaf) (hr : ∀ leaf ∈ r.leaves, P leaf) :
      ∀ leaf ∈ changed.leaves, P leaf := by
    rw [hleaves, List.forall_mem_append, List.forall_mem_append] at hp
    rw [hleaves', List.forall_mem_append, List.forall_mem_append]
    exact ⟨⟨hp.1.1, hr⟩, hp.2⟩
  exact ⟨hregular, hall h.tokens hr.tokens, hall h.free hr.free⟩

/-- Short components make a short shorthand. -/
theorem short_of_components {row : Descriptor} (hrow : p.descriptor? = some row) (hne : p.components ≠ [])
    (hnames : p.components.map (·.name) = row.components) (hall : ∀ c ∈ p.components, Short profile c) :
    Short profile p where
  regular := regular_of_components hrow hne hnames fun c hc => (hall c hc).regular
  tokens := by
    rw [leaves_of_components_ne_nil hne]
    intro leaf hleaf
    obtain ⟨c, hc, hleaf⟩ := List.mem_flatMap.mp hleaf
    exact (hall c hc).tokens leaf hleaf
  free := by
    rw [leaves_of_components_ne_nil hne]
    intro leaf hleaf
    obtain ⟨c, hc, hleaf⟩ := List.mem_flatMap.mp hleaf
    exact (hall c hc).free leaf hleaf

/-- What the table says of the longhands of a shorthand. -/
theorem names_of_mem_leaves (hp : p.Regular) (hne : p.components ≠ []) {leaf : Property} (hleaf : leaf ∈ p.leaves) :
    zeroUnitProperties.contains p.name = false ∧ zeroUnitProperties.contains leaf.name = false ∧
      (carriesColor p.name = true ∨ carriesColor leaf.name = false) := by
  obtain ⟨row, hrow, hcomponents⟩ := isShorthand_iff.mp ((regular_iff.mp hp).2.2 hne)
  obtain ⟨hmem, hname⟩ := Registry.mem_of_find? hrow
  have hshorthand : row ∈ Registry.builtin.shorthands :=
    List.mem_filter.mpr ⟨hmem, by simpa [Descriptor.isShorthand] using hcomponents⟩
  have hleafName : leaf.name ∈ row.leaves := by
    rw [← leafNames_of_descriptor? hrow, ← (regular_iff.mp hp).1]
    exact List.mem_map_of_mem hleaf
  rw [← hname]
  exact ⟨(Registry.names_of_mem_descriptors row hmem).2.2.2.2, Registry.names_of_mem_leaves row hshorthand _ hleafName⟩

section Wrapped

variable {d : Declaration} {position : Nat} (hne : (wrap profile d position).components ≠ [])

include hne

/-- A declaration with components has a value that could be split. -/
theorem exists_longhands_wrap : ∃ longhands, (wrap profile d position).longhands = longhands ∧
    Split.longhandsWithin? profile nesting d.name d.value = some longhands := by
  obtain ⟨hlonghands, hopaque⟩ := longhands_wrap profile d position
  rw [isOpaque_of_components_ne_nil hne] at hopaque
  have hshorthand := (regular_iff.mp (regular_wrap (isOpaque_of_components_ne_nil hne))).2.2 hne
  rw [isShorthand_wrap] at hshorthand
  rw [hshorthand, Bool.true_and, eq_comm, Option.isNone_eq_false_iff] at hopaque
  obtain ⟨longhands, hsome⟩ := Option.isSome_iff_exists.mp hopaque
  rw [hshorthand, if_pos rfl, hsome, Option.getD_some] at hlonghands
  exact ⟨longhands, hlonghands, hsome⟩

/-- Where a token of a longhand comes from. -/
theorem passed_wrap : ∀ leaf ∈ (wrap profile d position).leaves, ∀ token ∈ leaf.value,
    Split.Passed d.name d.value leaf.name token := by
  obtain ⟨longhands, rfl, hsplit⟩ := exists_longhands_wrap hne
  intro leaf hleaf
  exact Split.passed_longhandsWithin? hsplit (leaf.name, leaf.value) (List.mem_map_of_mem hleaf)

/-- Splitting hands short tokens down. -/
theorem short_wrap (hd : d.IsMinified profile) (hhack : d.hack = .none) : Short profile (wrap profile d position) := by
  have hregular := regular_wrap (isOpaque_of_components_ne_nil hne)
  obtain ⟨longhands, -, hsplit⟩ := exists_longhands_wrap hne
  obtain ⟨hstatic, row, hrow, -⟩ := Split.of_isSome_longhandsWithin? (Option.isSome_iff_exists.mpr ⟨_, hsplit⟩)
  have hshort := (Declaration.isMinified_iff hrow
    (by simp [Declaration.keepsValue_of_find? hrow, hhack, hstatic])).mp hd
  refine ⟨hregular, fun leaf hleaf token htoken => ?_, fun leaf hleaf hfree => ?_⟩
  · obtain ⟨hzero, hleafZero, hcolors⟩ := names_of_mem_leaves hregular hne hleaf
    rw [toDeclaration_wrap] at hzero hcolors
    cases passed_wrap hne leaf hleaf token htoken with
    | own hmem =>
        refine (hshort token hmem).trans hzero hleafZero fun hnone hcarries => ?_
        rw [hnone, hcarries] at hcolors
        simp at hcolors
    | fallback hmem => exact Word.isShort_fallback hmem
  · rw [bound_wrap profile d position leaf hleaf] at hfree
    cases hfree

end Wrapped

/-- Putting together hands short tokens up, as far as the value splits into them again. -/
theorem Short.isShort_restore? (h : Short profile p) (hvalue : p.restore? = some value)
    (hverifies : p.verifies profile value = true) : ∀ token ∈ value, Word.IsShort profile p.name token := by
  have hne := components_ne_nil_of_restore? hvalue
  obtain ⟨hknown, hall⟩ := forall₂_of_verifies hverifies
  intro token htoken
  rcases supplies_restore? h.regular hvalue token htoken with hfallback | ⟨leaf, hleaf, htoken⟩
  · exact Word.isShort_fallback hfallback
  by_cases hfree : leaf.free = true
  · exact Word.isShort_fallback (h.free leaf hleaf hfree token htoken)
  -- What the value splits into has this token, so it is no color where there is none.
  obtain ⟨again, hagain, hname, hsame⟩ := exists_of_mem_left hall hleaf
  rw [hsame.resolve_left hfree] at htoken
  have hagainNe : (wrap profile { p.toDeclaration with value } p.position).components ≠ [] := by
    have hshorthand := (regular_iff.mp h.regular).2.2 hne
    rw [isOpaque, isShorthand_wrap] at hknown
    simpa [show Registry.builtin.isShorthand p.name = true from hshorthand] using hknown
  have hpassed := passed_wrap hagainNe again hagain token htoken
  rw [← hsame.resolve_left hfree] at htoken
  rw [← hname] at hpassed
  obtain ⟨hzero, hleafZero, -⟩ := names_of_mem_leaves h.regular hne hleaf
  refine (h.tokens leaf hleaf token htoken).trans hleafZero hzero fun hnone hcarries => ?_
  cases hpassed with
  | own _ hcolor => exact hcolor hcarries hnone
  | fallback _ hcolor => exact hcolor hnone

theorem Short.isMinified_restore? (h : Short profile p) (hvalue : p.restore? = some value)
    (hverifies : p.verifies profile value = true) :
    ({ p.toDeclaration with value } : Declaration).IsMinified profile := by
  obtain ⟨row, -, hrow, -⟩ := restore?_eq_some.mp hvalue
  exact Declaration.isMinified_of_isShort (d := { p.toDeclaration with value }) hrow
    (h.isShort_restore? hvalue hverifies)

/-- The initial value of a component has tokens to fall back on at any depth. -/
theorem mem_fallbacks_of_withInitial? {s c : Property} (h : withInitial? profile s p = some c) :
    ∀ l ∈ c.longhands, ∀ token ∈ l.2, token ∈ Split.fallbacks := by
  obtain ⟨row, hrow, h⟩ := Option.bind_eq_some_iff.mp h
  have hinitial (token : String) (htoken : token ∈ row.initialValue) : token ∈ Split.fallbacks :=
    (Registry.initialValue_of_mem_descriptors row (Registry.mem_of_find? hrow).1 token htoken).elim
      (List.mem_append_left _) And.left
  simp only [component?] at h
  split at h
  · next hshorthand =>
      obtain ⟨cs, hcs, rfl⟩ := Option.map_eq_some_iff.mp h
      have hsplit := components?_longhands profile
        { s.toDeclaration with name := p.name, value := row.initialValue } s.position
      rw [hcs, Option.map_some] at hsplit
      rw [longhands_of_components_ne_nil ((componentsWithin?_isSplit hcs).ne_nil hshorthand)]
      intro l hl token htoken
      cases Split.passed_longhandsWithin? hsplit.symm l hl token htoken with
      | own hmem => exact hinitial token hmem
      | fallback hmem => exact hmem
  · cases h
    rw [longhands_of_components_eq_nil rfl, List.forall_mem_singleton]
    exact hinitial

theorem short_withInitial? {s c : Property} (h : withInitial? profile s p = some c) (free : Bool) :
    Short profile { c with free } := by
  have hlonghands : ({ c with free } : Property).longhands = c.longhands := by
    by_cases hnone : c.components = []
    · rw [longhands_of_components_eq_nil hnone]
      exact longhands_of_components_eq_nil hnone
    · rw [longhands_of_components_ne_nil hnone]
      exact longhands_of_components_ne_nil hnone
  have hfallbacks (leaf : Property) (hleaf : leaf ∈ ({ c with free } : Property).leaves) :
      ∀ token ∈ leaf.value, token ∈ Split.fallbacks :=
    mem_fallbacks_of_withInitial? h (leaf.name, leaf.value) (hlonghands ▸ List.mem_map_of_mem hleaf)
  exact ⟨regular_congr (p := c) rfl rfl (withInitial?_regular h).2,
    fun leaf hleaf token htoken => Word.isShort_fallback (hfallbacks leaf hleaf token htoken),
    fun leaf hleaf _ => hfallbacks leaf hleaf⟩

end Short

/-- A property that rounds deal with: shortened, and short with all its longhands as far as it is not hidden from
some engines. -/
structure Terse (profile : Profile) (p : Property) : Prop where
  minified : p.toDeclaration.IsMinified profile
  composed : p.hack = .none → p.components ≠ [] → Short profile p
  alone : p.components = [] → p.free = false ∧ p.dynamic = p.value.any Word.isVariable

section Terse

variable {profile : Profile} {p : Property} {value : Value}

theorem Terse.short (h : Terse profile p) (hhack : p.hack = .none) (hstatic : p.dynamic = false)
    (hknown : p.isShorthand = true → p.isAnalysed = true) (hrow : ∃ row, p.descriptor? = some row) :
    Short profile p := by
  by_cases hnone : p.components = []
  case neg => exact h.composed hhack hnone
  have hlonghand : p.isShorthand = false := by
    refine Bool.eq_false_iff.mpr fun hshorthand => ?_
    have hanalysed := hknown hshorthand
    simp [isAnalysed, hnone] at hanalysed
  obtain ⟨row, hrow⟩ := hrow
  obtain ⟨hfree, hdynamic⟩ := h.alone hnone
  have hkeeps : p.toDeclaration.keepsValue = false := by
    simp [Declaration.keepsValue_of_find? hrow, hhack, ← hdynamic, hstatic]
  have hshort := (Declaration.isMinified_iff hrow hkeeps).mp h.minified
  refine ⟨regular_of_not_isShorthand hlonghand hnone, ?_, ?_⟩ <;> rw [leaves_of_components_eq_nil hnone]
  · simpa using hshort
  · simp [hfree]

theorem terse_wrap {d : Declaration} (hd : d.IsMinified profile) (position : Nat) :
    Terse profile (wrap profile d position) where
  minified := by
    rw [toDeclaration_wrap]
    exact hd
  composed hhack hne := short_wrap hne hd (by rwa [toDeclaration_wrap] at hhack)
  alone _ := by
    rw [wrap]
    split <;> exact ⟨rfl, rfl⟩

/-- A shorthand with components gets the value that they are put together to. -/
theorem terse_of_restore? {q : Property} (h : p.hack = .none → Short profile p) (hvalue : p.restore? = some value)
    (hverifies : p.verifies profile value = true) (hdeclaration : q.toDeclaration = { p.toDeclaration with value })
    (hcomponents : p.components = q.components) : Terse profile q := by
  have hne := components_ne_nil_of_restore? hvalue
  have hname : p.name = q.name := by rw [hdeclaration]
  have hhack : p.hack = q.hack := by rw [hdeclaration]
  refine ⟨?_, fun hnone _ => (h (hhack.trans hnone)).congr hne hname hcomponents, fun hnil => ?_⟩
  · rw [hdeclaration]
    by_cases hnone : p.hack = .none
    · exact (h hnone).isMinified_restore? hvalue hverifies
    · exact Declaration.isMinified_of_keepsValue (by simp [Declaration.keepsValue, hnone])
  · rw [← hcomponents] at hnil
    exact absurd hnil hne

theorem Terse.collapse (h : Terse profile p) : Terse profile (p.collapse profile) := by
  rcases collapse_eq_or profile p with hsame | ⟨value, hvalue, -, hrestore, -, hverifies⟩
  · rw [hsame]
    exact h
  · rw [hvalue]
    exact terse_of_restore? (fun hhack => h.composed hhack (components_ne_nil_of_restore? hrestore)) hrestore hverifies
      rfl rfl

/-- What a round does to a property apart from its value and its components. -/
theorem Terse.congr {q : Property} (h : Terse profile p) (hdeclaration : q.toDeclaration = p.toDeclaration)
    (hcomponents : p.components = q.components) (hfree : q.free = p.free) (hdynamic : q.dynamic = p.dynamic) :
    Terse profile q where
  minified := hdeclaration ▸ h.minified
  composed hhack hne := by
    rw [← hcomponents] at hne
    exact (h.composed (hdeclaration ▸ hhack) hne).congr hne (by rw [hdeclaration]) hcomponents
  alone hnone := by
    rw [hfree, hdynamic, hdeclaration]
    exact h.alone (hcomponents.trans hnone)

theorem terse_fold {config : Config} {e r merged : Property} {mid : List Property} (he : Terse config.profile e)
    (hr : Terse config.profile r) (h : judgePair config e mid r = .foldInto merged) : Terse config.profile merged := by
  have hof := foldOf_judgePair h
  obtain ⟨hrow, changed, value, hchanged, hrestore, hverifies, rfl⟩ := of_folded? hof.folded
  refine terse_of_restore? (p := changed) (fun hhack => ?_) hrestore hverifies rfl rfl
  obtain ⟨components, rfl⟩ := eq_of_modify? hchanged
  have hne : e.components ≠ [] := by
    have hanalysed := hof.analysed
    simp only [isAnalysed, Bool.and_eq_true, Bool.not_eq_true', List.isEmpty_eq_false_iff] at hanalysed
    exact hanalysed.2
  have hshort := hr.short (hof.hack.symm.trans hhack) hof.static hof.known hrow
  exact (he.composed hhack hne).modify? (hshort.belongTo e) (name_belongTo e r) hchanged

theorem terse_merge {config : Config} {d : Descriptor} {ps ps' parts merged : List Property} (hd : d ∈ mergeOrder)
    (hof : MergeOf config d ps ps' parts merged) (hparts : ∀ p ∈ parts, Terse config.profile p) :
    ∀ p ∈ merged, Terse config.profile p := by
  obtain ⟨hrow, hne⟩ := mem_mergeOrder hd
  obtain ⟨important, hmay⟩ := hof.mayMerge
  have hshort (p : Property) (hp : p ∈ parts) : Short config.profile p := by
    have hmerge := hmay p hp
    simp only [mayMerge, Bool.and_eq_true, Bool.not_eq_true', beq_iff_eq, Bool.and_eq_false_iff,
      Bool.not_eq_false'] at hmerge
    obtain ⟨⟨⟨⟨⟨-, hhack⟩, hstatic⟩, -⟩, hknown⟩, -⟩ := hmerge
    refine (hparts p hp).short hhack hstatic (fun hshorthand => hknown.resolve_left (by simp [hshorthand])) ?_
    exact Registry.exists_find?_of_mem_components hrow (hof.names ▸ List.mem_map_of_mem hp)
  obtain ⟨important, position, hassemble⟩ := hof.assembled
  -- Components with the names of the table that are short make a short shorthand.
  have hblank (components : List Property) (hnames : components.map (·.name) = d.components)
      (hall : ∀ c ∈ components, Short config.profile c) : Short config.profile (blank d important position components) := by
    refine short_of_components (p := blank d important position components) (Registry.find?_of_mem hrow) ?_ hnames hall
    rintro hnil
    rw [show components = [] from hnil] at hnames
    exact hne hnames.symm
  rcases of_assemble? hassemble with ⟨-, rfl⟩ | ⟨-, components, value, hfills, hrestore, hverifies, rfl⟩
  · rw [List.forall_mem_singleton]
    have hshorthand := hblank parts hof.names hshort
    have hpartsNe : parts ≠ [] := by
      rintro rfl
      exact hne hof.names.symm
    refine ⟨?_, fun _ _ => hshorthand.congr (p := blank d important position parts) hpartsNe rfl rfl,
      fun hnil => absurd hnil hpartsNe⟩
    refine Declaration.isMinified_of_isShort (Registry.find?_of_mem hrow) ?_
    rw [List.forall_mem_singleton]
    exact Word.isShort_fallback (by decide)
  · have hcomponents : components.map (·.name) = d.components ∧ ∀ c ∈ components, Short config.profile c := by
      rw [← hof.names]
      refine forall₂_names (List.forall₂_iff_zip.mpr ⟨hfills.length_eq, fun {p c} hmem => ?_⟩)
      rcases (List.forall₂_iff_zip.mp hfills).2 hmem with ⟨-, rfl⟩ | ⟨-, initial, free, hinitial, rfl⟩
      · exact ⟨rfl, hshort c (List.of_mem_zip hmem).1⟩
      · exact ⟨(withInitial?_regular hinitial).1, short_withInitial? hinitial free⟩
    rw [List.forall_mem_cons, List.forall_mem_map]
    refine ⟨terse_of_restore? (fun _ => hblank components hcomponents.1 hcomponents.2) hrestore hverifies rfl rfl, ?_⟩
    intro p hp
    exact (hparts p (List.mem_filter.mp hp).1).congr rfl rfl rfl rfl

end Terse

end Property

namespace Body

open Property

variable {config : Config}

theorem closed_terse (config : Config) : Closed config (Terse config.profile) where
  dead _ hp := hp.congr rfl rfl rfl rfl
  fold _ _ _ _ _ _ he hr h := terse_fold he hr h
  merge hd hof hparts := terse_merge hd hof hparts
  collapse _ hp := hp.collapse

/-- Rounds put no value together that could be shortened. -/
theorem isMinified_round {ds : List Declaration} (h : ∀ d ∈ ds, d.IsMinified config.profile) :
    ∀ d ∈ round config ds, d.IsMinified config.profile := by
  intro d hd
  obtain ⟨p, hp, -, rfl⟩ := (closed_terse config).round (fun d hd position => terse_wrap (h d hd) position) d hd
  exact hp.minified

theorem isMinified_settle {rounds : Nat} {ds : List Declaration} (h : ∀ d ∈ ds, d.IsMinified config.profile) :
    ∀ d ∈ settle (round config) rounds ds, d.IsMinified config.profile := by
  induction rounds generalizing ds with
  | zero => exact h
  | succ rounds ih =>
      rw [settle]
      split
      · exact h
      · exact ih (isMinified_round h)

/-- A body that has been optimized has nothing left to shorten. -/
theorem isMinified_optimize (config : Config) (ds : List Declaration) :
    ∀ d ∈ optimize config ds, d.IsMinified config.profile := by
  refine isMinified_settle fun d hd => ?_
  obtain ⟨d, -, rfl⟩ := List.mem_map.mp hd
  exact Declaration.isMinified_minify config.profile d

end Body

end CssMinify
