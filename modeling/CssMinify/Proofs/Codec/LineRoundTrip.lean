import CssMinify.Proofs.Codec.Retaking

/-!
Borders and outlines put together again. There are lines that do not survive, since a part that goes without saying
was what kept another token in its place; which ones is said here exactly.
-/

namespace CssMinify

namespace Property

open Split (Line spread)

variable {profile : Profile} {d : Declaration} {position : Nat} {row : Descriptor} {names : LineNames}
  {values : List Value}

/-- What an analysed shorthand sets. -/
theorem isAnalysed_longhands_iff {longhands : List (String × Value)}
    (hshort : Registry.builtin.isShorthand d.name = true) :
    (wrap profile d position).isAnalysed = true ∧ (wrap profile d position).longhands = longhands ↔
      Split.longhandsWithin? profile nesting d.name d.value = some longhands := by
  obtain ⟨hlonghands, hwhole⟩ := longhands_wrap profile d position
  rw [isOpaque, isShorthand_wrap] at hwhole
  rw [isAnalysed, isShorthand_wrap, hlonghands]
  simp only [hshort, Bool.true_and, if_true] at hwhole ⊢
  rw [hwhole]
  cases Split.longhandsWithin? profile nesting d.name d.value <;> simp

/-- Four sides with one token come down to that token. -/
theorem fourValues?_longhandComponents {components : List String} (hlength : components.length = 4) (token : String) :
    Restore.fourValues? (longhandComponents d position components (components.map fun _ => [token]))
      = some [token] := by
  match components, hlength with
  | [top, right, bottom, left], _ =>
      simp [longhandComponents, Restore.fourValues?, Restore.sideValue, Restore.collapseFour, bare]

theorem componentsWithin?_of_sides {depth : Nat} {inner : List Property} {token : String}
    (hvalue : d.value = [token]) (hfind : Registry.builtin.find? d.name = some row)
    (hsplit : row.split = some .fourValues) (hlonghands : row.components.all (!Registry.builtin.isShorthand ·) = true)
    (hseparator : isSeparator token = false)
    (h : componentsWithin? profile (depth + 1) (bare d position) = some inner) :
    inner = longhandComponents d position row.components (row.components.map fun _ => [token]) := by
  have hdescriptor : (bare d position).descriptor? = some row := hfind
  have hvalues : Split.values? profile row (bare d position).value = some (row.components.map fun _ => [token]) := by
    rw [show (bare d position).value = [token] from hvalue]
    exact Split.values?_of_single (Registry.mem_of_find? hfind).1 hsplit hseparator
  rw [componentsWithin?_succ, hdescriptor, Option.bind_some] at h
  split at h
  · cases h
  rw [hvalues, Option.bind_some,
    mapM_eq_some_map (g := fun part => bare { d with name := part.1, value := part.2 } position)] at h
  · exact (Option.some.inj h).symm
  · intro part hpart
    have hlonghand := List.all_eq_true.mp hlonghands part.1 (List.of_mem_zip hpart).1
    rw [Bool.not_eq_true'] at hlonghand
    exact if_neg (Bool.eq_false_iff.mp hlonghand)

theorem sharedGlobal?_eq_none {leaves : List Property} (h : ∀ leaf ∈ leaves, leaf.value.any Word.isGlobal = false) :
    Restore.sharedGlobal? leaves = none := by
  rw [Option.eq_none_iff_forall_ne_some]
  intro value hshared
  obtain ⟨hne, hone, hall⟩ := sharedGlobal?_eq_some.mp hshared
  obtain ⟨leaf, hleaf⟩ := List.exists_mem_of_ne_nil _ hne
  have hplain := h leaf hleaf
  obtain ⟨token, rfl, hglobal⟩ := Split.isLoneGlobal_iff.mp hone
  rw [hall leaf hleaf] at hplain
  simp_all

/-- A component with one token for all its sides comes down to that token. -/
theorem restore?_componentWithin? {depth : Nat} {p c : Property} {name token : String}
    (h : componentWithin? profile (depth + 1) p (name, [token]) = some c) (heven : Registry.isEven name = true)
    (hseparator : isSeparator token = false) (hglobal : Word.isGlobal token = false)
    (hanalysed : c.isAnalysed = true) : c.restore? = some [token] := by
  have hrestores : ∀ row ∈ Registry.builtin.descriptors, row.split = some .fourValues →
      row.restore = some .fourValues := by decide +kernel
  simp only [componentWithin?] at h
  split at h
  · next hshort =>
    obtain ⟨inner, hinner, rfl⟩ := Option.map_eq_some_iff.mp h
    obtain ⟨row, hfind, hkind⟩ := (Option.any_eq_true _ _).mp heven
    obtain ⟨hmem, rfl⟩ := Registry.mem_of_find? hfind
    obtain ⟨_, hsame, hne⟩ := isShorthand_iff.mp hshort
    cases Option.some.inj (hfind.symm.trans hsame)
    rw [Bool.or_eq_true, Bool.and_eq_true, beq_iff_eq, List.isEmpty_iff, or_iff_right hne] at hkind
    obtain ⟨hsplit, hlonghands⟩ := hkind
    have hinner := componentsWithin?_of_sides rfl hfind hsplit hlonghands hseparator hinner
    have hcomponents : inner ≠ [] := by
      rw [isAnalysed, Bool.and_eq_true, Bool.not_eq_true', List.isEmpty_eq_false_iff] at hanalysed
      exact hanalysed.2
    have hplain : ∀ leaf ∈ inner, leaf.value.any Word.isGlobal = false := by
      intro leaf hleaf
      rw [hinner, longhandComponents] at hleaf
      obtain ⟨part, hpart, rfl⟩ := List.mem_map.mp hleaf
      obtain ⟨-, -, hvalue⟩ := List.mem_map.mp (List.of_mem_zip hpart).2
      show part.2.any Word.isGlobal = false
      simpa [← hvalue] using hglobal
    refine restore?_eq_some.mpr ⟨row, .fourValues, hfind, hrestores row hmem hsplit, hcomponents, .inr ?_⟩
    rw [leaves_of_longhandComponents hinner hcomponents]
    exact ⟨sharedGlobal?_eq_none hplain, List.any_eq_false.mpr (by simpa using hplain),
      hinner ▸ fourValues?_longhandComponents (Registry.length_components hmem hsplit rfl) token⟩
  · cases h
    simp [isAnalysed, bare] at hanalysed

/-- A line that is analysed, and the values of its components. -/
structure LineInto (profile : Profile) (d : Declaration) (position : Nat) (row : Descriptor) (names : LineNames)
    (values : List Value) : Prop where
  described : Registry.builtin.find? d.name = some row
  line : row.IsLine names
  even : row.components.all Registry.isEven = true
  static : d.value.any Word.isVariable = false
  split : Split.values? profile row d.value = some values
  components : (row.components.zip values).mapM (componentWithin? profile 1 (bare d position))
    = some (wrap profile d position).components
  components_ne_nil : (wrap profile d position).components ≠ []

theorem exists_lineInto (hname : d.name ∈ Registry.lines.map Prod.fst)
    (h : (wrap profile d position).isAnalysed = true) :
    ∃ row names values, LineInto profile d position row names values := by
  obtain ⟨line, hmem, hline⟩ := List.mem_map.mp hname
  obtain ⟨row, hrow, hisLine⟩ := (Option.any_eq_true _ _).mp (Registry.isLine_lines line hmem)
  have heven := Registry.isEven_components line hmem
  rw [hrow, Option.all_some] at heven
  rw [hline] at hrow
  rw [isAnalysed, Bool.and_eq_true, isShorthand_wrap, Bool.not_eq_true', List.isEmpty_eq_false_iff] at h
  obtain ⟨hshort, hne⟩ := h
  cases hcs : components? profile (bare d position) with
  | none =>
      rw [wrap_of_isShorthand hshort, hcs] at hne
      exact absurd rfl hne
  | some cs =>
      have hcomponents : (wrap profile d position).components = cs := by
        rw [wrap_of_isShorthand hshort, hcs]
        rfl
      obtain ⟨hstatic, values, hvalues, hmapM⟩ := exists_of_components? hrow hcs
      exact ⟨row, line.2, values, hrow, by simpa using hisLine, heven, hstatic, hvalues, hcomponents ▸ hmapM, hne⟩

namespace LineInto

variable (h : LineInto profile d position row names values)

include h

theorem name_eq : row.name = d.name := (Registry.mem_of_find? h.described).2

theorem length_values : values.length = row.components.length :=
  Split.length_values? (Registry.mem_of_find? h.described).1 h.split

theorem leafNames_ne_nil : ∀ name ∈ row.components, Registry.builtin.leafNames name ≠ [] :=
  fun _ => Registry.leafNames_ne_nil (Registry.mem_of_find? h.described).1

/-- What another value of the same name is split into. -/
theorem longhandsWithin?_eq (value : Value) :
    Split.longhandsWithin? profile nesting d.name value
      = if value.any Word.isVariable then none
        else (Split.values? profile row value).map fun values => spread (row.components.zip values) := by
  have hfind := h.described
  rw [← h.name_eq] at hfind ⊢
  exact Split.longhandsWithin?_line h.line hfind h.even

theorem isShorthand : Registry.builtin.isShorthand d.name = true := by
  rw [← isShorthand_wrap profile d position, isShorthand_iff]
  exact ⟨row, by rw [descriptor?, toDeclaration_wrap]; exact h.described, h.line.components_ne_nil⟩

theorem longhands : (wrap profile d position).longhands = spread (row.components.zip values) := by
  rw [(longhands_wrap profile d position).1, h.isShorthand, if_pos rfl, h.longhandsWithin?_eq, h.static, h.split]
  rfl

theorem map_components :
    (wrap profile d position).components.map (fun c => (c.name, c.value)) = row.components.zip values :=
  map_of_mapM_componentWithin? h.components

theorem map_value_components : (wrap profile d position).components.map (·.value) = values := by
  have hsnd := congrArg (List.map Prod.snd) h.map_components
  rw [List.map_map, List.map_snd_zip (Nat.le_of_eq h.length_values)] at hsnd
  exact hsnd

theorem forall_leaves {P : Value → Prop} :
    (∀ leaf ∈ (wrap profile d position).leaves, P leaf.value) ↔ ∀ value ∈ values, P value := by
  have hlonghands : (∀ leaf ∈ (wrap profile d position).leaves, P leaf.value)
      ↔ ∀ found ∈ (wrap profile d position).longhands, P found.2 := by
    rw [Property.longhands, List.forall_mem_map]
  have hzip : (row.components.zip values).map Prod.snd = values := List.map_snd_zip (Nat.le_of_eq h.length_values)
  rw [hlonghands, h.longhands, spread, List.forall_mem_flatMap]
  conv_rhs => rw [← hzip, List.forall_mem_map]
  refine forall₂_congr fun part hpart => ?_
  rw [List.forall_mem_map]
  refine ⟨fun hall => ?_, fun hpart _ _ => hpart⟩
  obtain ⟨leaf, hleaf⟩ := List.exists_mem_of_ne_nil _ (h.leafNames_ne_nil part.1 (List.of_mem_zip hpart).1)
  exact hall leaf hleaf

/-- A value verifies if it is split into the same values. -/
theorem verifies_iff {value : Value} :
    (wrap profile d position).verifies profile value = true ↔
      value.any Word.isVariable = false ∧ Split.values? profile row value = some values := by
  have hsame {values' : List Value} (hvalues : Split.values? profile row value = some values') :
      spread (row.components.zip values') = spread (row.components.zip values) ↔ values' = values :=
    Split.spread_inj h.leafNames_ne_nil
      (Split.length_values? (Registry.mem_of_find? h.described).1 hvalues) h.length_values
  have hagain : (wrap profile { d with value } position).isAnalysed = true ∧
      (wrap profile { d with value } position).longhands = (wrap profile d position).longhands ↔
        Split.longhandsWithin? profile nesting d.name value = some (wrap profile d position).longhands :=
    isAnalysed_longhands_iff h.isShorthand
  rw [Property.verifies_iff (bound_wrap profile d position), toDeclaration_wrap, position_wrap]
  refine hagain.trans ?_
  rw [h.longhandsWithin?_eq, h.longhands]
  split
  · next hvariable => simp [hvariable]
  · next hstatic =>
      rw [Bool.not_eq_true] at hstatic
      cases hvalues : Split.values? profile row value with
      | none => simp
      | some values' => simp [hstatic, hsame hvalues]

/-- What a line is put together to: a keyword that all the components share, or what has to be said of it. -/
theorem of_restore? {value : Value} (hvalue : (wrap profile d position).restore? = some value) :
    ((value.length == 1 && value.all Word.isGlobal) = true ∧ ∀ v ∈ values, v = value) ∨
      (∀ v ∈ values, v.any Word.isGlobal = false) ∧
        value = let tokens := (row.components.zip values).flatMap fun part => Restore.unlessInitial part.1 part.2
          if tokens.isEmpty then row.shortestValue else tokens := by
  obtain ⟨row', kind, hrow', hkind, -, hshared⟩ := restore?_eq_some.mp hvalue
  rw [descriptor?, toDeclaration_wrap, h.described, Option.some.injEq] at hrow'
  subst hrow'
  cases h.line.restore.symm.trans hkind
  rcases hshared with hshared | ⟨-, hplain, hrestored⟩
  · obtain ⟨-, hone, hall⟩ := sharedGlobal?_eq_some.mp hshared
    exact .inl ⟨hone, h.forall_leaves.mp hall⟩
  · have hplain : ∀ v ∈ values, v.any Word.isGlobal = false :=
      h.forall_leaves.mp fun leaf hleaf => by simpa using List.any_eq_false.mp hplain leaf hleaf
    have hanalysed : ∀ c ∈ (wrap profile d position).components, c.isAnalysed = true →
        c.restore? = some c.value ∧ c.value.length = 1 := by
      intro c hc hanalysed
      obtain ⟨⟨name, found⟩, hpart, hwithin⟩ := exists_of_mem_mapM h.components hc
      obtain ⟨hname, hfound⟩ := List.of_mem_zip hpart
      obtain ⟨token, rfl, hseparator, -⟩ := Split.single_of_values? h.line h.split found hfound
      have hglobal : Word.isGlobal token = false := by simpa using hplain _ hfound
      obtain ⟨-, hcvalue⟩ := Prod.mk.inj (eq_of_componentWithin? hwithin)
      rw [hcvalue]
      have heven := List.all_eq_true.mp h.even name hname
      exact ⟨restore?_componentWithin? hwithin heven hseparator hglobal hanalysed, rfl⟩
    have hdescribed : ∀ c ∈ (wrap profile d position).components, c.descriptor? ≠ none := by
      intro c hc
      obtain ⟨part, hpart, hwithin⟩ := exists_of_mem_mapM h.components hc
      obtain ⟨row', hrow'⟩ := Registry.exists_find?_of_mem_components (Registry.mem_of_find? h.described).1
        (List.of_mem_zip hpart).1
      have hname : c.name = part.1 := congrArg Prod.fst (eq_of_componentWithin? hwithin)
      rw [descriptor?, hname, hrow']
      exact Option.some_ne_none row'
    rw [restoreAs?, withoutDefaults?_eq hanalysed hdescribed, h.map_components, Option.map_some, Option.some.injEq]
      at hrestored
    exact .inr ⟨hplain, hrestored.symm⟩

/-- The line that is read, whose tokens are values of the components. -/
theorem exists_read? : ∃ line, Line.read? profile d.value = some line ∧
    (∀ t ∈ line.tokens, [t] ∈ values ∧ isSeparator t = false) ∧
      ((∀ v ∈ values, v.any Word.isGlobal = false) → values = line.values row.components) := by
  have hsplit := h.split
  rw [Split.values?_eq h.line.split] at hsplit
  split at hsplit
  · next hglobal =>
      cases hsplit
      obtain ⟨token, hvalue, hglobal⟩ := Split.isLoneGlobal_iff.mp hglobal
      have hmem : d.value ∈ row.components.map fun _ => d.value := by simpa using h.line.components_ne_nil
      refine ⟨{ color := some token }, ?_, ?_, fun hplain => ?_⟩
      · rw [hvalue]
        refine Line.read?_singleton (Bool.eq_false_iff.mpr fun hwidth => ?_) (Bool.eq_false_iff.mpr fun hstyle => ?_)
        · simp [Word.isGlobal_of_isBorderWidth hwidth] at hglobal
        · simp [Word.isGlobal_of_isBorderStyle hstyle] at hglobal
      · simpa [Line.tokens, hvalue] using ⟨h.line.components_ne_nil, Split.isSeparator_of_isGlobal hglobal⟩
      · have hnone := hplain d.value hmem
        simp [hvalue, hglobal] at hnone
  · obtain ⟨line, hread, rfl, hseparator⟩ := Split.exists_of_line? hsplit
    refine ⟨line, hread, fun t ht => ⟨?_, hseparator t ((Line.perm_tokens_of_read? hread).mem_iff.mp ht)⟩, fun _ => rfl⟩
    exact Split.mem_values_of_mem_tokens h.line (Line.closed_of_read? hread).others ht

/-- A line that has all its initial values. -/
theorem flatMap_eq_nil_iff :
    ((row.components.zip values).flatMap fun part => Restore.unlessInitial part.1 part.2) = [] ↔
      ¬∃ c ∈ (wrap profile d position).components, c.value ≠ Split.initialOf c.name := by
  rw [← h.map_components, List.flatMap_eq_nil_iff, List.forall_mem_map]
  simp only [not_exists, not_and, not_not]
  refine forall₂_congr fun c hc => ?_
  have hmem : (c.name, c.value) ∈ row.components.zip values :=
    h.map_components ▸ List.mem_map_of_mem (f := fun c : Property => (c.name, c.value)) hc
  obtain ⟨token, hvalue, -⟩ := Split.single_of_values? h.line h.split c.value (List.of_mem_zip hmem).2
  rw [Restore.unlessInitial, hvalue]
  split
  · next hinitial => simp [hinitial]
  · next hinitial => simp [hinitial]

/-- A keyword that all the components share. -/
theorem verifies_of_shared {value : Value} (hone : (value.length == 1 && value.all Word.isGlobal) = true)
    (hshared : ∀ v ∈ values, v = value) : (wrap profile d position).verifies profile value = true := by
  have hvalues : (row.components.map fun _ => value) = values := by
    rw [List.map_const', eq_comm, List.eq_replicate_iff]
    exact ⟨h.length_values, hshared⟩
  refine h.verifies_iff.mpr ⟨?_, ?_⟩
  · rw [Bool.and_eq_true, List.all_eq_true] at hone
    exact List.any_eq_false.mpr fun t ht => by simp [isVariable_of_isGlobal (hone.2 t ht)]
  · rw [Split.values?_eq h.line.split, if_pos hone, hvalues]

/-- Such a keyword is neither a width nor a style, and no initial value. -/
theorem retakes_of_shared {line : Line} {value : Value} (htokens : ∀ t ∈ line.tokens, [t] ∈ values)
    (hone : (value.length == 1 && value.all Word.isGlobal) = true) (hshared : ∀ v ∈ values, v = value)
    (colorFirst : Prop) :
    line.Retakes profile colorFirst ∧
      ∃ c ∈ (wrap profile d position).components, c.value ≠ Split.initialOf c.name := by
  obtain ⟨token, rfl, hglobal⟩ := Split.isLoneGlobal_iff.mp hone
  have hcolor : ∀ color ∈ line.color, color = token := fun color hcolor =>
    List.singleton_injective (hshared _ (htokens color (Line.mem_tokens.mpr (.inr (.inr (.inl hcolor))))))
  refine ⟨⟨fun color hmem hwidth => ?_, fun color hmem hstyle => ?_⟩, ?_⟩
  · have hnot := Word.isGlobal_of_isBorderWidth hwidth
    rw [hcolor color hmem, hglobal] at hnot
    cases hnot
  · have hnot := Word.isGlobal_of_isBorderStyle hstyle
    rw [hcolor color hmem, hglobal] at hnot
    cases hnot
  · obtain ⟨c, hc⟩ := List.exists_mem_of_ne_nil _ h.components_ne_nil
    have hmem := List.mem_map_of_mem (f := fun c : Property => (c.name, c.value)) hc
    rw [h.map_components] at hmem
    refine ⟨c, hc, fun hinitial => ?_⟩
    obtain ⟨word, hword, hname⟩ := h.line.exists_initial (List.of_mem_zip hmem).1
    have hplain : ∀ word ∈ Registry.lineInitials, Word.isGlobal word = false := by decide
    rw [hname, hshared _ (List.of_mem_zip hmem).2, List.singleton_inj] at hinitial
    rw [hinitial, hplain word hword] at hglobal
    cases hglobal

/-- What has to be said of a line in which no keyword stands that every property takes. -/
theorem verifies_iff_of_plain {line : Line} {value : Value} (hread : Line.read? profile d.value = some line)
    (htokens : ∀ t ∈ line.tokens, Word.isGlobal t = false ∧ isSeparator t = false)
    (hvalues : values = line.values row.components)
    (hvalue : value = let tokens := (row.components.zip values).flatMap fun part => Restore.unlessInitial part.1 part.2
      if tokens.isEmpty then row.shortestValue else tokens) :
    (wrap profile d position).verifies profile value = true ↔
      line.Retakes profile (row.name = "outline") ∧
        (row.name = "outline" → ∃ c ∈ (wrap profile d position).components, c.value ≠ Split.initialOf c.name) := by
  obtain ⟨initial, hinitial, hwidth, hstyle⟩ := Split.exists_initial profile h.line
  have hclosed := Line.closed_of_read? hread
  have hsaid : ((row.components.zip values).flatMap fun part => Restore.unlessInitial part.1 part.2)
      = (line.needed initial).said (row.name == "outline") :=
    hvalues ▸ Split.flatMap_unlessInitial h.line hinitial
  have hretakes := Line.agrees_said_iff hclosed ⟨hwidth, hstyle⟩ (row.name == "outline")
  rw [beq_iff_eq] at hretakes
  have hnil := h.flatMap_eq_nil_iff
  rw [hsaid] at hvalue hnil
  rw [h.verifies_iff, hvalues]
  by_cases hempty : (line.needed initial).said (row.name == "outline") = []
  · have hstatic : row.shortestValue.any Word.isVariable = false := by
      rcases h.line.order with ⟨-, -, hshortest, -⟩ | ⟨-, -, hshortest, -⟩ <;> rw [hshortest] <;> decide
    have hagrees : Line.Agrees initial line {} :=
      (Line.agrees_needed _ _).mp (by rw [Split.needed_of_said hempty]; exact ⟨rfl, rfl, rfl⟩)
    have htaken := hretakes.mp ⟨{}, by rw [hempty]; rfl, hagrees⟩
    simp only [hempty, List.isEmpty_nil, if_true] at hvalue
    rw [hvalue, Split.values?_shortest_iff h.line hinitial hempty]
    simp only [hstatic, htaken, hnil.mp hempty, true_and, imp_false, ne_eq]
  · simp only [List.isEmpty_iff, hempty, if_false] at hvalue
    have hmem : ∀ t ∈ value, t ∈ line.tokens := fun t ht => Split.mem_tokens_of_said (hvalue ▸ ht)
    have hstatic : value.any Word.isVariable = false := by
      refine List.any_eq_false.mpr fun t ht => ?_
      exact List.any_eq_false.mp h.static t ((Line.perm_tokens_of_read? hread).mem_iff.mp (hmem t ht))
    have hexists := not_not.mp (mt hnil.mpr hempty)
    rw [Split.values?_eq_some_iff h.line hinitial (hvalue ▸ Split.length_said _ _) fun t ht => htokens t (hmem t ht),
      hvalue, hretakes]
    rw [hvalue] at hstatic
    simp only [hstatic, hexists, true_and, implies_true, and_true]

/-- A shorthand that cannot be split is no longhand of a line. -/
theorem longhands_eq_iff {value : Value} :
    (wrap profile { d with value } position).longhands = (wrap profile d position).longhands ↔
      (wrap profile d position).verifies profile value = true := by
  rw [Property.verifies_iff (bound_wrap profile d position), toDeclaration_wrap, position_wrap]
  refine ⟨fun hsame => ⟨?_, hsame⟩, And.right⟩
  have hleaves : ∀ row ∈ Registry.builtin.descriptors, row.split = some .border → row.name ∉ row.leaves := by
    decide +kernel
  have hrow := (Registry.mem_of_find? h.described).1
  cases hagain : Split.longhandsWithin? profile nesting d.name value with
  | some longhands => exact ((isAnalysed_longhands_iff (d := { d with value }) h.isShorthand).mpr hagain).1
  | none =>
      have hwhole : (wrap profile { d with value } position).longhands = [(d.name, value)] := by
        rw [(longhands_wrap profile { d with value } position).1, if_pos h.isShorthand, hagain]
        rfl
      have hself : (d.name, value) ∈ spread (row.components.zip values) := by
        rw [← h.longhands, ← hsame, hwhole]
        exact List.mem_cons_self
      obtain ⟨part, hpart, hmem⟩ := List.mem_flatMap.mp hself
      obtain ⟨leaf, hleaf, heq⟩ := List.mem_map.mp hmem
      refine absurd ?_ (hleaves row hrow h.line.split)
      rw [Registry.leaves_eq_flatMap hrow h.line.components_ne_nil, h.name_eq, ← (Prod.mk.inj heq).1]
      exact List.mem_flatMap.mpr ⟨part.1, (List.of_mem_zip hpart).1, hleaf⟩

end LineInto

/-- A line that is put together survives if its color is taken for the color again, and if it is no outline with
nothing but initial values, whose shortest value has another width. -/
theorem verifies_restore?_iff {value : Value} (hname : d.name ∈ Registry.lines.map Prod.fst)
    (h : (wrap profile d position).isAnalysed = true) (hvalue : (wrap profile d position).restore? = some value) :
    ∃ line, Line.read? profile d.value = some line ∧
      ((wrap profile d position).verifies profile value = true ↔
        line.Retakes profile (d.name = "outline") ∧
          (d.name = "outline" → ∃ c ∈ (wrap profile d position).components, c.value ≠ Split.initialOf c.name)) ∧
      ((wrap profile { d with value } position).longhands = (wrap profile d position).longhands ↔
        (wrap profile d position).verifies profile value = true) := by
  obtain ⟨row, names, values, hinto⟩ := exists_lineInto hname h
  obtain ⟨line, hread, htokens, hvalues⟩ := hinto.exists_read?
  refine ⟨line, hread, ?_, hinto.longhands_eq_iff⟩
  rcases hinto.of_restore? hvalue with ⟨hone, hshared⟩ | ⟨hplain, hsaid⟩
  · have hretakes := hinto.retakes_of_shared (fun t ht => (htokens t ht).1) hone hshared (d.name = "outline")
    exact iff_of_true (hinto.verifies_of_shared hone hshared) (hretakes.imp_right fun hexists _ => hexists)
  · have hglobal : ∀ t ∈ line.tokens, Word.isGlobal t = false ∧ isSeparator t = false := fun t ht =>
      ⟨by simpa using hplain _ (htokens t ht).1, (htokens t ht).2⟩
    rw [← hinto.name_eq]
    exact hinto.verifies_iff_of_plain hread hglobal (hvalues hplain) hsaid

/-- Two widths in front of an edge: the first one is said, so the second one is taken for the color again. -/
theorem verifies_restore?_iff_widths :
    let d : Declaration := { name := "border-top", value := ["1px", "2px"] }
    (wrap Profile.modern d 0).restore? = some ["1px", "2px"] ∧
      (wrap Profile.modern d 0).verifies Profile.modern ["1px", "2px"] = true := by
  intro d
  have hwrap : (wrap Profile.modern d 0).isAnalysed = true ∧
      (wrap Profile.modern d 0).restore? = some ["1px", "2px"] := by
    decide +kernel
  obtain ⟨hanalysed, hrestore⟩ := hwrap
  obtain ⟨line, hread, hiff, -⟩ := verifies_restore?_iff (by decide) hanalysed hrestore
  have hline : Line.read? Profile.modern d.value = some { width := some "1px", color := some "2px" } := rfl
  cases hread.symm.trans hline
  refine ⟨hrestore, hiff.mpr ⟨⟨?_, ?_⟩, by decide⟩⟩
  · exact fun _ _ _ => ⟨"1px", rfl, by decide, fun h => absurd h (by decide)⟩
  · intro color hcolor hstyle
    cases hcolor
    revert hstyle
    decide

/-- A width that is taken for the color, where a width that goes without saying stands in front of it; and an outline
that has its initial values. -/
theorem restore?_wrap_lines_lost :
    let border : Declaration := { name := "border", value := ["medium", "1px"] }
    let outline : Declaration := { name := "outline", value := ["medium"] }
    ((wrap Profile.modern border 0).isAnalysed = true ∧ (wrap Profile.modern border 0).restore? = some ["1px"] ∧
        (wrap Profile.modern border 0).verifies Profile.modern ["1px"] = false) ∧
      (wrap Profile.modern outline 0).isAnalysed = true ∧ (wrap Profile.modern outline 0).restore? = some ["0"] ∧
        (wrap Profile.modern outline 0).verifies Profile.modern ["0"] = false := by
  decide +kernel

end Property

end CssMinify
