import CssMinify.Proofs.Effect.Folding
import CssMinify.Property.Merging

/-!
The shorthand that longhands are merged into. It gives to every longhand what the part has that sets it,
but for what has to inherit on its own: that is repeated after the shorthand, and what the shorthand gives
to it does not matter.
-/

namespace CssMinify

namespace Split

/-- A keyword for every property goes to all the longhands. -/
theorem longhandsWithin?_global (profile : Profile) {token : String} (hglobal : Word.isGlobal token = true)
    (hvariable : Word.isVariable token = false) {depth : Nat} {name : String}
    (h : Registry.splitsWithin depth name = true) :
    ∃ longhands, longhandsWithin? profile depth name [token] = some longhands ∧
      ∀ l ∈ longhands, l.2 = [token] := by
  induction depth generalizing name with
  | zero => cases h
  | succ depth ih =>
      simp only [Registry.splitsWithin, Option.any_eq_true] at h
      obtain ⟨d, hd, hsplits⟩ := h
      simp only [Bool.and_eq_true, List.all_eq_true, Bool.or_eq_true, Bool.not_eq_true'] at hsplits
      obtain ⟨kind, hkind⟩ := Option.isSome_iff_exists.mp hsplits.1
      have hvalues : values? profile d [token] = some (d.components.map fun _ => [token]) := by
        simp [values?, hkind, hglobal]
      have hone : ∀ part ∈ d.components.zip (d.components.map fun _ => [token]), ∃ longhands,
          (if Registry.builtin.isShorthand part.1 then longhandsWithin? profile depth part.1 part.2
            else some [(part.1, part.2)]) = some longhands ∧ ∀ l ∈ longhands, l.2 = [token] := by
        intro part hpart
        obtain ⟨hname, hvalue⟩ := List.of_mem_zip hpart
        have hvalue : part.2 = [token] := by
          obtain ⟨_, -, heq⟩ := List.mem_map.mp hvalue
          exact heq.symm
        rw [hvalue]
        split
        · next hshort => exact ih ((hsplits.2 part.1 hname).resolve_left (by simp [hshort]))
        · exact ⟨_, rfl, by simp⟩
      obtain ⟨parts, hparts, hall⟩ := exists_mapM hone
      refine ⟨parts.flatten, ?_, fun l hl => ?_⟩
      · rw [longhandsWithin?, hd]
        simp only [Option.bind_eq_bind, Option.bind_some, List.any_cons, List.any_nil, hvariable,
          Bool.or_false, Bool.false_eq_true, if_false, hvalues]
        rw [hparts]
        rfl
      · obtain ⟨part, hpart, hl⟩ := List.mem_flatten.mp hl
        exact hall part hpart l hl

end Split

/-- A shorthand with a keyword for every property gives it to all its longhands. -/
theorem Declaration.setting?_of_global {profile : Profile} {d : Declaration} {token longhand : String}
    (hshort : Registry.builtin.isShorthand d.name = true) (hvalue : d.value = [token])
    (hglobal : Word.isGlobal token = true) (hvariable : Word.isVariable token = false)
    (hmem : longhand ∈ (Property.wrap profile d 0).leafNames) :
    d.setting? profile longhand = some (.own [token]) := by
  obtain ⟨row, hrow, hne⟩ := Property.isShorthand_iff.mp
    ((Property.isShorthand_wrap profile d 0).trans hshort)
  rw [Property.descriptor?, Property.toDeclaration_wrap] at hrow
  obtain ⟨hmem', hname⟩ := Registry.mem_of_find? hrow
  obtain ⟨longhands, hlonghands, hall⟩ := Split.longhandsWithin?_global profile hglobal hvariable
    (hname ▸ Registry.splitsWithin_nesting hmem' hne)
  have hwrap := Property.longhands_wrap profile d 0
  rw [hshort, hvalue, hlonghands] at hwrap
  have hsome := (Property.isSome_setting? Property.regular_wrap longhand).mpr hmem
  rw [setting?]
  rw [Property.setting?, hwrap.2, Bool.true_and, Option.isNone_some, if_neg (by simp), hwrap.1, if_pos rfl,
    Option.getD_some] at hsome ⊢
  rw [Option.isSome_map] at hsome
  obtain ⟨value, hlookup⟩ := Option.isSome_iff_exists.mp hsome
  obtain ⟨before, after, rfl, -⟩ := List.lookup_eq_some_iff.mp hlookup
  have hvalue' : value = [token] := hall (longhand, value) (by simp)
  rw [hlookup, hvalue', Option.map_some]

namespace Property

/-- A property that gives to its longhands what its declaration gives, unless they are free. In which case
its `inherit` is written does not matter. -/
structure Steady (profile : Profile) (p : Property) : Prop where
  regular : p.isOpaque = false → p.Regular
  settings : p.isOpaque = false → ∀ leaf ∈ p.leaves, leaf.free = false →
    (p.toDeclaration.setting? profile leaf.name).map Setting.settled
      = some (Setting.own leaf.value).settled

theorem Faithful.steady {profile : Profile} {p : Property} (h : Faithful profile p) : Steady profile p where
  regular := h.regular
  settings := by
    intro hknown leaf hleaf _
    rw [h.settings, setting?_of_mem_leaves (h.regular hknown) hknown hleaf, Option.map_some]

theorem steady_of_verifies {profile : Profile} {p q : Property} {value : Value}
    (h : p.verifies profile value = true) (hregular : p.Regular) (hne : p.components ≠ [])
    (hdeclaration : q.toDeclaration = { p.toDeclaration with value })
    (hcomponents : q.components = p.components) : Steady profile q where
  regular := fun _ => regular_congr (by rw [hdeclaration]) hcomponents.symm hregular
  settings := by
    intro _ leaf hleaf hfree
    rw [← leaves_congr hcomponents.symm hne] at hleaf
    rw [hdeclaration, setting?_of_verifies h hleaf hfree, Option.map_some]

/-- What is put together of parts: a shorthand, and after it parts that are set again. -/
structure Assembled (profile : Profile) (d : Descriptor) (parts : List Property) (important : Bool)
    (s : Property) (extras : List Property) : Prop where
  name : s.name = d.name
  important : s.important = important
  hack : s.hack = .none
  live : s.unused = false
  components : s.components ≠ []
  steady : Steady profile s
  repeated : ∀ x ∈ extras, ∃ p ∈ parts, ∃ position, x = { p with position }
  covered : ∀ leaf ∈ s.leaves, (∃ p ∈ parts, leaf ∈ p.leaves) ∨ ∃ x ∈ extras, leaf.name ∈ x.leafNames

section Assemble

variable {profile : Profile} {d : Descriptor} {parts merged : List Property} {important : Bool}
  {position : Nat}

theorem firstSmallest?_mem {candidates : List (List Property)} {best : List Property}
    (h : firstSmallest? candidates = some best) : best ∈ candidates := by
  induction candidates generalizing best with
  | nil => cases h
  | cons a rest ih =>
      rw [firstSmallest?] at h
      split at h
      · next b hb =>
          split at h <;> cases h
          · exact List.mem_cons_of_mem a (ih hb)
          · exact List.mem_cons_self
      · cases h
        exact List.mem_cons_self

theorem finish?_eq {inheriting : List Property} {s : Property} (h : finish? profile inheriting s = some merged) :
    ∃ value, s.verifies profile value = true ∧
      merged = { s with value } :: inheriting.map fun p => { p with position := s.position } := by
  simp only [finish?, Option.bind_eq_bind, Option.bind_eq_some_iff] at h
  obtain ⟨value, -, h⟩ := h
  split at h
  · next hverifies =>
      cases h
      exact ⟨value, hverifies, rfl⟩
  · cases h

theorem withInitial?_regular {s p c : Property} (h : withInitial? profile s p = some c) :
    c.name = p.name ∧ c.Regular := by
  simp only [withInitial?, Option.bind_eq_bind, Option.bind_eq_some_iff] at h
  obtain ⟨row, -, h⟩ := h
  have hwithin : componentWithin? profile nesting s (p.name, row.initialValue) = some c := h
  have hc := componentWithin?_regular componentsWithin?_isSplit hwithin
  exact ⟨hc.1, hc.2.1⟩

/-- A shorthand with a value for its components, all of which are parts or stand for parts that are set
again after it. -/
theorem assembled_of_finish? {inheriting : List Property} {s : Property}
    (h : finish? profile inheriting s = some merged) (hd : Registry.builtin.find? d.name = some d)
    (hne : d.components ≠ []) (hname : s.name = d.name) (himportant : s.important = important)
    (hhack : s.hack = .none) (hlive : s.unused = false) (hnames : s.components.map (·.name) = d.components)
    (hregular : ∀ c ∈ s.components, c.Regular) (hinheriting : ∀ p ∈ inheriting, p ∈ parts)
    (hcovered : ∀ c ∈ s.components, c ∈ parts ∨ ∃ p ∈ inheriting, c.name = p.name) :
    ∃ s' extras, merged = s' :: extras ∧ Assembled profile d parts important s' extras := by
  obtain ⟨value, hverifies, rfl⟩ := finish?_eq h
  have hcomponents : s.components ≠ [] := by
    intro hnil
    rw [hnil] at hnames
    exact hne hnames.symm
  have hs : s.Regular :=
    regular_of_components (by rw [descriptor?, hname, hd]) hcomponents hnames hregular
  refine ⟨_, _, rfl, hname, himportant, hhack, hlive, hcomponents,
    steady_of_verifies hverifies hs hcomponents rfl rfl, fun x hx => ?_, fun leaf hleaf => ?_⟩
  · obtain ⟨p, hp, rfl⟩ := List.mem_map.mp hx
    exact ⟨p, hinheriting p hp, _, rfl⟩
  · rw [leaves_of_components_ne_nil (p := { s with value }) hcomponents] at hleaf
    obtain ⟨c, hc, hleaf⟩ := List.mem_flatMap.mp hleaf
    rcases hcovered c hc with hpart | ⟨p, hp, hcp⟩
    · exact .inl ⟨c, hpart, hleaf⟩
    · refine .inr ⟨_, List.mem_map_of_mem hp, ?_⟩
      have hmem := (mem_leafNames_iff (hregular c hc)).mpr ⟨leaf, hleaf, rfl⟩
      rw [leafNames_congr hcp] at hmem
      exact hmem

theorem settled_of_isInherit {p : Property} (h : p.isInherit = true) : p.value.settled = ["inherit"] := by
  rw [isInherit] at h
  split at h
  · next token htoken =>
      rw [htoken]
      exact if_pos h
  · cases h

/-- A shorthand that inherits as a whole gives `inherit` to all its longhands. -/
theorem assembled_of_inheritsAll (hd : Registry.builtin.find? d.name = some d) (hne : d.components ≠ [])
    (hnames : parts.map (·.name) = d.components) (hparts : ∀ p ∈ parts, p.Regular)
    (hinherits : ∀ p ∈ parts, p.inheritsAll = true) :
    Assembled profile d parts important
      { name := d.name, value := ["inherit"], important, components := parts, rebuilt := true, position }
      [] := by
  have hcomponents : parts ≠ [] := by
    rintro rfl
    exact hne hnames.symm
  let s : Property :=
    { name := d.name, value := ["inherit"], important, components := parts, rebuilt := true, position }
  have hs : s.Regular := regular_of_components (p := s) hd hcomponents hnames hparts
  have hleaves (leaf : Property) (hleaf : leaf ∈ s.leaves) : ∃ p ∈ parts, leaf ∈ p.leaves := by
    rw [leaves_of_components_ne_nil (p := s) hcomponents] at hleaf
    exact List.mem_flatMap.mp hleaf
  refine ⟨rfl, rfl, rfl, rfl, hcomponents, ⟨fun _ => hs, fun _ leaf hleaf _ => ?_⟩, by simp,
    fun leaf hleaf => .inl (hleaves leaf hleaf)⟩
  obtain ⟨p, hp, hleaf'⟩ := hleaves leaf hleaf
  have hinherit : leaf.isInherit = true := List.all_eq_true.mp (hinherits p hp) leaf hleaf'
  have hmem : leaf.name ∈ (wrap profile s.toDeclaration 0).leafNames := by
    rw [leafNames_congr (q := s) (by rw [toDeclaration_wrap])]
    exact (mem_leafNames_iff hs).mpr ⟨leaf, hleaf, rfl⟩
  have hshort : Registry.builtin.isShorthand s.name = true := isShorthand_iff.mpr ⟨d, hd, hne⟩
  have hglobal : Word.isGlobal "inherit" = true := by decide
  have hset := Declaration.setting?_of_global hshort rfl hglobal (by decide) hmem
  rw [hset, Option.map_some, Setting.settled, Setting.settled, settled_of_isInherit hinherit]
  rfl

/-- A component that is a part, or takes the place of one that inherits. -/
structure StandsFor (p c : Property) : Prop where
  name : c.name = p.name
  regular : c.Regular
  kept : c = p ∨ p.inheritsAll = true

/-- What the shorthand gives to parts that inherit may be left open. -/
theorem forall₂_freed {cs : List Property} (h : List.Forall₂ StandsFor parts cs) :
    List.Forall₂ StandsFor parts
      ((cs.zip parts).map fun (c, p) => if p.inheritsAll then { c with free := true } else c) := by
  induction h with
  | nil => exact .nil
  | @cons p c parts cs hpc _ ih =>
      refine .cons ?_ ih
      change StandsFor p (if p.inheritsAll then { c with free := true } else c)
      split
      · next hinherits => exact ⟨hpc.name, regular_congr (p := c) rfl rfl hpc.regular, .inr hinherits⟩
      · exact hpc

theorem map_name_of_forall₂ {cs : List Property} (h : List.Forall₂ StandsFor parts cs) :
    cs.map (·.name) = parts.map (·.name) := by
  induction h with
  | nil => rfl
  | cons hpc _ ih => rw [List.map_cons, List.map_cons, hpc.name, ih]

theorem assembled_of_assemble? (h : assemble? profile d parts important position = some merged)
    (hd : Registry.builtin.find? d.name = some d) (hne : d.components ≠ [])
    (hnames : parts.map (·.name) = d.components) (hparts : ∀ p ∈ parts, p.Regular) :
    ∃ s extras, merged = s :: extras ∧ Assembled profile d parts important s extras := by
  -- Components that are parts, or take the place of parts that inherit, make a shorthand.
  have hfinish (cs : List Property) (hcs : List.Forall₂ StandsFor parts cs)
      (h : finish? profile (parts.filter inheritsAll)
        { name := d.name, value := [], important, components := cs, rebuilt := true, position }
        = some merged) :
      ∃ s extras, merged = s :: extras ∧ Assembled profile d parts important s extras := by
    refine assembled_of_finish? h hd hne rfl rfl rfl rfl ?_ ?_ (fun p hp => (List.mem_filter.mp hp).1) ?_
    · rw [map_name_of_forall₂ hcs, hnames]
    · intro c hc
      obtain ⟨p, -, hpc⟩ := exists_of_mem_left hcs.flip hc
      exact hpc.regular
    · intro c hc
      obtain ⟨p, hp, hname, -, rfl | hinherits⟩ := exists_of_mem_left hcs.flip hc
      · exact .inl hp
      · exact .inr ⟨p, List.mem_filter.mpr ⟨hp, hinherits⟩, hname⟩
  simp only [assemble?] at h
  split at h
  · next hall =>
      cases h
      refine ⟨_, _, rfl, assembled_of_inheritsAll hd hne hnames hparts ?_⟩
      exact List.length_filter_eq_length_iff.mp (by simpa using hall)
  split at h
  · next hnone =>
      rw [← List.isEmpty_iff.mp hnone] at h
      refine hfinish parts (List.forall₂_same.mpr fun p hp => ⟨rfl, hparts p hp, .inl rfl⟩) h
  simp only [Option.bind_eq_bind, Option.bind_eq_some_iff] at h
  obtain ⟨cs, hcs, h⟩ := h
  have hforall : List.Forall₂ StandsFor parts cs := by
    refine List.forall₂_iff_zip.mpr ⟨(forall₂_of_mapM hcs).length_eq, fun {p c} hmem => ?_⟩
    have hc := (List.forall₂_iff_zip.mp (forall₂_of_mapM hcs)).2 hmem
    split at hc
    · next hinherits =>
        obtain ⟨hname, hregular⟩ := withInitial?_regular hc
        exact ⟨hname, hregular, .inr hinherits⟩
    · cases hc
      exact ⟨rfl, hparts p (List.of_mem_zip hmem).1, .inl rfl⟩
  have hmem := firstSmallest?_mem h
  rw [List.mem_append, Option.mem_toList, Option.mem_toList] at hmem
  rcases hmem with hmem | hmem
  · exact hfinish cs hforall hmem
  · split at hmem
    · exact hfinish _ (forall₂_freed hforall) hmem
    · cases hmem

end Assemble

end Property

end CssMinify
