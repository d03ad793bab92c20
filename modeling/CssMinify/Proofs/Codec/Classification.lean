import CssMinify.Proofs.Codec.Line

/-!
Splitting classifies the whole value. Where a background, a list style, a border or an outline can be split, every
token that is no separator is found in a component, beside the layer that it stands in; and a component has nothing
beside a layer but tokens of that layer and its own initial value.
-/

namespace CssMinify

/-- The shorthands whose tokens are classified one by one. -/
def Registry.classified : List String := "background" :: "list-style" :: lines.map Prod.fst

namespace Split

/-- What a component has beside each of so many layers. One that only the last layer has, has nothing beside the
others. -/
def layersBeside (count : Nat) (part : String × Value) : List Value :=
  if (Registry.builtin.find? part.1).any (·.lastLayerOnly) then List.replicate (count - 1) [] ++ [part.2]
  else part.2.layers

/-- The components have the tokens of a value, each of them beside the layer in which it stands. -/
structure Classifies (value : Value) (parts : List (String × Value)) : Prop where
  drawn : ∀ part ∈ parts, List.Forall₂
    (fun layer found => ∀ token ∈ found, token ∈ layer ∨ token ∈ initialOf part.1)
    value.layers (layersBeside value.layers.length part)
  kept : ∀ (i : Nat) (layer : Value), value.layers[i]? = some layer → ∀ token ∈ layer, token ≠ "/" →
    ∃ part ∈ parts, ∃ found, (layersBeside value.layers.length part)[i]? = some found ∧ token ∈ found

theorem separator_notMem_initialOf (name : String) : layerSeparator ∉ initialOf name := by
  have hall : ∀ row ∈ Registry.builtin.descriptors, layerSeparator ∉ row.initialValue := by decide +kernel
  rw [initialOf]
  cases hrow : Registry.builtin.find? name with
  | none => exact List.not_mem_nil
  | some row => exact hall row (Registry.mem_of_find? hrow).1

theorem mem_orInitial {name token : String} {found : Value} (h : token ∈ orInitial name found) :
    token ∈ found ∨ token ∈ initialOf name := by
  rw [orInitial] at h
  split at h
  · exact .inr h
  · exact .inl h

theorem mem_orInitial_of_mem {name token : String} {found : Value} (h : token ∈ found) :
    token ∈ orInitial name found := by
  rw [orInitial, if_neg (by simpa using List.ne_nil_of_mem h)]
  exact h

section Unlayered

variable {value : Value} {parts : List (String × Value)}

theorem layers_of_notMem (h : layerSeparator ∉ value) : value.layers = [value] := by
  refine splitWhere_of_forall fun token htoken => ?_
  rw [beq_eq_false_iff_ne]
  rintro rfl
  exact h htoken

/-- Without a separator there is one layer. -/
theorem classifies_of_unlayered (hvalue : layerSeparator ∉ value)
    (hdrawn : ∀ part ∈ parts, ∀ token ∈ part.2, token ∈ value ∨ token ∈ initialOf part.1)
    (hkept : ∀ token ∈ value, ∃ part ∈ parts, token ∈ part.2) : Classifies value parts := by
  have hbeside : ∀ part ∈ parts, layersBeside [value].length part = [part.2] := by
    intro part hpart
    rw [layersBeside]
    split
    · rfl
    · refine layers_of_notMem fun hmem => ?_
      rcases hdrawn part hpart _ hmem with h | h
      · exact hvalue h
      · exact separator_notMem_initialOf part.1 h
  constructor
  · intro part hpart
    rw [layers_of_notMem hvalue, hbeside part hpart]
    exact .cons (hdrawn part hpart) .nil
  · intro i layer hlayer token htoken _
    rw [layers_of_notMem hvalue] at hlayer ⊢
    obtain ⟨rfl, rfl⟩ : i = 0 ∧ value = layer := by simpa [List.getElem?_singleton] using hlayer
    obtain ⟨part, hpart, hmem⟩ := hkept token htoken
    exact ⟨part, hpart, part.2, by rw [hbeside part hpart]; rfl, hmem⟩

/-- A keyword that every property takes. -/
theorem classifies_of_isGlobal {names : List String} (hnames : names ≠ []) {token : String}
    (htoken : Word.isGlobal token = true) : Classifies [token] (names.zip (names.map fun _ => [token])) := by
  have hparts : ∀ part ∈ names.zip (names.map fun _ => [token]), part.2 = [token] := by
    intro part hpart
    obtain ⟨-, -, h⟩ := List.mem_map.mp (List.of_mem_zip hpart).2
    exact h.symm
  have hne : names.zip (names.map fun _ => [token]) ≠ [] := by simpa [List.zip_eq_nil_iff] using hnames
  obtain ⟨part, hpart⟩ := List.exists_mem_of_ne_nil _ hne
  refine classifies_of_unlayered ?_ ?_ ?_
  · rw [List.mem_singleton]
    rintro rfl
    revert htoken
    decide
  · intro part hpart t ht
    exact .inl (hparts part hpart ▸ ht)
  · exact fun t ht => ⟨part, hpart, hparts part hpart ▸ ht⟩

/-- The longhands of components that have the same initial values classify as the components do. -/
theorem Classifies.spread (h : Classifies value parts)
    (hleaves : ∀ part ∈ parts, Registry.builtin.leafNames part.1 ≠ [] ∧
      ∀ leaf ∈ Registry.builtin.leafNames part.1, initialOf leaf = initialOf part.1 ∧
        (Registry.builtin.find? leaf).any (·.lastLayerOnly) = (Registry.builtin.find? part.1).any (·.lastLayerOnly)) :
    Classifies value (spread parts) := by
  have hbeside : ∀ part ∈ parts, ∀ leaf ∈ Registry.builtin.leafNames part.1, ∀ count,
      layersBeside count (leaf, part.2) = layersBeside count part := by
    intro part hpart leaf hleaf count
    rw [layersBeside, layersBeside, ((hleaves part hpart).2 leaf hleaf).2]
  constructor
  · intro found hfound
    obtain ⟨part, hpart, hfound⟩ := List.mem_flatMap.mp hfound
    obtain ⟨leaf, hleaf, rfl⟩ := List.mem_map.mp hfound
    rw [hbeside part hpart leaf hleaf]
    simpa only [((hleaves part hpart).2 leaf hleaf).1] using h.drawn part hpart
  · intro i layer hlayer token htoken hslash
    obtain ⟨part, hpart, found, hfound, hmem⟩ := h.kept i layer hlayer token htoken hslash
    obtain ⟨leaf, hleaf⟩ := List.exists_mem_of_ne_nil _ (hleaves part hpart).1
    refine ⟨(leaf, part.2), ?_, found, by rw [hbeside part hpart leaf hleaf]; exact hfound, hmem⟩
    exact List.mem_flatMap.mpr ⟨part, hpart, List.mem_map_of_mem hleaf⟩

end Unlayered

section Lines

variable {profile : Profile} {row : Descriptor} {names : LineNames} {value : Value} {values : List Value}

/-- What a line says of a component is one of its tokens, and every token is said of some component. -/
theorem classifies_line (hline : row.IsLine names) (h : line? profile row.components value = some values) :
    Classifies value (row.components.zip values) := by
  obtain ⟨line, hread, rfl, hseparator⟩ := exists_of_line? h
  have hperm := Line.perm_tokens_of_read? hread
  have hzip : row.components.zip (line.values row.components)
      = row.components.map fun name => (name, orInitial name (line.part name)) := by
    simpa [Line.values] using
      List.zip_map' (f := id) (g := fun name => orInitial name (line.part name)) (l := row.components)
  have hnames := hline.mem_components
  rw [hzip]
  refine classifies_of_unlayered ?_ ?_ ?_
  · exact fun hmem => absurd (hseparator layerSeparator hmem) (by decide)
  · intro part hpart token htoken
    obtain ⟨name, -, rfl⟩ := List.mem_map.mp hpart
    refine (mem_orInitial htoken).imp_left fun hmem => hperm.mem_iff.mp (Line.mem_tokens.mpr ?_)
    rw [Line.part] at hmem
    split_ifs at hmem
    · exact .inl (by simpa using hmem)
    · exact .inr (.inl (by simpa using hmem))
    · exact .inr (.inr (.inl (by simpa using hmem)))
  · intro token htoken
    have hpart {name : String} (hname : name ∈ row.components) (hmem : token ∈ line.part name) :
        ∃ part ∈ row.components.map fun name => (name, orInitial name (line.part name)), token ∈ part.2 :=
      ⟨_, List.mem_map_of_mem hname, mem_orInitial_of_mem hmem⟩
    rcases Line.mem_tokens.mp (hperm.mem_iff.mpr htoken) with hmem | hmem | hmem | hmem
    · exact hpart hnames.1 (by simp [Line.part, hline.width, hmem])
    · exact hpart hnames.2.1 (by simp [Line.part, hline.style, hmem])
    · exact hpart hnames.2.2 (by simp [Line.part, hline.color, hmem])
    · simp [(Line.closed_of_read? hread).others] at hmem

end Lines

section Markers

namespace ListStyle

variable {style found : ListStyle} {token t : String}

theorem mem_tokens : t ∈ style.tokens ↔ style.marker = some t ∨ style.position = some t ∨ style.image = some t := by
  simp only [tokens, List.mem_append, Option.mem_toList]

theorem mem_tokens_of_add? (h : style.add? token = some found) (ht : t ∈ style.tokens ∨ t = token) :
    t ∈ found.tokens := by
  rw [mem_tokens] at ht ⊢
  simp only [add?, Bool.and_eq_true, Option.isNone_iff_eq_none] at h
  split_ifs at h with hposition hmarker himage <;> cases h
  · simp only [hposition.1] at ht
    grind
  · simp only [hmarker.1] at ht
    grind
  · simp only [himage.1] at ht
    grind

/-- Every token of a list style is found. -/
theorem mem_tokens_of_foldlM {tokens : Value} (h : tokens.foldlM add? style = some found)
    (ht : t ∈ style.tokens ∨ t ∈ tokens) : t ∈ found.tokens := by
  induction tokens generalizing style with
  | nil =>
      cases h
      exact ht.resolve_right List.not_mem_nil
  | cons token tokens ih =>
      rw [List.foldlM_cons, Option.bind_eq_bind, Option.bind_eq_some_iff] at h
      obtain ⟨next, hnext, h⟩ := h
      rw [List.mem_cons, ← or_assoc] at ht
      exact ih h (ht.imp_left (mem_tokens_of_add? hnext))

end ListStyle

theorem classifies_listStyle {value : Value} {values : List Value} (h : listStyle? value = some values) :
    Classifies value (listStyleNames.zip values) := by
  obtain ⟨style, hfound, rfl⟩ := exists_foldlM_of_listStyle? h
  obtain ⟨hfits, hmem⟩ := ListStyle.of_foldlM_add? ⟨by simp, by simp, by simp, by simp⟩ hfound
  have hdrawn {t : String} (ht : style.marker = some t ∨ style.position = some t ∨ style.image = some t) : t ∈ value :=
    (hmem t (ListStyle.mem_tokens.mpr ht)).resolve_left (by simp [ListStyle.tokens])
  have hkept {t : String} (ht : t ∈ value) : style.marker = some t ∨ style.position = some t ∨ style.image = some t :=
    ListStyle.mem_tokens.mp (ListStyle.mem_tokens_of_foldlM hfound (.inr ht))
  refine classifies_of_unlayered ?_ ?_ ?_
  · intro hseparator
    rcases hkept hseparator with h | h | h
    · exact absurd (hfits.marker _ h) (by decide)
    · exact absurd (hfits.position _ h) (by decide)
    · exact absurd (hfits.image _ h) (by decide)
  · simp only [listStyleNames, ListStyle.values, List.zip_cons_cons, List.zip_nil_right, List.forall_mem_cons]
    refine ⟨fun t ht => ?_, fun t ht => ?_, fun t ht => ?_, by simp⟩
    · exact (mem_orInitial ht).imp_left fun ht => hdrawn (.inl (Option.mem_toList.mp ht))
    · exact (mem_orInitial ht).imp_left fun ht => hdrawn (.inr (.inl (Option.mem_toList.mp ht)))
    · exact (mem_orInitial ht).imp_left fun ht => hdrawn (.inr (.inr (Option.mem_toList.mp ht)))
  · intro t ht
    simp only [listStyleNames, ListStyle.values, List.zip_cons_cons, List.zip_nil_right, List.exists_mem_cons_iff]
    rcases hkept ht with h | h | h
    · exact .inl (mem_orInitial_of_mem (by simp [h]))
    · exact .inr (.inl (mem_orInitial_of_mem (by simp [h])))
    · exact .inr (.inr (.inl (mem_orInitial_of_mem (by simp [h]))))

end Markers

section Layers

variable {profile : Profile} {l found : Layer} {tokens : Value}

theorem exists_getElem?_of_mapM {α β : Type} {f : α → Option β} {as : List α} {bs : List β}
    (h : as.mapM f = some bs) {i : Nat} {a : α} (ha : as[i]? = some a) : ∃ b, bs[i]? = some b ∧ f a = some b := by
  have hall := forall₂_of_mapM h
  obtain ⟨hi, rfl⟩ := List.getElem?_eq_some_iff.mp ha
  have hi' : i < bs.length := hall.length_eq ▸ hi
  exact ⟨bs[i], List.getElem?_eq_getElem hi', hall.get hi hi'⟩

theorem eq_takeWhile_take_append {α : Type} (p : α → Bool) (xs : List α) (n : Nat) :
    xs = (xs.take n).takeWhile p ++ xs.drop ((xs.take n).takeWhile p).length :=
  have h := List.IsPrefix.trans ( List.takeWhile_prefix p) ( List.take_prefix n xs)
  ( List.prefix_iff_eq_append.mp h).symm

/-- Every token of a layer but the slash is found. -/
theorem mem_tokens_of_layerFrom? (h : layerFrom? profile l tokens = some found) {token : String}
    (htoken : token ∈ l.tokens ∨ token ∈ tokens ∧ token ≠ "/") : token ∈ found.tokens := by
  fun_induction layerFrom? profile l tokens with
  | case1 l =>
      cases h
      exact htoken.resolve_right fun hmem => List.not_mem_nil hmem.1
  | case2 => cases h
  | case3 l slash rest hslash size hsize ih =>
      have hrest : rest = size ++ rest.drop size.length := eq_takeWhile_take_append _ rest 2
      grind [Layer.mem_tokens]
  | case7 l first rest hslash himage hattachment hbox hrepeat more ih =>
      have hrest : rest = more ++ rest.drop more.length := eq_takeWhile_take_append _ rest 1
      grind [Layer.mem_tokens]
  | case8 l first rest hslash himage hattachment hbox hrepeat hposition more ih =>
      have hrest : rest = more ++ rest.drop more.length := eq_takeWhile_take_append _ rest 3
      grind [Layer.mem_tokens]
  | case10 => cases h
  | _ => grind [Layer.mem_tokens]

/-- The components that every layer of a background has, and where they are found in a layer. -/
def layerParts : List (String × (Layer → Value)) :=
  [("background-image", (·.image.toList)), ("background-position", (·.position)), ("background-size", (·.size)),
   ("background-repeat", (·.repeats)), ("background-attachment", (·.attachment.toList)),
   ("background-origin", (·.boxes.head?.toList)), ("background-clip", (·.boxes.getLast?.toList))]

theorem zip_layerValues (layers : List Layer) :
    backgroundNames.zip (layerValues layers)
      = layerParts.map (fun part => (part.1, Value.ofLayers (layers.map fun l => orInitial part.1 (part.2 l))))
        ++ [("background-color", orInitial "background-color" ((layers.getLast?.bind Layer.color).toList))] :=
  rfl

theorem mem_tokens_of_layerParts {part : String × (Layer → Value)} (hpart : part ∈ layerParts) {token : String}
    (h : token ∈ part.2 l) : token ∈ l.tokens := by
  rw [Layer.mem_tokens]
  simp only [layerParts, List.mem_cons, List.not_mem_nil, or_false] at hpart
  rcases hpart with rfl | rfl | rfl | rfl | rfl | rfl | rfl <;> simp only [Option.mem_toList] at h
  · exact .inl h
  · exact .inr (.inl h)
  · exact .inr (.inr (.inr (.inl h)))
  · exact .inr (.inr (.inr (.inr (.inl h))))
  · exact .inr (.inr (.inr (.inr (.inr (.inl h)))))
  · exact .inr (.inr (.inr (.inr (.inr (.inr (.inl (List.mem_of_mem_head? h)))))))
  · exact .inr (.inr (.inr (.inr (.inr (.inr (.inl (List.mem_of_getLast? h)))))))

/-- Every token but the slash stands in a part of the layer or is its color. -/
theorem exists_layerParts (hl : l.Fits profile) {token : String} (h : token ∈ l.tokens) (hslash : token ≠ "/") :
    (∃ part ∈ layerParts, token ∈ part.2 l) ∨ l.color = some token := by
  rw [or_iff_not_imp_right]
  intro hcolor
  simp only [layerParts, List.exists_mem_cons_iff, List.not_mem_nil, false_and, exists_false, or_false,
    Option.mem_toList]
  rcases Layer.mem_tokens.mp h with h | h | ⟨-, h⟩ | h | h | h | h | h
  · exact .inl h
  · exact .inr (.inl h)
  · exact absurd h hslash
  · exact .inr (.inr (.inl h))
  · exact .inr (.inr (.inr (.inl h)))
  · exact .inr (.inr (.inr (.inr (.inl h))))
  · refine .inr (.inr (.inr (.inr (.inr ?_))))
    obtain hboxes | ⟨a, hboxes⟩ | ⟨a, b, hboxes⟩ := Layer.boxes_cases hl.length_boxes <;> rw [hboxes] at h ⊢ <;>
      simp_all [eq_comm]
  · exact absurd h hcolor

/-- The layers of a background and what is found in them, the last one apart. -/
theorem exists_concat_of_background? {value : Value} {values : List Value}
    (h : background? profile value = some values) :
    ∃ groups last layers l, value.layers = groups ++ [last] ∧ groups.length = layers.length ∧
      value.layers.mapM (layerFrom? profile {}) = some (layers ++ [l]) ∧ layerFrom? profile {} last = some l ∧
      (∀ m ∈ layers, m.color = none) ∧ values = layerValues (layers ++ [l]) := by
  obtain ⟨-, found, hfound, hcolor, rfl⟩ := background?_eq_some.mp h
  have hne : value.layers ≠ [] := splitWhere_ne_nil _ _
  have hconcat := List.dropLast_append_getLast hne
  have hsplit := hfound
  rw [← hconcat, List.mapM_append] at hsplit
  simp only [List.mapM_cons, List.mapM_nil, Option.pure_def, Option.bind_eq_bind, Option.bind_some,
    Option.bind_eq_some_iff, Option.some.injEq] at hsplit
  obtain ⟨layers, hlayers, -, ⟨l, hl, rfl⟩, rfl⟩ := hsplit
  rw [List.dropLast_concat] at hcolor
  exact ⟨_, _, layers, l, hconcat.symm, (forall₂_of_mapM hlayers).length_eq, hfound, hl, hcolor, rfl⟩

/-- A component that every layer has. -/
theorem layersBeside_layerParts {layers : List Layer} (hne : layers ≠ []) (hfits : ∀ m ∈ layers, m.Fits profile)
    {part : String × (Layer → Value)} (hpart : part ∈ layerParts) (count : Nat) :
    layersBeside count (part.1, Value.ofLayers (layers.map fun m => orInitial part.1 (part.2 m)))
      = layers.map fun m => orInitial part.1 (part.2 m) := by
  have hevery : ∀ part ∈ layerParts, (Registry.builtin.find? part.1).any (·.lastLayerOnly) = false := by
    simp only [layerParts, List.forall_mem_cons]
    decide
  rw [layersBeside, hevery part hpart, if_neg Bool.false_ne_true]
  refine Value.layers_ofLayers (by simpa using hne) fun found hfound hseparator => ?_
  obtain ⟨m, hm, rfl⟩ := List.mem_map.mp hfound
  rcases mem_orInitial hseparator with hmem | hmem
  · exact (hfits m hm).separator_notMem (mem_tokens_of_layerParts hpart hmem)
  · exact separator_notMem_initialOf part.1 hmem

theorem layersBeside_color (count : Nat) (color : Value) :
    layersBeside count ("background-color", color) = List.replicate (count - 1) [] ++ [color] := by
  have hlast : (Registry.builtin.find? "background-color").any (·.lastLayerOnly) = true := by decide
  exact if_pos hlast

/-- Only the last layer has a color. -/
theorem eq_last_of_color {layers : List Layer} (hcolor : ∀ m ∈ layers, m.color = none) {i : Nat} {m : Layer}
    {token : String} (hm : (layers ++ [l])[i]? = some m) (hfound : m.color = some token) :
    i = layers.length ∧ m = l := by
  have hi : layers.length ≤ i := by
    by_contra hi
    rw [List.getElem?_append_left (Nat.lt_of_not_le hi)] at hm
    rw [hcolor m (List.mem_of_getElem? hm)] at hfound
    cases hfound
  rw [List.getElem?_append_right hi] at hm
  obtain ⟨hzero, hsame⟩ : i - layers.length = 0 ∧ l = m := by simpa [List.getElem?_singleton] using hm
  exact ⟨Nat.le_antisymm (Nat.sub_eq_zero_iff_le.mp hzero) hi, hsame.symm⟩

theorem classifies_background {value : Value} {values : List Value} (h : background? profile value = some values) :
    Classifies value (backgroundNames.zip values) := by
  obtain ⟨groups, last, layers, l, hvalue, hlength, hall, hlast, hcolor, rfl⟩ := exists_concat_of_background? h
  have hfits : ∀ m ∈ layers ++ [l], m.Fits profile := by
    intro m hm
    obtain ⟨group, -, hgroup⟩ := exists_of_mem_mapM hall hm
    exact fits_layerFrom? (Layer.fits_empty profile) hgroup
  have hdrawn {group : Value} {m : Layer} (hgroup : layerFrom? profile {} group = some m) {token : String}
      (htoken : token ∈ m.tokens) : token ∈ group :=
    (mem_of_layerFrom? hgroup htoken).resolve_left (by simp [Layer.tokens])
  have hbeside {part : String × (Layer → Value)} (hpart : part ∈ layerParts) :=
    layersBeside_layerParts (by simp) hfits hpart value.layers.length
  have hcount : value.layers.length - 1 = groups.length := by simp [hvalue]
  rw [zip_layerValues, List.getLast?_concat, Option.bind_some]
  constructor
  · rw [List.forall_mem_append]
    constructor
    · intro found hfound
      obtain ⟨part, hpart, rfl⟩ := List.mem_map.mp hfound
      rw [hbeside hpart, List.forall₂_map_right_iff]
      refine (forall₂_of_mapM hall).imp fun group m hgroup token htoken => ?_
      exact (mem_orInitial htoken).imp_left fun hmem => hdrawn hgroup (mem_tokens_of_layerParts hpart hmem)
    · rw [List.forall_mem_singleton, layersBeside_color, hcount, hvalue]
      refine List.rel_append ?_ (.cons (fun token htoken => ?_) .nil)
      · rw [← List.map_const', List.forall₂_map_right_iff, List.forall₂_same]
        exact fun _ _ token htoken => absurd htoken List.not_mem_nil
      · refine (mem_orInitial htoken).imp_left fun hmem => hdrawn hlast (Layer.mem_tokens.mpr ?_)
        simp [Option.mem_toList.mp hmem]
  · intro i layer hlayer token htoken hslash
    obtain ⟨m, hm, hfrom⟩ := exists_getElem?_of_mapM hall hlayer
    have hmem := mem_tokens_of_layerFrom? hfrom (.inr ⟨htoken, hslash⟩)
    rcases exists_layerParts (hfits m (List.mem_of_getElem? hm)) hmem hslash with ⟨part, hpart, hfound⟩ | hfound
    · refine ⟨_, List.mem_append_left _ (List.mem_map_of_mem hpart), orInitial part.1 (part.2 m), ?_,
        mem_orInitial_of_mem hfound⟩
      rw [hbeside hpart, List.getElem?_map, hm, Option.map_some]
    · obtain ⟨rfl, rfl⟩ := eq_last_of_color hcolor hm hfound
      refine ⟨_, List.mem_append_right _ List.mem_cons_self, orInitial "background-color" m.color.toList, ?_,
        mem_orInitial_of_mem (Option.mem_toList.mpr hfound)⟩
      rw [layersBeside_color, hcount, hlength]
      simp

end Layers

end Split

/-- The rows of the shorthands whose tokens are classified. -/
theorem Registry.exists_of_mem_classified {name : String} (h : name ∈ classified) :
    ∃ row, builtin.find? name = some row ∧ row.components ≠ [] ∧
      (row.split = some .background ∧ row.components = Split.backgroundNames ∨
        row.split = some .listStyle ∧ row.components = Split.listStyleNames ∨
        ∃ names, row.IsLine names ∧ row.components.all isEven = true) := by
  have hlayered : (builtin.find? "background").any
      (fun row => row.split = some .background ∧ row.components = Split.backgroundNames) = true := by decide +kernel
  have hmarked : (builtin.find? "list-style").any
      (fun row => row.split = some .listStyle ∧ row.components = Split.listStyleNames) = true := by decide +kernel
  rw [classified, List.mem_cons, List.mem_cons] at h
  rcases h with rfl | rfl | h
  · obtain ⟨row, hrow, h⟩ := (Option.any_eq_true _ _).mp hlayered
    rw [decide_eq_true_eq] at h
    exact ⟨row, hrow, h.2 ▸ List.cons_ne_nil _ _, .inl h⟩
  · obtain ⟨row, hrow, h⟩ := (Option.any_eq_true _ _).mp hmarked
    rw [decide_eq_true_eq] at h
    exact ⟨row, hrow, h.2 ▸ List.cons_ne_nil _ _, .inr (.inl h)⟩
  · obtain ⟨line, hmem, rfl⟩ := List.mem_map.mp h
    obtain ⟨row, hrow, hline⟩ := (Option.any_eq_true _ _).mp (isLine_lines line hmem)
    rw [decide_eq_true_eq] at hline
    have heven := isEven_components line hmem
    rw [hrow, Option.all_some] at heven
    exact ⟨row, hrow, hline.components_ne_nil, .inr (.inr ⟨line.2, hline, heven⟩)⟩

namespace Split

variable {profile : Profile} {row : Descriptor} {value : Value} {values : List Value}

theorem classifies_values? (hrow : row.name ∈ Registry.classified)
    (hfind : Registry.builtin.find? row.name = some row) (h : values? profile row value = some values) :
    Classifies value (row.components.zip values) := by
  obtain ⟨_, hsame, hne, hkinds⟩ := Registry.exists_of_mem_classified hrow
  cases hfind.symm.trans hsame
  have hsplit : ∃ kind, row.split = some kind ∧
      ∀ values, splitAs? profile row value kind = some values → Classifies value (row.components.zip values) := by
    rcases hkinds with ⟨hkind, hnames⟩ | ⟨hkind, hnames⟩ | ⟨names, hline, -⟩
    · exact ⟨_, hkind, fun _ h => hnames ▸ classifies_background h⟩
    · exact ⟨_, hkind, fun _ h => hnames ▸ classifies_listStyle h⟩
    · exact ⟨_, hline.split, fun _ h => classifies_line hline h⟩
  obtain ⟨kind, hkind, hclassifies⟩ := hsplit
  rw [values?_eq hkind] at h
  split at h
  · next hglobal =>
      cases h
      obtain ⟨token, rfl, htoken⟩ := isLoneGlobal_iff.mp hglobal
      exact classifies_of_isGlobal hne htoken
  · exact hclassifies values h

/-- The longhands of all four sides have the initial value of the shorthand. -/
theorem leaves_of_isEven {name : String} (h : Registry.isEven name = true) :
    Registry.builtin.leafNames name ≠ [] ∧ ∀ leaf ∈ Registry.builtin.leafNames name, initialOf leaf = initialOf name ∧
      (Registry.builtin.find? leaf).any (·.lastLayerOnly) = (Registry.builtin.find? name).any (·.lastLayerOnly) := by
  have hsides : ∀ row ∈ Registry.builtin.descriptors, row.split = some .fourValues → ∀ leaf ∈ row.leaves,
      initialOf leaf = row.initialValue ∧
        (Registry.builtin.find? leaf).any (·.lastLayerOnly) = row.lastLayerOnly := by decide +kernel
  obtain ⟨row, hrow, heven⟩ := (Option.any_eq_true _ _).mp h
  obtain ⟨hmem, rfl⟩ := Registry.mem_of_find? hrow
  have hleaves := Registry.leaves_ne_nil hmem
  rw [Registry.leafNames, hrow, Option.map_some, Option.getD_some]
  refine ⟨hleaves, ?_⟩
  rw [Bool.or_eq_true, Bool.and_eq_true, beq_iff_eq] at heven
  rcases heven with hlonghand | ⟨hsplit, -⟩
  · rw [Registry.leaves_eq_singleton hmem (List.isEmpty_iff.mp hlonghand), List.forall_mem_singleton]
    exact ⟨rfl, by rw [hrow]⟩
  · rw [initialOf, hrow]
    exact hsides row hmem hsplit

/-- The longhands of the components classify as the components do. -/
theorem exists_longhandsWithin? (hrow : row.name ∈ Registry.classified)
    (hfind : Registry.builtin.find? row.name = some row) (h : values? profile row value = some values)
    (hstatic : value.any Word.isVariable = false) :
    ∃ longhands, longhandsWithin? profile Property.nesting row.name value = some longhands ∧
      Classifies value longhands := by
  have hclassifies := classifies_values? hrow hfind h
  obtain ⟨_, hsame, -, hkinds⟩ := Registry.exists_of_mem_classified hrow
  cases hfind.symm.trans hsame
  have hlonghands (hall : row.components.all (!Registry.builtin.isShorthand ·) = true) :
      ∃ longhands, longhandsWithin? profile Property.nesting row.name value = some longhands ∧
        Classifies value longhands := by
    refine ⟨row.components.zip values, ?_, hclassifies⟩
    rw [Property.nesting, longhandsWithin?_of_longhands hfind hall, hstatic, h]
    rfl
  rcases hkinds with ⟨-, hnames⟩ | ⟨-, hnames⟩ | ⟨names, hline, heven⟩
  · exact hlonghands (by rw [hnames]; decide +kernel)
  · exact hlonghands (by rw [hnames]; decide +kernel)
  · refine ⟨spread (row.components.zip values), ?_, hclassifies.spread ?_⟩
    · rw [longhandsWithin?_line hline hfind heven, hstatic, h]
      rfl
    · intro part hpart
      exact leaves_of_isEven (List.all_eq_true.mp heven part.1 (List.of_mem_zip hpart).1)

end Split

namespace Property

open Split (Classifies)

/-- The components that a value is split into are those of the table, and they classify it: as components, and as the
longhands that they stand for. -/
theorem classifies_components? {profile : Profile} {d : Declaration} {position : Nat} {cs : List Property}
    (hname : d.name ∈ Registry.classified) (h : components? profile (bare d position) = some cs) :
    (cs.flatMap leaves).map (·.name) = Registry.builtin.leafNames d.name ∧
      Classifies d.value (cs.map fun c => (c.name, c.value)) ∧ Classifies d.value (cs.flatMap longhands) := by
  obtain ⟨row, hrow, hne, -⟩ := Registry.exists_of_mem_classified hname
  obtain ⟨-, hrowname⟩ := Registry.mem_of_find? hrow
  have hleaves : (cs.flatMap leaves).map (·.name) = Registry.builtin.leafNames d.name := by
    have hsplit := componentsWithin?_isSplit h
    have hcs : cs ≠ [] := hsplit.ne_nil (isShorthand_iff.mpr ⟨row, hrow, hne⟩)
    have hregular : ({ bare d position with components := cs } : Property).Regular := IsSplit.regular hsplit hcs
    have hleafNames := leafNames_of_descriptor? (p := { bare d position with components := cs }) hrow
    rw [regular_iff, leaves_of_components_ne_nil hcs, hleafNames] at hregular
    rw [hregular.1, Registry.leafNames, hrow]
    rfl
  obtain ⟨hstatic, values, hvalues, hcs⟩ := exists_of_components? hrow h
  have hlonghands := components?_longhands profile d position
  rw [h, Option.map_some, ← hrowname] at hlonghands
  rw [← hrowname] at hname hrow
  refine ⟨hleaves, ?_, ?_⟩
  · rw [map_of_mapM_componentWithin? hcs]
    exact Split.classifies_values? hname hrow hvalues
  · obtain ⟨longhands, hsome, hclassifies⟩ := Split.exists_longhandsWithin? hname hrow hvalues hstatic
    cases hlonghands.trans hsome
    exact hclassifies

/-- Two layers, the second one with a color. -/
theorem classifies_components?_layers :
    let d : Declaration := { name := "background", value := ["url(a.png)", "0", "/", "auto", ",", "red", "repeat-x"] }
    ∃ cs, components? Profile.modern (bare d 0) = some cs ∧
      (cs.flatMap leaves).map (·.name) = Split.backgroundNames ∧
      Classifies d.value (cs.map fun c => (c.name, c.value)) ∧ Classifies d.value (cs.flatMap longhands) := by
  intro d
  have hsome : (components? Profile.modern (bare d 0)).isSome = true := by decide +kernel
  obtain ⟨cs, hcs⟩ := Option.isSome_iff_exists.mp hsome
  exact ⟨cs, hcs, classifies_components? (by decide) hcs⟩

end Property

end CssMinify
