import CssMinify.Proofs.Codec.Layer
import CssMinify.Proofs.Effect.Longhands

/-!
Backgrounds of any number of layers. A layer that is put together says no more than it has to: what is left
out is what would be there anyway. So its tokens are those of a layer that fits and that has the same values.
-/

namespace CssMinify

section Cutting

variable {α : Type} {p : α → Bool} {l rest : List α} {a : α}

theorem splitWhere_of_forall (h : ∀ x ∈ l, p x = false) : splitWhere p l = [l] := by
  induction l with
  | nil => rfl
  | cons x l ih =>
      rw [splitWhere, h x List.mem_cons_self, ih fun y hy => h y (List.mem_cons_of_mem x hy)]
      rfl

theorem splitWhere_append_cons (h : ∀ x ∈ l, p x = false) (ha : p a = true) :
    splitWhere p (l ++ a :: rest) = l :: splitWhere p rest := by
  induction l with
  | nil => rw [List.nil_append, splitWhere, if_pos ha]
  | cons x l ih =>
      rw [List.cons_append, splitWhere, h x List.mem_cons_self, ih fun y hy => h y (List.mem_cons_of_mem x hy)]
      rfl

theorem mem_of_mem_splitWhere {piece : List α} (hpiece : piece ∈ splitWhere p l) (ha : a ∈ piece) : a ∈ l := by
  induction l generalizing piece with
  | nil =>
      rw [splitWhere, List.mem_singleton] at hpiece
      exact hpiece ▸ ha
  | cons x l ih =>
      rw [splitWhere] at hpiece
      split at hpiece
      · rcases List.mem_cons.mp hpiece with rfl | hpiece
        · cases ha
        · exact List.mem_cons_of_mem x (ih hpiece ha)
      · split at hpiece
        · next first pieces hpieces =>
            rcases List.mem_cons.mp hpiece with rfl | hpiece
            · rcases List.mem_cons.mp ha with rfl | ha
              · exact List.mem_cons_self
              · exact List.mem_cons_of_mem x (ih (hpieces ▸ List.mem_cons_self) ha)
            · exact List.mem_cons_of_mem x (ih (hpieces ▸ List.mem_cons_of_mem first hpiece) ha)
        · next hnil => exact absurd hnil (splitWhere_ne_nil p l)

theorem exists_of_mem_mapM {β : Type} {f : α → Option β} {bs : List β} (h : l.mapM f = some bs) {b : β}
    (hb : b ∈ bs) : ∃ a ∈ l, f a = some b := by
  have hall := forall₂_of_mapM h
  clear h
  induction hall with
  | nil => cases hb
  | @cons a b' as bs hab _ ih =>
      rcases List.mem_cons.mp hb with rfl | hb
      · exact ⟨a, List.mem_cons_self, hab⟩
      · obtain ⟨a', ha', hfa'⟩ := ih hb
        exact ⟨a', List.mem_cons_of_mem a ha', hfa'⟩

theorem mapM_eq_some_map {β : Type} {f : α → Option β} {g : α → β} (h : ∀ a ∈ l, f a = some (g a)) :
    l.mapM f = some (l.map g) := by
  induction l with
  | nil => rfl
  | cons a l ih =>
      simp [List.mapM_cons, h a List.mem_cons_self, ih fun b hb => h b (List.mem_cons_of_mem a hb)]

end Cutting

namespace Value

theorem layers_ofLayers {layers : List Value} (hne : layers ≠ []) (h : ∀ l ∈ layers, layerSeparator ∉ l) :
    (ofLayers layers).layers = layers := by
  have hfree : ∀ l ∈ layers, ∀ token ∈ l, (token == layerSeparator) = false := by
    intro l hl token htoken
    rw [beq_eq_false_iff_ne]
    rintro rfl
    exact h l hl htoken
  induction layers with
  | nil => exact absurd rfl hne
  | cons l layers ih =>
      cases layers with
      | nil => simpa [ofLayers, Value.layers] using splitWhere_of_forall (hfree l List.mem_cons_self)
      | cons next more =>
          have hmore := ih (List.cons_ne_nil next more) (fun m hm => h m (List.mem_cons_of_mem l hm))
            fun m hm => hfree m (List.mem_cons_of_mem l hm)
          rw [ofLayers, List.intercalate_cons_cons, List.append_assoc, List.singleton_append, Value.layers,
            splitWhere_append_cons (hfree l List.mem_cons_self) (beq_self_eq_true layerSeparator)]
          exact congrArg (l :: ·) hmore

theorem mem_ofLayers {layers : List Value} {token : String} (h : token ∈ ofLayers layers) :
    token = layerSeparator ∨ ∃ l ∈ layers, token ∈ l := by
  induction layers with
  | nil => cases h
  | cons l layers ih =>
      cases layers with
      | nil => exact .inr ⟨l, List.mem_cons_self, by simpa [ofLayers] using h⟩
      | cons next more =>
          rw [ofLayers, List.intercalate_cons_cons, List.append_assoc, List.singleton_append, List.mem_append,
            List.mem_cons] at h
          rcases h with h | h | h
          · exact .inr ⟨l, List.mem_cons_self, h⟩
          · exact .inl h
          · obtain h | ⟨m, hm, h⟩ := ih h
            · exact .inl h
            · exact .inr ⟨m, List.mem_cons_of_mem l hm, h⟩

end Value

namespace Restore

theorem unlessInitial_orInitial (name : String) (value : Value) :
    unlessInitial name (Split.orInitial name value) = unlessInitial name value := by
  rw [Split.orInitial]
  split
  · next h =>
      rw [List.isEmpty_iff.mp h, unlessInitial, unlessInitial, if_pos rfl, ite_self]
  · rfl

theorem orInitial_unlessInitial (name : String) (value : Value) :
    Split.orInitial name (unlessInitial name value) = Split.orInitial name value := by
  rw [unlessInitial]
  split
  · next h =>
      rw [h, Split.orInitial, Split.orInitial, List.isEmpty_nil, if_pos rfl, ite_self]
  · rfl

theorem unlessInitial_subset (name : String) (value : Value) : unlessInitial name value ⊆ value := by
  rw [unlessInitial]
  split
  · exact List.nil_subset value
  · exact fun _ h => h

theorem length_unlessInitial_le (name : String) (value : Value) :
    (unlessInitial name value).length ≤ value.length := by
  rw [unlessInitial]
  split
  · exact Nat.zero_le _
  · exact Nat.le_refl _

end Restore

namespace Split

open Restore (unlessInitial)

namespace Layer

variable {profile : Profile} {l : Layer}

/-- What holds of the tokens that fit the parts holds of all the tokens. -/
theorem Fits.forall_tokens {P : String → Prop} (hl : l.Fits profile)
    (himage : ∀ token, Word.isImage token = true → P token)
    (hposition : ∀ token, Word.isPosition profile token = true → P token) (hslash : P "/")
    (hsize : ∀ token, Word.isSize profile token = true → P token)
    (hrepeat : ∀ token, Word.isRepeat token = true → P token)
    (hattachment : ∀ token, Word.isAttachment token = true → P token)
    (hbox : ∀ token, Word.isBox token = true → P token)
    (hcolor : ∀ token, Word.isColor token = true → P token) : ∀ token ∈ l.tokens, P token := by
  intro token htoken
  rcases mem_tokens.mp htoken with h | h | ⟨-, rfl⟩ | h | h | h | h | h
  · exact himage token (hl.image token h)
  · exact hposition token (hl.position token h)
  · exact hslash
  · exact hsize token (hl.size token h)
  · exact hrepeat token (hl.repeats token h)
  · exact hattachment token (hl.attachment token h)
  · exact hbox token (hl.boxes token h)
  · exact hcolor token (hl.color token h)

theorem Fits.separator_notMem (hl : l.Fits profile) : layerSeparator ∉ l.tokens := by
  have hne {p : String → Bool} (hp : p "," = false) (token : String) (h : p token = true) :
      token ≠ layerSeparator := by
    rintro rfl
    rw [layerSeparator, hp] at h
    cases h
  have hunit : Word.unit? "," = none := by decide
  have hposition : Word.isPosition profile "," = false := by
    have hothers : (Text.isOneOf Keyword.positions "," || Word.isCalculation ",") = false := by decide
    simpa [Word.isPosition, Word.isUnit, hunit] using hothers
  have hsize : Word.isSize profile "," = false := by
    have hothers : (Text.isOneOf Keyword.sizes "," || Word.isCalculation ",") = false := by decide
    simpa [Word.isSize, Word.isUnit, hunit] using hothers
  exact fun hmem => hl.forall_tokens (P := (· ≠ layerSeparator)) (hne (by decide)) (hne hposition)
    (by decide) (hne hsize) (hne (by decide)) (hne (by decide)) (hne (by decide))
    (hne (by decide)) _ hmem rfl

theorem Fits.isGlobal_eq_false (hl : l.Fits profile) : ∀ token ∈ l.tokens, Word.isGlobal token = false := by
  refine hl.forall_tokens (fun token h => ?_)
    (fun token h => Word.isOneOf_of_isKeywordOrLength (by decide) (by decide) (by decide) h)
    (by decide)
    (fun token h => Word.isOneOf_of_isKeywordOrLength (by decide) (by decide) (by decide) h)
    (fun token h => Text.isOneOf_eq_false (by decide) (by decide) (by decide) h)
    (fun token h => Text.isOneOf_eq_false (by decide) (by decide) (by decide) h)
    (fun token h => Text.isOneOf_eq_false (by decide) (by decide) (by decide) h)
    (fun token h => Word.isOneOf_of_isColor h (by simp [Word.colorless]))
  rw [Bool.eq_false_iff]
  intro hglobal
  rw [Word.isImage_of_isOneOf (by decide) (by decide) hglobal] at h
  cases h

/-- The values that a layer gives to the components of a background, other than the color. -/
def parts (l : Layer) : Restore.Layer where
  image := orInitial "background-image" l.image.toList
  position := orInitial "background-position" l.position
  size := orInitial "background-size" l.size
  repeats := orInitial "background-repeat" l.repeats
  attachment := orInitial "background-attachment" l.attachment.toList
  origin := orInitial "background-origin" l.boxes.head?.toList
  clip := orInitial "background-clip" l.boxes.getLast?.toList

/-- One box stands for two that are the same, and none for those that would be there anyway. -/
def shortBoxes (boxes : Value) : Value :=
  if boxes = initialOf "background-origin" ++ initialOf "background-clip" then []
  else if boxes.head? = boxes.getLast? then boxes.take 1
  else boxes

/-- What of a layer has to be said. -/
def needed (l : Layer) : Layer where
  image := l.image.filter ([·] != initialOf "background-image")
  position :=
    if unlessInitial "background-size" l.size = [] then unlessInitial "background-position" l.position
    else l.position
  size := unlessInitial "background-size" l.size
  repeats := unlessInitial "background-repeat" l.repeats
  attachment := l.attachment.filter ([·] != initialOf "background-attachment")
  boxes := shortBoxes l.boxes
  color := l.color.filter ([·] != initialOf "background-color")

/-- A layer that says the same in fewer tokens, but something. -/
def shortest (l : Layer) : Layer :=
  if l.needed.tokens.isEmpty then { position := initialOf "background-position" } else l.needed

theorem toList_filter (name : String) (found : Option String) :
    (found.filter ([·] != initialOf name)).toList = unlessInitial name found.toList := by
  cases found with
  | none => rw [Option.filter_none, Option.toList_none, unlessInitial, ite_self]
  | some token =>
      rw [Option.toList_some, unlessInitial, Option.filter_some]
      by_cases h : [token] = initialOf name <;> simp [h]

theorem initialOf_origin : initialOf "background-origin" = ["padding-box"] := by decide

theorem initialOf_clip : initialOf "background-clip" = ["border-box"] := by decide

theorem initialOf_position : initialOf "background-position" = ["0", "0"] := by decide

section Boxes

variable {boxes : Value} (h : boxes.length ≤ 2)

include h

/-- There are three numbers of boxes. -/
theorem boxes_cases : boxes = [] ∨ (∃ a, boxes = [a]) ∨ ∃ a b, boxes = [a, b] := by
  match boxes, h with
  | [], _ => exact .inl rfl
  | [a], _ => exact .inr (.inl ⟨a, rfl⟩)
  | [a, b], _ => exact .inr (.inr ⟨a, b, rfl⟩)

theorem shortBoxes_eq :
    (if orInitial "background-origin" boxes.head?.toList ≠ initialOf "background-origin" ∨
        orInitial "background-clip" boxes.getLast?.toList ≠ initialOf "background-clip" then
      orInitial "background-origin" boxes.head?.toList
        ++ (if orInitial "background-clip" boxes.getLast?.toList
            = orInitial "background-origin" boxes.head?.toList then []
          else orInitial "background-clip" boxes.getLast?.toList)
      else []) = shortBoxes boxes := by
  rw [shortBoxes, initialOf_origin, initialOf_clip]
  obtain rfl | ⟨a, rfl⟩ | ⟨a, b, rfl⟩ := boxes_cases h
  · simp [orInitial, initialOf_origin, initialOf_clip]
  · have hdifferent : [a] ≠ ["padding-box"] ∨ [a] ≠ ["border-box"] := by
      by_contra hboth
      simp only [not_or, ne_eq, not_not] at hboth
      exact absurd (hboth.1.symm.trans hboth.2) (by decide)
    simpa [orInitial, or_iff_not_imp_left] using hdifferent
  · by_cases hsame : a = b
    · subst hsame
      simp only [orInitial]
      grind
    · simp only [orInitial]
      grind

theorem origin_shortBoxes :
    orInitial "background-origin" (shortBoxes boxes).head?.toList
      = orInitial "background-origin" boxes.head?.toList := by
  rw [shortBoxes, initialOf_origin, initialOf_clip]
  obtain rfl | ⟨a, rfl⟩ | ⟨a, b, rfl⟩ := boxes_cases h
  · rfl
  · simp
  · split
    · next hboth =>
        cases hboth
        exact initialOf_origin
    · split <;> rfl

theorem clip_shortBoxes :
    orInitial "background-clip" (shortBoxes boxes).getLast?.toList
      = orInitial "background-clip" boxes.getLast?.toList := by
  rw [shortBoxes, initialOf_origin, initialOf_clip]
  obtain rfl | ⟨a, rfl⟩ | ⟨a, b, rfl⟩ := boxes_cases h
  · rfl
  · simp
  · split
    · next hboth =>
        cases hboth
        exact initialOf_clip
    · split
      · next hsame => simpa using congrArg (orInitial "background-clip" ·.toList) hsame
      · rfl

omit h in
theorem shortBoxes_sublist : (shortBoxes boxes).Sublist boxes := by
  rw [shortBoxes]
  split
  · exact List.nil_sublist boxes
  · split
    · exact List.take_sublist 1 boxes
    · exact List.Sublist.refl boxes

end Boxes

theorem parts_needed (hl : l.Fits profile) : l.needed.parts = l.parts := by
  have hposition : orInitial "background-position" l.needed.position
      = orInitial "background-position" l.position := by
    rw [needed]
    split
    · exact Restore.orInitial_unlessInitial _ _
    · rfl
  rw [parts, parts, hposition]
  simp only [needed, toList_filter, Restore.orInitial_unlessInitial, origin_shortBoxes hl.length_boxes,
    clip_shortBoxes hl.length_boxes]

theorem color_needed : orInitial "background-color" l.needed.color.toList
    = orInitial "background-color" l.color.toList := by
  simp only [needed, toList_filter, Restore.orInitial_unlessInitial]

theorem of_mem_filter {found : Option String} {keep : String → Bool} {token : String}
    (h : token ∈ found.filter keep) : token ∈ found := by
  rw [Option.mem_def, Option.filter_eq_some_iff] at h
  exact h.1

theorem fits_needed (hl : l.Fits profile) : l.needed.Fits profile where
  image := fun token h => hl.image token (of_mem_filter h)
  position := by
    rw [needed]
    split
    · exact fun token h => hl.position token (Restore.unlessInitial_subset _ _ h)
    · exact hl.position
  length_position := by
    rw [needed]
    split
    · exact (Restore.length_unlessInitial_le _ _).trans hl.length_position
    · exact hl.length_position
  size := fun token h => hl.size token (Restore.unlessInitial_subset _ _ h)
  length_size := (Restore.length_unlessInitial_le _ _).trans hl.length_size
  placed := by
    intro hsize
    rw [needed] at hsize ⊢
    rw [if_neg hsize]
    refine hl.placed ?_
    intro hnil
    rw [hnil, unlessInitial, ite_self] at hsize
    exact hsize rfl
  repeats := fun token h => hl.repeats token (Restore.unlessInitial_subset _ _ h)
  length_repeats := (Restore.length_unlessInitial_le _ _).trans hl.length_repeats
  attachment := fun token h => hl.attachment token (of_mem_filter h)
  boxes := fun token h => hl.boxes token (shortBoxes_sublist.subset h)
  length_boxes := shortBoxes_sublist.length_le.trans hl.length_boxes
  color := fun token h => hl.color token (of_mem_filter h)

/-- A size that is left out needs no position in front of it. -/
theorem placed_tokens {position size : Value} (hplaced : size ≠ [] → position ≠ []) :
    (if orInitial "background-size" size ≠ initialOf "background-size" then
        orInitial "background-position" position ++ "/" :: orInitial "background-size" size
      else unlessInitial "background-position" (orInitial "background-position" position))
      = (if unlessInitial "background-size" size = [] then unlessInitial "background-position" position
          else position)
        ++ (if (unlessInitial "background-size" size).isEmpty then []
          else "/" :: unlessInitial "background-size" size) := by
  rw [← Restore.unlessInitial_orInitial "background-size" size]
  by_cases hinitial : orInitial "background-size" size = initialOf "background-size"
  · have hnil : unlessInitial "background-size" (orInitial "background-size" size) = [] := if_pos hinitial
    rw [hnil]
    simp [hinitial, Restore.unlessInitial_orInitial]
  · have hne : size ≠ [] := by
      rintro rfl
      exact hinitial rfl
    have hsize : orInitial "background-size" size = size := if_neg (by simpa using hne)
    have hposition : orInitial "background-position" position = position :=
      if_neg (by simpa using hplaced hne)
    rw [hsize] at hinitial
    simp [unlessInitial, hsize, hposition, hne, hinitial]

/-- The tokens that are put together are those that are needed. -/
theorem tokens_parts (hl : l.Fits profile) :
    l.parts.tokens ++ unlessInitial "background-color" (orInitial "background-color" l.color.toList)
      = l.needed.tokens := by
  have hplaced := placed_tokens hl.placed
  have hboxes := shortBoxes_eq hl.length_boxes
  have himage := toList_filter "background-image" l.image
  have hattachment := toList_filter "background-attachment" l.attachment
  have hcolor := toList_filter "background-color" l.color
  have hinitial := Restore.unlessInitial_orInitial
  calc l.parts.tokens ++ unlessInitial "background-color" (orInitial "background-color" l.color.toList)
    _ = unlessInitial "background-image" l.image.toList
          ++ (if orInitial "background-size" l.size ≠ initialOf "background-size" then
                orInitial "background-position" l.position ++ "/" :: orInitial "background-size" l.size
              else unlessInitial "background-position" (orInitial "background-position" l.position))
          ++ unlessInitial "background-repeat" l.repeats
          ++ unlessInitial "background-attachment" l.attachment.toList
          ++ shortBoxes l.boxes
          ++ unlessInitial "background-color" (orInitial "background-color" l.color.toList) := by
      rw [← hboxes, ← hinitial "background-image", ← hinitial "background-repeat",
        ← hinitial "background-attachment"]
      rfl
    _ = l.needed.tokens := by
      rw [hinitial "background-color", hplaced, ← himage, ← hattachment, ← hcolor]
      simp only [tokens, List.append_assoc]
      rfl

theorem needed_of_tokens (h : l.needed.tokens = []) : l.needed = {} := by
  generalize l.needed = n at h ⊢
  rw [tokens] at h
  obtain ⟨image, position, size, repeats, attachment, boxes, color⟩ := n
  simp only [List.append_eq_nil_iff, Option.toList_eq_nil_iff] at h
  obtain ⟨rfl, rfl, hsize, rfl, rfl, rfl, rfl⟩ := h
  cases size with
  | nil => rfl
  | cons token more => cases hsize

theorem tokens_shortest : l.shortest.tokens = Restore.nonEmpty l.needed.tokens := by
  rw [shortest, Restore.nonEmpty]
  split
  · simp [tokens]
  · rfl

theorem tokens_shortest_ne_nil : l.shortest.tokens ≠ [] := by
  rw [tokens_shortest, Restore.nonEmpty, initialOf_position]
  split
  · simp
  · next h => simpa using h

theorem parts_shortest (hl : l.Fits profile) : l.shortest.parts = l.parts := by
  rw [← parts_needed hl, shortest]
  split
  · next h =>
      rw [needed_of_tokens (List.isEmpty_iff.mp h), parts, parts]
      have hposition : orInitial "background-position" (initialOf "background-position")
          = orInitial "background-position" [] := by decide
      rw [hposition]
  · rfl

theorem color_shortest : orInitial "background-color" l.shortest.color.toList
    = orInitial "background-color" l.color.toList := by
  rw [shortest]
  split
  · next h =>
      have hcolor := color_needed (l := l)
      rw [needed_of_tokens (List.isEmpty_iff.mp h)] at hcolor
      exact hcolor
  · exact color_needed

theorem color_shortest_eq_none (h : l.color = none) : l.shortest.color = none := by
  rw [shortest]
  split
  · rfl
  · rw [needed, h]
    rfl

theorem fits_shortest (hl : l.Fits profile) : l.shortest.Fits profile := by
  have hposition : ∀ token ∈ initialOf "background-position", Word.isPosition profile token = true := by
    have hzero : Word.isPosition profile "0" = true := by simp [Word.isPosition, Word.isUnit_zero]
    rw [initialOf_position]
    simpa using hzero
  rw [shortest]
  split
  · refine { fits_empty profile with position := hposition, length_position := ?_, placed := ?_ }
    · rw [initialOf_position]
      decide
    · simp
  · exact fits_needed hl

/-- What is said was said before, or is the zero of the initial position. -/
theorem mem_shortest {token : String} (h : token ∈ l.shortest.tokens) : token ∈ l.tokens ∨ token = "0" := by
  rw [shortest] at h
  split at h
  · right
    rw [tokens, initialOf_position] at h
    simpa using h
  · left
    have hunless (name : String) (value : Value) : token ∈ unlessInitial name value → token ∈ value :=
      (Restore.unlessInitial_subset name value ·)
    have hboxes : token ∈ shortBoxes l.boxes → token ∈ l.boxes := (shortBoxes_sublist.subset ·)
    rw [mem_tokens] at h ⊢
    simp only [needed, Option.filter_eq_some_iff] at h
    rcases h with h | h | ⟨hsize, rfl⟩ | h | h | h | h | h
    · exact .inl h.1
    · split at h
      · exact .inr (.inl (hunless _ _ h))
      · exact .inr (.inl h)
    · refine .inr (.inr (.inl ⟨?_, rfl⟩))
      rintro hnil
      rw [hnil, unlessInitial, ite_self] at hsize
      exact hsize rfl
    · exact .inr (.inr (.inr (.inl (hunless _ _ h))))
    · exact .inr (.inr (.inr (.inr (.inl (hunless _ _ h)))))
    · exact .inr (.inr (.inr (.inr (.inr (.inl h.1)))))
    · exact .inr (.inr (.inr (.inr (.inr (.inr (.inl (hboxes h)))))))
    · exact .inr (.inr (.inr (.inr (.inr (.inr (.inr h.1))))))

end Layer

/-- The values that layers give to the components of a background. -/
def layerValues (layers : List Layer) : List Value :=
  [Value.ofLayers (layers.map (·.parts.image)), Value.ofLayers (layers.map (·.parts.position)),
   Value.ofLayers (layers.map (·.parts.size)), Value.ofLayers (layers.map (·.parts.repeats)),
   Value.ofLayers (layers.map (·.parts.attachment)), Value.ofLayers (layers.map (·.parts.origin)),
   Value.ofLayers (layers.map (·.parts.clip)),
   orInitial "background-color" ((layers.getLast?.bind Layer.color).toList)]

theorem background?_eq_some {profile : Profile} {tokens : Value} {values : List Value} :
    background? profile tokens = some values ↔
      (∀ group ∈ tokens.layers, group ≠ []) ∧
        ∃ layers, tokens.layers.mapM (layerFrom? profile {}) = some layers ∧
          (∀ l ∈ layers.dropLast, l.color = none) ∧ layerValues layers = values := by
  have hgroups : (tokens.layers.any List.isEmpty = true) ↔ ¬∀ group ∈ tokens.layers, group ≠ [] := by
    simp [List.any_eq_true]
  have hcolors (layers : List Layer) :
      (layers.dropLast.any (·.color.isSome) = true) ↔ ¬∀ l ∈ layers.dropLast, l.color = none := by
    simp [List.any_eq_true, Option.isSome_iff_ne_none]
  simp only [background?, Option.bind_eq_bind]
  split
  · next h => simp [hgroups.mp h]
  · next h =>
      rw [hgroups, not_not] at h
      rw [and_iff_right h]
      simp only [Option.bind_eq_some_iff]
      refine exists_congr fun layers => and_congr_right fun _ => ?_
      split
      · next hcolor => simp [(hcolors layers).mp hcolor]
      · next hcolor =>
          rw [hcolors, not_not] at hcolor
          rw [and_iff_right hcolor, Option.some.injEq]
          rfl

section Layers

variable {profile : Profile} {layers : List Layer} (hfits : ∀ l ∈ layers, l.Fits profile)
  (hcolor : ∀ l ∈ layers.dropLast, l.color = none)

include hfits hcolor

theorem layerTokens_parts :
    Restore.layerTokens (orInitial "background-color" ((layers.getLast?.bind Layer.color).toList))
        (layers.map Layer.parts) = layers.map (·.shortest.tokens) := by
  induction layers with
  | nil => rfl
  | cons l layers ih =>
      have hl := hfits l List.mem_cons_self
      cases layers with
      | nil => simp [Restore.layerTokens, Layer.tokens_shortest, ← Layer.tokens_parts hl]
      | cons next more =>
          have hnone : l.color = none := hcolor l (by simp)
          have htokens := Layer.tokens_parts hl
          have hinitial : unlessInitial "background-color" (orInitial "background-color" []) = [] :=
            if_pos rfl
          rw [hnone, Option.toList_none, hinitial, List.append_nil] at htokens
          have hmore := ih (fun m hm => hfits m (List.mem_cons_of_mem l hm))
            fun m hm => hcolor m (by simp [List.dropLast_cons_of_ne_nil, hm])
          rw [← List.getLast?_cons_cons, List.map_cons] at hmore
          rw [List.map_cons, List.map_cons, Restore.layerTokens, hmore, htokens, ← Layer.tokens_shortest]
          · rfl
          · exact List.cons_ne_nil _ _

omit hcolor in
theorem layerValues_shortest : layerValues (layers.map Layer.shortest) = layerValues layers := by
  have hparts (part : Restore.Layer → Value) :
      (layers.map Layer.shortest).map (fun l => part l.parts) = layers.map fun l => part l.parts := by
    rw [List.map_map]
    exact List.map_congr_left fun l hl => congrArg part (Layer.parts_shortest (hfits l hl))
  have hlast : orInitial "background-color" (((layers.map Layer.shortest).getLast?.bind Layer.color).toList)
      = orInitial "background-color" ((layers.getLast?.bind Layer.color).toList) := by
    rw [List.getLast?_map]
    cases layers.getLast? with
    | none => rfl
    | some l => exact Layer.color_shortest
  simp only [layerValues, hparts, hlast]

/-- The layers of the shortest text are found in it. -/
theorem background?_shortest (hne : layers ≠ []) :
    background? profile (Value.ofLayers (layers.map (·.shortest.tokens))) = some (layerValues layers) := by
  have hlayers : (Value.ofLayers (layers.map (·.shortest.tokens))).layers = layers.map (·.shortest.tokens) := by
    refine Value.layers_ofLayers (by simpa using hne) ?_
    intro tokens htokens
    obtain ⟨l, hl, rfl⟩ := List.mem_map.mp htokens
    exact (Layer.fits_shortest (hfits l hl)).separator_notMem
  rw [background?_eq_some, hlayers]
  refine ⟨?_, layers.map Layer.shortest, ?_, ?_, layerValues_shortest hfits⟩
  · intro group hgroup
    obtain ⟨l, -, rfl⟩ := List.mem_map.mp hgroup
    exact Layer.tokens_shortest_ne_nil
  · rw [List.mapM_map]
    exact mapM_eq_some_map fun l hl => layerFrom?_tokens (Layer.fits_shortest (hfits l hl))
  · intro l hl
    rw [← List.map_dropLast] at hl
    obtain ⟨m, hm, rfl⟩ := List.mem_map.mp hl
    exact Layer.color_shortest_eq_none (hcolor m hm)

end Layers

/-- The components of a background, in the order of the table. -/
def backgroundNames : List String :=
  ["background-image", "background-position", "background-size", "background-repeat", "background-attachment",
   "background-origin", "background-clip", "background-color"]

/-- What holds of the tokens of a layer and of the initial values holds of its parts. -/
theorem Layer.forall_parts {P : String → Prop} {l : Layer} (hl : ∀ token ∈ l.tokens, P token)
    (hinitial : ∀ name ∈ backgroundNames, ∀ token ∈ initialOf name, P token) :
    ∀ part ∈ [l.parts.image, l.parts.position, l.parts.size, l.parts.repeats, l.parts.attachment,
      l.parts.origin, l.parts.clip, orInitial "background-color" l.color.toList], ∀ token ∈ part, P token := by
  have hpart {name : String} (hname : name ∈ backgroundNames) {found : Value}
      (hfound : ∀ token ∈ found, token ∈ l.tokens) : ∀ token ∈ orInitial name found, P token := by
    rw [orInitial]
    split
    · exact hinitial name hname
    · exact fun token htoken => hl token (hfound token htoken)
  have hsome {found : Option String} {token : String} (h : token ∈ found.toList) : found = some token := by
    simpa using h
  simp only [List.forall_mem_cons, List.not_mem_nil, false_implies, implies_true, and_true]
  refine ⟨hpart (by decide) fun token h => ?_, hpart (by decide) fun token h => ?_,
    hpart (by decide) fun token h => ?_, hpart (by decide) fun token h => ?_,
    hpart (by decide) fun token h => ?_, hpart (by decide) fun token h => ?_,
    hpart (by decide) fun token h => ?_, hpart (by decide) fun token h => ?_⟩ <;> rw [mem_tokens]
  · exact .inl (hsome h)
  · exact .inr (.inl h)
  · exact .inr (.inr (.inr (.inl h)))
  · exact .inr (.inr (.inr (.inr (.inl h))))
  · exact .inr (.inr (.inr (.inr (.inr (.inl (hsome h))))))
  · exact .inr (.inr (.inr (.inr (.inr (.inr (.inl (List.mem_of_mem_head? (hsome h))))))))
  · exact .inr (.inr (.inr (.inr (.inr (.inr (.inl (List.mem_of_getLast? (hsome h))))))))
  · exact .inr (.inr (.inr (.inr (.inr (.inr (.inr (hsome h)))))))

section Restoring

variable {profile : Profile} {tokens : Value} {values : List Value}
  (h : background? profile tokens = some values)

include h

/-- The layers of a background that can be split fit, and their tokens are those of the background. -/
theorem exists_layers_of_background? :
    ∃ layers, layers ≠ [] ∧ layerValues layers = values ∧ (∀ l ∈ layers, l.Fits profile) ∧
      (∀ l ∈ layers.dropLast, l.color = none) ∧ ∀ l ∈ layers, ∀ token ∈ l.tokens, token ∈ tokens := by
  obtain ⟨-, layers, hlayers, hcolor, hvalues⟩ := background?_eq_some.mp h
  refine ⟨layers, ?_, hvalues, ?_, hcolor, ?_⟩
  · rintro rfl
    have hnil := (forall₂_of_mapM hlayers).length_eq
    rw [List.length_nil, List.length_eq_zero_iff] at hnil
    exact splitWhere_ne_nil _ _ hnil
  · intro l hl
    obtain ⟨group, -, hgroup⟩ := exists_of_mem_mapM hlayers hl
    exact fits_layerFrom? (Layer.fits_empty profile) hgroup
  · intro l hl token htoken
    obtain ⟨group, hgroup, hfrom⟩ := exists_of_mem_mapM hlayers hl
    have hmem := (mem_of_layerFrom? hfrom htoken).resolve_left (by simp [Layer.tokens])
    exact mem_of_mem_splitWhere hgroup hmem

theorem isGlobal_of_background? : ∀ value ∈ values, ∀ token ∈ value, Word.isGlobal token = false := by
  obtain ⟨layers, hne, rfl, hfits, -, -⟩ := exists_layers_of_background? h
  have hinitial : ∀ name ∈ backgroundNames, ∀ token ∈ initialOf name, Word.isGlobal token = false := by
    decide
  have hparts := fun l hl => Layer.forall_parts (hfits l hl).isGlobal_eq_false hinitial
  have hlayers {part : Layer → Value} (hpart : ∀ l ∈ layers, ∀ token ∈ part l, Word.isGlobal token = false) :
      ∀ token ∈ Value.ofLayers (layers.map part), Word.isGlobal token = false := by
    intro token htoken
    obtain rfl | ⟨value, hvalue, htoken⟩ := Value.mem_ofLayers htoken
    · decide
    · obtain ⟨l, hl, rfl⟩ := List.mem_map.mp hvalue
      exact hpart l hl token htoken
  simp only [layerValues, List.forall_mem_cons, List.not_mem_nil, false_implies, implies_true, and_true]
  refine ⟨hlayers fun l hl => hparts l hl _ (by simp), hlayers fun l hl => hparts l hl _ (by simp),
    hlayers fun l hl => hparts l hl _ (by simp), hlayers fun l hl => hparts l hl _ (by simp),
    hlayers fun l hl => hparts l hl _ (by simp), hlayers fun l hl => hparts l hl _ (by simp),
    hlayers fun l hl => hparts l hl _ (by simp), ?_⟩
  rw [List.getLast?_eq_some_getLast hne]
  exact hparts _ (List.getLast_mem hne) _ (by simp)

omit h in
theorem find?_value (components : List Property) (name : String) :
    (components.find? (·.name == name)).map (·.value)
      = (components.map fun c => (c.name, c.value)).lookup name := by
  induction components with
  | nil => rfl
  | cons c components ih =>
      rw [List.find?_cons, List.map_cons, List.lookup_cons, Bool.beq_comm (a := name)]
      cases c.name == name with
      | true => rfl
      | false => exact ih

omit h in
/-- Putting layers together from the values that they give. -/
theorem background?_layerValues {layers : List Layer} {components : List Property} (hne : layers ≠ [])
    (hfits : ∀ l ∈ layers, l.Fits profile)
    (hcomponents : components.map (fun c => (c.name, c.value)) = backgroundNames.zip (layerValues layers)) :
    Restore.background? components
      = some (Value.ofLayers (Restore.layerTokens
          (orInitial "background-color" ((layers.getLast?.bind Layer.color).toList))
          (layers.map Layer.parts))) := by
  have hinitial : ∀ name ∈ backgroundNames, ∀ token ∈ initialOf name, token ≠ layerSeparator := by
    decide
  have hparts := fun l hl => Layer.forall_parts (P := (· ≠ layerSeparator))
    (fun token htoken hsep => (hfits l hl).separator_notMem (hsep ▸ htoken)) hinitial
  have hlayers {part : Layer → Value} (hpart : ∀ l ∈ layers, ∀ token ∈ part l, token ≠ layerSeparator) :
      (Value.ofLayers (layers.map part)).layers = layers.map part := by
    refine Value.layers_ofLayers (by simpa using hne) fun value hvalue hsep => ?_
    obtain ⟨l, hl, rfl⟩ := List.mem_map.mp hvalue
    exact hpart l hl _ hsep rfl
  have himages := hlayers fun l hl => hparts l hl l.parts.image (by simp)
  have hpositions := hlayers fun l hl => hparts l hl l.parts.position (by simp)
  have hsizes := hlayers fun l hl => hparts l hl l.parts.size (by simp)
  have hrepeats := hlayers fun l hl => hparts l hl l.parts.repeats (by simp)
  have hattachments := hlayers fun l hl => hparts l hl l.parts.attachment (by simp)
  have horigins := hlayers fun l hl => hparts l hl l.parts.origin (by simp)
  have hclips := hlayers fun l hl => hparts l hl l.parts.clip (by simp)
  simp only [Restore.background?, find?_value, hcomponents]
  simp only [backgroundNames, layerValues, List.zip_cons_cons, List.zip_nil_right, List.lookup_cons,
    String.reduceBEq, BEq.rfl, Option.bind_eq_bind, Option.bind_some, hpositions,
    List.length_map, hsizes, hrepeats, hattachments, horigins, hclips, Option.pure_def, himages, ↓reduceIte,
    List.zip_map', List.map_map, Option.some.injEq]
  rfl

/-- The value that is put together from the components of a background splits into them again. -/
theorem background?_restored {components : List Property}
    (hcomponents : components.map (fun c => (c.name, c.value)) = backgroundNames.zip values) :
    ∃ value, Restore.background? components = some value ∧ background? profile value = some values ∧
      ∀ token ∈ value, (token ∈ tokens ∨ Word.isVariable token = false) ∧ Word.isGlobal token = false := by
  obtain ⟨layers, hne, rfl, hfits, hcolor, hmem⟩ := exists_layers_of_background? h
  refine ⟨Value.ofLayers (layers.map (·.shortest.tokens)), ?_, background?_shortest hfits hcolor hne, ?_⟩
  · rw [background?_layerValues hne hfits hcomponents, layerTokens_parts hfits hcolor]
  · intro token htoken
    obtain rfl | ⟨group, hgroup, htoken⟩ := Value.mem_ofLayers htoken
    · exact ⟨.inr (by decide), by decide⟩
    · obtain ⟨l, hl, rfl⟩ := List.mem_map.mp hgroup
      refine ⟨?_, (Layer.fits_shortest (hfits l hl)).isGlobal_eq_false token htoken⟩
      obtain htoken | rfl := Layer.mem_shortest htoken
      · exact .inl (hmem l hl token htoken)
      · exact .inr (by decide)

end Restoring

end Split

end CssMinify
