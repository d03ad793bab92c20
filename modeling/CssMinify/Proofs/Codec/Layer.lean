import CssMinify.Proofs.Codec.Words

/-!
One layer of a background. Whatever the order of its tokens, classifying them finds parts that fit; and
parts that fit are found again when their tokens stand in the order in which a layer is put together.
-/

namespace CssMinify

theorem takeWhile_take_append {α : Type} {p : α → Bool} {xs ys : List α} {n : Nat} (hxs : ∀ x ∈ xs, p x = true)
    (hlength : xs.length ≤ n) (hys : ∀ y ∈ ys.head?, p y = false) :
    ((xs ++ ys).take n).takeWhile p = xs := by
  rw [List.take_append, List.take_of_length_le hlength, List.takeWhile_append_of_pos hxs]
  cases ys with
  | nil => simp
  | cons y ys =>
      cases n - xs.length with
      | zero => simp
      | succ m => simp [hys y (by simp)]

namespace Word

/-! What a token of one part of a layer is not. A token is given to the first part that it fits, so only the
parts that are tried before its own matter. -/

section Apart

variable {profile : Profile} {token : String}

theorem ne_slash_of {p : String → Bool} (hp : p "/" = false) (h : p token = true) : (token == "/") = false := by
  rw [beq_eq_false_iff_ne]
  rintro rfl
  rw [hp] at h
  cases h

theorem isUnit_zero (profile : Profile) : isUnit profile "0" = true := by
  have hunit : unit? "0" = some "" := by decide
  have hlower : Text.lower "" = "" := by decide
  have hcommon : UnitFlags.common.contains "" = true := by decide
  rw [isUnit, hunit, Option.any_some, UnitFlags.allows, hlower]
  exact hcommon

theorem isPosition_slash (profile : Profile) : isPosition profile "/" = false := by
  have hunit : unit? "/" = none := by decide
  have hothers : (Text.isOneOf Keyword.positions "/" || isCalculation "/") = false := by decide
  simpa [isPosition, isUnit, hunit] using hothers

theorem isAttachment_apart (h : isAttachment token = true) : (token == "/") = false ∧ isImage token = false :=
  ⟨ne_slash_of (by decide) h, isImage_of_isOneOf (by decide) (by decide) h⟩

theorem isBox_apart (h : isBox token = true) :
    (token == "/") = false ∧ isImage token = false ∧ isAttachment token = false :=
  ⟨ne_slash_of (by decide) h, isImage_of_isOneOf (by decide) (by decide) h,
    Text.isOneOf_eq_false (by decide) (by decide) (by decide) h⟩

theorem isRepeat_apart (h : isRepeat token = true) :
    (token == "/") = false ∧ isImage token = false ∧ isAttachment token = false ∧ isBox token = false :=
  ⟨ne_slash_of (by decide) h, isImage_of_isOneOf (by decide) (by decide) h,
    Text.isOneOf_eq_false (by decide) (by decide) (by decide) h,
    Text.isOneOf_eq_false (by decide) (by decide) (by decide) h⟩

theorem isPosition_apart (h : isPosition profile token = true) :
    (token == "/") = false ∧ isImage token = false ∧ isAttachment token = false ∧ isBox token = false ∧
      isRepeat token = false :=
  ⟨ne_slash_of (isPosition_slash profile) h, isImage_of_isPosition h,
    isOneOf_of_isKeywordOrLength (by decide) (by decide) (by decide) h,
    isOneOf_of_isKeywordOrLength (by decide) (by decide) (by decide) h,
    isOneOf_of_isKeywordOrLength (by decide) (by decide) (by decide) h⟩

theorem isColor_apart (h : isColor token = true) :
    (token == "/") = false ∧ isImage token = false ∧ isAttachment token = false ∧ isBox token = false ∧
      isRepeat token = false ∧ ∀ profile, isPosition profile token = false :=
  ⟨ne_slash_of (by decide) h, isImage_of_isColor h,
    isOneOf_of_isColor h (by simp [colorless]),
    isOneOf_of_isColor h (by simp [colorless]),
    isOneOf_of_isColor h (by simp [colorless]), isPosition_of_isColor h⟩

/-- What stands behind a position and its size. -/
theorem not_length_of_later (profile : Profile)
    (h : isRepeat token = true ∨ isAttachment token = true ∨ isBox token = true ∨ isColor token = true) :
    isPosition profile token = false ∧ isSize profile token = false := by
  rcases h with h | h | h | h
  · exact ⟨isPosition_of_isOneOf profile (by decide) (by decide) h,
      isSize_of_isOneOf profile (by decide) (by decide) h⟩
  · exact ⟨isPosition_of_isOneOf profile (by decide) (by decide) h,
      isSize_of_isOneOf profile (by decide) (by decide) h⟩
  · exact ⟨isPosition_of_isOneOf profile (by decide) (by decide) h,
      isSize_of_isOneOf profile (by decide) (by decide) h⟩
  · exact ⟨isPosition_of_isColor h profile, isSize_of_isColor h profile⟩

/-- What stands behind the repeats. -/
theorem not_repeat_of_later (h : isAttachment token = true ∨ isBox token = true ∨ isColor token = true) :
    isRepeat token = false := by
  rcases h with h | h | h
  · exact Text.isOneOf_eq_false (by decide) (by decide) (by decide) h
  · exact Text.isOneOf_eq_false (by decide) (by decide) (by decide) h
  · exact (isColor_apart h).2.2.2.2.1

end Apart

end Word

namespace Split

namespace Layer

/-- The tokens of a layer in the order in which it is put together. -/
def tokens (l : Layer) : Value :=
  l.image.toList ++ (l.position ++ ((if l.size.isEmpty then [] else "/" :: l.size)
    ++ (l.repeats ++ (l.attachment.toList ++ (l.boxes ++ l.color.toList)))))

/-- Every part has tokens that fit it and no more than there is room for, and a size comes with a
position. -/
structure Fits (profile : Profile) (l : Layer) : Prop where
  image : ∀ token ∈ l.image, Word.isImage token = true
  position : ∀ token ∈ l.position, Word.isPosition profile token = true
  length_position : l.position.length ≤ 4
  size : ∀ token ∈ l.size, Word.isSize profile token = true
  length_size : l.size.length ≤ 2
  placed : l.size ≠ [] → l.position ≠ []
  repeats : ∀ token ∈ l.repeats, Word.isRepeat token = true
  length_repeats : l.repeats.length ≤ 2
  attachment : ∀ token ∈ l.attachment, Word.isAttachment token = true
  boxes : ∀ token ∈ l.boxes, Word.isBox token = true
  length_boxes : l.boxes.length ≤ 2
  color : ∀ token ∈ l.color, Word.isColor token = true

theorem fits_empty (profile : Profile) : Fits profile {} := by
  constructor <;> simp

theorem mem_tokens {l : Layer} {token : String} :
    token ∈ l.tokens ↔ l.image = some token ∨ token ∈ l.position ∨ (l.size ≠ [] ∧ token = "/") ∨
      token ∈ l.size ∨ token ∈ l.repeats ∨ l.attachment = some token ∨ token ∈ l.boxes ∨ l.color = some token := by
  have hsize : token ∈ (if l.size.isEmpty then [] else "/" :: l.size)
      ↔ (l.size ≠ [] ∧ token = "/") ∨ token ∈ l.size := by
    cases l.size <;> simp
  rw [tokens]
  simp only [List.mem_append, hsize, Option.mem_toList, or_assoc]

end Layer

section Finding

variable {profile : Profile} {l found : Layer} {tokens : Value}

theorem mem_of_mem_takeWhile_take {α : Type} {p : α → Bool} {xs : List α} {n : Nat} {x : α}
    (h : x ∈ (xs.take n).takeWhile p) : x ∈ xs :=
  List.mem_of_mem_take ((List.takeWhile_sublist _).subset h)

theorem length_takeWhile_take_le {α : Type} (p : α → Bool) (xs : List α) (n : Nat) :
    ((xs.take n).takeWhile p).length ≤ n :=
  (List.takeWhile_sublist _).length_le.trans (List.length_take_le n xs)

/-- Classifying tokens keeps parts that fit. -/
theorem fits_layerFrom? (hl : l.Fits profile) (h : layerFrom? profile l tokens = some found) :
    found.Fits profile := by
  fun_induction layerFrom? profile l tokens with
  | case1 l =>
      cases h
      exact hl
  | case2 => cases h
  | case3 l token rest hslash size hsize ih =>
      simp only [Bool.or_eq_true, not_or, List.isEmpty_iff, Bool.not_eq_true'] at hsize
      refine ih { hl with
        size := fun t ht => List.mem_takeWhile_imp ht
        length_size := length_takeWhile_take_le _ rest 2
        placed := fun _ => hsize.1.1 } h
  | case4 l token rest hslash himage ih =>
      rw [Bool.and_eq_true] at himage
      exact ih { hl with image := by simpa using himage.2 } h
  | case5 l token rest hslash himage hattachment ih =>
      rw [Bool.and_eq_true] at hattachment
      exact ih { hl with attachment := by simpa using hattachment.2 } h
  | case6 l token rest hslash himage hattachment hbox ih =>
      rw [Bool.and_eq_true, decide_eq_true_eq] at hbox
      exact ih { hl with
        boxes := List.forall_mem_append.mpr ⟨hl.boxes, by simpa using hbox.2⟩
        length_boxes := by simpa using Nat.succ_le_of_lt hbox.1 } h
  | case7 l token rest hslash himage hattachment hbox hrepeat more ih =>
      rw [Bool.and_eq_true] at hrepeat
      exact ih { hl with
        repeats := List.forall_mem_cons.mpr ⟨hrepeat.2, fun t ht => List.mem_takeWhile_imp ht⟩
        length_repeats := Nat.succ_le_succ (length_takeWhile_take_le _ rest 1) } h
  | case8 l token rest hslash himage hattachment hbox hrepeat hposition more ih =>
      rw [Bool.and_eq_true] at hposition
      exact ih { hl with
        position := List.forall_mem_cons.mpr ⟨hposition.2, fun t ht => List.mem_takeWhile_imp ht⟩
        length_position := Nat.succ_le_succ (length_takeWhile_take_le _ rest 3)
        placed := fun _ => List.cons_ne_nil _ _ } h
  | case9 l token rest hslash himage hattachment hbox hrepeat hposition hcolor ih =>
      rw [Bool.and_eq_true] at hcolor
      exact ih { hl with color := by simpa using hcolor.2 } h
  | case10 => cases h

/-- Nothing is found that is not among the tokens. -/
theorem mem_of_layerFrom? (h : layerFrom? profile l tokens = some found) {token : String}
    (htoken : token ∈ found.tokens) : token ∈ l.tokens ∨ token ∈ tokens := by
  fun_induction layerFrom? profile l tokens with
  | case1 l =>
      cases h
      exact .inl htoken
  | case2 => cases h
  | case3 l slash rest hslash size hsize ih =>
      have hmore : ∀ t ∈ size, t ∈ rest := fun t => mem_of_mem_takeWhile_take
      have hrest := fun (h : token ∈ rest.drop size.length) => List.mem_of_mem_drop h
      grind [Layer.mem_tokens]
  | case7 l first rest hslash himage hattachment hbox hrepeat more ih =>
      have hmore : ∀ t ∈ more, t ∈ rest := fun t => mem_of_mem_takeWhile_take
      have hrest := fun (h : token ∈ rest.drop more.length) => List.mem_of_mem_drop h
      grind [Layer.mem_tokens]
  | case8 l first rest hslash himage hattachment hbox hrepeat hposition more ih =>
      have hmore : ∀ t ∈ more, t ∈ rest := fun t => mem_of_mem_takeWhile_take
      have hrest := fun (h : token ∈ rest.drop more.length) => List.mem_of_mem_drop h
      grind [Layer.mem_tokens]
  | case10 => cases h
  | _ => grind [Layer.mem_tokens]

end Finding

section FindingAgain

variable {profile : Profile} {l : Layer}

theorem layerFrom?_image {image : Option String} (hl : l.image = none)
    (himage : ∀ token ∈ image, Word.isImage token = true) (rest : Value) :
    layerFrom? profile l (image.toList ++ rest) = layerFrom? profile { l with image } rest := by
  cases image with
  | none => rw [Option.toList_none, List.nil_append, ← hl]
  | some token =>
      have h := himage token rfl
      rw [Option.toList_some, List.singleton_append, layerFrom?,
        Word.ne_slash_of (p := Word.isImage) (by decide) h]
      simp [hl, h]

theorem layerFrom?_position {position : Value} (hl : l.position = [])
    (hposition : ∀ token ∈ position, Word.isPosition profile token = true) (hlength : position.length ≤ 4)
    {rest : Value} (hrest : ∀ token ∈ rest.head?, Word.isPosition profile token = false) :
    layerFrom? profile l (position ++ rest) = layerFrom? profile { l with position } rest := by
  cases position with
  | nil => rw [List.nil_append, ← hl]
  | cons token more =>
      have h := hposition token List.mem_cons_self
      obtain ⟨hslash, himage, hattachment, hbox, hrepeat⟩ := Word.isPosition_apart h
      have hmore := takeWhile_take_append (fun t ht => hposition t (List.mem_cons_of_mem _ ht))
        (Nat.le_of_succ_le_succ hlength) hrest
      rw [List.cons_append, layerFrom?]
      simp [hslash, himage, hattachment, hbox, hrepeat, hl, h, hmore]

theorem layerFrom?_size {size : Value} (hl : l.size = []) (hplaced : size ≠ [] → l.position ≠ [])
    (hsize : ∀ token ∈ size, Word.isSize profile token = true) (hlength : size.length ≤ 2)
    {rest : Value} (hrest : ∀ token ∈ rest.head?, Word.isSize profile token = false) :
    layerFrom? profile l ((if size.isEmpty then [] else "/" :: size) ++ rest)
      = layerFrom? profile { l with size } rest := by
  by_cases hnil : size = []
  · subst hnil
    rw [List.isEmpty_nil, if_pos rfl, List.nil_append, ← hl]
  · rw [if_neg (by simpa using hnil), List.cons_append, layerFrom?, takeWhile_take_append hsize hlength hrest]
    simp [hl, hnil, hplaced hnil]

theorem layerFrom?_repeats {repeats : Value} (hl : l.repeats = [])
    (hrepeats : ∀ token ∈ repeats, Word.isRepeat token = true) (hlength : repeats.length ≤ 2)
    {rest : Value} (hrest : ∀ token ∈ rest.head?, Word.isRepeat token = false) :
    layerFrom? profile l (repeats ++ rest) = layerFrom? profile { l with repeats } rest := by
  cases repeats with
  | nil => rw [List.nil_append, ← hl]
  | cons token more =>
      have h := hrepeats token List.mem_cons_self
      obtain ⟨hslash, himage, hattachment, hbox⟩ := Word.isRepeat_apart h
      have hmore := takeWhile_take_append (fun t ht => hrepeats t (List.mem_cons_of_mem _ ht))
        (Nat.le_of_succ_le_succ hlength) hrest
      rw [List.cons_append, layerFrom?]
      simp [hslash, himage, hattachment, hbox, hl, h, hmore]

theorem layerFrom?_attachment {attachment : Option String} (hl : l.attachment = none)
    (hattachment : ∀ token ∈ attachment, Word.isAttachment token = true) (rest : Value) :
    layerFrom? profile l (attachment.toList ++ rest) = layerFrom? profile { l with attachment } rest := by
  cases attachment with
  | none => rw [Option.toList_none, List.nil_append, ← hl]
  | some token =>
      have h := hattachment token rfl
      obtain ⟨hslash, himage⟩ := Word.isAttachment_apart h
      rw [Option.toList_some, List.singleton_append, layerFrom?]
      simp [hslash, himage, hl, h]

theorem layerFrom?_boxes {boxes : Value} (hboxes : ∀ token ∈ boxes, Word.isBox token = true)
    (hlength : l.boxes.length + boxes.length ≤ 2) (rest : Value) :
    layerFrom? profile l (boxes ++ rest) = layerFrom? profile { l with boxes := l.boxes ++ boxes } rest := by
  induction boxes generalizing l with
  | nil => simp
  | cons token boxes ih =>
      have h := hboxes token List.mem_cons_self
      obtain ⟨hslash, himage, hattachment⟩ := Word.isBox_apart h
      have hroom : l.boxes.length < 2 := by
        rw [List.length_cons] at hlength
        omega
      rw [List.cons_append, layerFrom?]
      simp only [hslash, himage, hattachment, Bool.and_false, Bool.false_eq_true, if_false, hroom, h,
        decide_true, Bool.and_true, if_true]
      rw [ih (fun t ht => hboxes t (List.mem_cons_of_mem _ ht)) (by
        rw [List.length_cons] at hlength
        rw [List.length_append, List.length_singleton]
        omega)]
      simp

theorem layerFrom?_color {color : Option String} (hl : l.color = none)
    (hcolor : ∀ token ∈ color, Word.isColor token = true) :
    layerFrom? profile l color.toList = some { l with color } := by
  cases color with
  | none =>
      rw [Option.toList_none, layerFrom?, ← hl]
  | some token =>
      have h := hcolor token rfl
      obtain ⟨hslash, himage, hattachment, hbox, hrepeat, hposition⟩ := Word.isColor_apart h
      rw [Option.toList_some, layerFrom?]
      simp [hslash, himage, hattachment, hbox, hrepeat, hposition profile, hl, h, layerFrom?]

/-- Parts that fit are found in their tokens. -/
theorem layerFrom?_tokens (hl : l.Fits profile) : layerFrom? profile {} l.tokens = some l := by
  have hboxes : ∀ token ∈ l.boxes ++ l.color.toList, Word.isBox token = true ∨ Word.isColor token = true := by
    intro token htoken
    rcases List.mem_append.mp htoken with htoken | htoken
    · exact .inl (hl.boxes token htoken)
    · exact .inr (hl.color token (Option.mem_toList.mp htoken))
  have hattachment : ∀ token ∈ l.attachment.toList ++ (l.boxes ++ l.color.toList),
      Word.isAttachment token = true ∨ Word.isBox token = true ∨ Word.isColor token = true := by
    intro token htoken
    rcases List.mem_append.mp htoken with htoken | htoken
    · exact .inl (hl.attachment token (Option.mem_toList.mp htoken))
    · exact .inr (hboxes token htoken)
  have hrepeats : ∀ token ∈ l.repeats ++ (l.attachment.toList ++ (l.boxes ++ l.color.toList)),
      Word.isPosition profile token = false ∧ Word.isSize profile token = false := by
    intro token htoken
    refine Word.not_length_of_later profile ?_
    rcases List.mem_append.mp htoken with htoken | htoken
    · exact .inl (hl.repeats token htoken)
    · exact .inr (hattachment token htoken)
  have hsize : ∀ token ∈ ((if l.size.isEmpty then [] else "/" :: l.size)
      ++ (l.repeats ++ (l.attachment.toList ++ (l.boxes ++ l.color.toList)))).head?,
      Word.isPosition profile token = false := by
    intro token htoken
    cases hsize : l.size with
    | nil =>
        rw [hsize] at htoken
        exact (hrepeats token (List.mem_of_mem_head? htoken)).1
    | cons first more =>
        rw [hsize] at htoken
        cases htoken
        exact Word.isPosition_slash profile
  refine (layerFrom?_image rfl hl.image _).trans ?_
  refine (layerFrom?_position rfl hl.position hl.length_position hsize).trans ?_
  refine (layerFrom?_size rfl ?_ hl.size hl.length_size ?_).trans ?_
  · exact hl.placed
  · exact fun token htoken => (hrepeats token (List.mem_of_mem_head? htoken)).2
  refine (layerFrom?_repeats rfl hl.repeats hl.length_repeats ?_).trans ?_
  · exact fun token htoken => Word.not_repeat_of_later (hattachment token (List.mem_of_mem_head? htoken))
  refine (layerFrom?_attachment rfl hl.attachment _).trans ?_
  refine (layerFrom?_boxes hl.boxes (by simpa using hl.length_boxes) _).trans ?_
  exact layerFrom?_color rfl hl.color

end FindingAgain

end Split

end CssMinify
