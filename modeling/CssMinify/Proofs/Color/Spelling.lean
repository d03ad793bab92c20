import CssMinify.Proofs.Color.Digits
import Mathlib.Data.List.Nodup

/-! The spelling picked for a color. A text denotes a color as digits behind a number sign, as a call of a
function or by name. Which calls are read, and as what, is left open here; a call takes at least seven bytes,
and that is all that matters. What is picked for a text denotes the color that the text denotes, is picked for
itself, and takes no more bytes than any other text that denotes the color. -/

namespace CssMinify

namespace Color

open Text

section Names

theorem firstShortest?_mem {texts : List String} {text : String} (h : firstShortest? texts = some text) :
    text ∈ texts := by
  induction texts generalizing text with
  | nil => cases h
  | cons a rest ih =>
      rw [firstShortest?] at h
      split at h
      · next b hb =>
          split at h <;> cases h
          · exact List.mem_cons_of_mem a (ih hb)
          · exact List.mem_cons_self
      · cases h
        exact List.mem_cons_self

/-- The first of the shortest texts is no longer than any of them. -/
theorem exists_firstShortest?_le {texts : List String} {text : String} (h : text ∈ texts) :
    ∃ best, firstShortest? texts = some best ∧ byteLength best ≤ byteLength text := by
  induction texts with
  | nil => cases h
  | cons a rest ih =>
      rw [firstShortest?]
      rcases List.mem_cons.mp h with rfl | hrest
      · split
        · split
          · next hlt => exact ⟨_, rfl, Nat.le_of_lt hlt⟩
          · exact ⟨_, rfl, Nat.le_refl _⟩
        · exact ⟨_, rfl, Nat.le_refl _⟩
      · obtain ⟨best, hbest, hle⟩ := ih hrest
        simp only [hbest]
        split
        · exact ⟨_, rfl, hle⟩
        · next hnot => exact ⟨_, rfl, by omega⟩

theorem mem_names_of_name? {c : Color} {name : String} (h : c.name? = some name) : (name, c) ∈ names := by
  rw [name?] at h
  split at h
  · obtain ⟨⟨name', c'⟩, hmem, rfl⟩ := List.mem_map.mp (firstShortest?_mem h)
    obtain ⟨hmem, hcolor⟩ := List.mem_filter.mp hmem
    rwa [beq_iff_eq.mp hcolor] at hmem
  · cases h

/-- No two short names are the same. -/
theorem nodup_shortNames : ((names.filter fun pair => Text.byteLength pair.1 < 7).map Prod.fst).Nodup := by
  decide +kernel

/-- The table has solid colors only. -/
theorem checked_of_mem_names : ∀ pair ∈ names, pair.1 ≠ "transparent" ∧ pair.2.alpha = 255 := by
  decide +kernel

theorem ne_transparent : ∀ pair ∈ names, pair.1 ≠ "transparent" := fun pair h => (checked_of_mem_names pair h).1

theorem isPlain_of_mem_names {pair : String × Color} (h : pair ∈ names) :
    ∀ c ∈ pair.1.toList, (c.isLower || c == '-') = true := by
  have hword : pair.1 ∈ Word.colorWords := by simp [Word.colorWords, List.mem_map_of_mem (f := Prod.fst) h]
  exact List.all_eq_true.mp (List.all_eq_true.mp Word.arePlain_colorWords _ hword)

theorem lower_of_mem_names {pair : String × Color} (h : pair ∈ names) : Text.lower pair.1 = pair.1 :=
  Text.lower_of_mem Word.arePlain_colorWords (by simp [Word.colorWords, List.mem_map_of_mem (f := Prod.fst) h])

/-- A short name is read as the color that it stands for. -/
theorem ofName?_of_mem_names {pair : String × Color} (h : pair ∈ names) (hshort : Text.byteLength pair.1 < 7) :
    ofName? pair.1 = some pair.2 := by
  have hfound : (names.find? fun other => other.1 == pair.1).isSome = true :=
    List.find?_isSome.mpr ⟨pair, h, beq_self_eq_true _⟩
  obtain ⟨other, hother⟩ := Option.isSome_iff_exists.mp hfound
  have hname : other.1 = pair.1 := beq_iff_eq.mp (List.find?_some (p := fun q : String × Color => q.1 == pair.1) hother)
  have hmem (q : String × Color) (hq : q ∈ names) (hlength : Text.byteLength q.1 < 7) :
      q ∈ names.filter fun pair => Text.byteLength pair.1 < 7 :=
    List.mem_filter.mpr ⟨hq, decide_eq_true hlength⟩
  have hsame := List.inj_on_of_nodup_map nodup_shortNames
    (hmem other (List.mem_of_find?_eq_some hother) (hname ▸ hshort)) (hmem pair h hshort) hname
  have hne : (pair.1 == "transparent") = false := beq_eq_false_iff_ne.mpr (ne_transparent pair h)
  simp only [ofName?, lower_of_mem_names h, hne, Bool.false_eq_true, if_false, hother, hsame, Option.map_some]

theorem occursIn_singleton (c : Char) (s : List Char) (h : c ∉ s) : Text.occursIn [c] s = false := by
  induction s with
  | nil => rfl
  | cons a s ih =>
      rw [List.mem_cons, not_or] at h
      simp [Text.occursIn, List.isPrefixOf, ih h.2, h.1]

/-- A name of the table has no mark of other spellings in it. -/
theorem marks_of_mem_names {pair : String × Color} (h : pair ∈ names) :
    Text.afterStart? pair.1 "#" = none ∧ Text.contains pair.1 "(" = false := by
  have hplain := isPlain_of_mem_names h
  constructor
  · rw [Text.afterStart?, if_neg]
    intro hstart
    have hmem : '#' ∈ pair.1.toList := (List.isPrefixOf_iff_prefix.mp hstart).subset (by simp)
    exact absurd (hplain '#' hmem) (by decide)
  · refine occursIn_singleton '(' _ fun hmem => ?_
    exact absurd (hplain '(' hmem) (by decide)

end Names

section Spelling

theorem spelling_cases (c : Color) :
    c.spelling = c.hex ∨ (c.spelling, c) ∈ names ∧ Text.byteLength c.spelling < 7 := by
  rw [spelling]
  split
  · next name hname =>
      split
      · next hshorter => exact .inr ⟨mem_names_of_name? hname, hshorter.trans_le (byteLength_hex_le c)⟩
      · exact .inl rfl
  · exact .inl rfl

theorem isColor_spelling (c : Color) : Word.isColor c.spelling = true := by
  rcases spelling_cases c with h | ⟨h, -⟩
  · rw [h, Word.isColor, (hex_spec c).2.1]
    rfl
  · have hname : isName c.spelling = true :=
      List.any_eq_true.mpr ⟨_, h, by simp only [lower_of_mem_names h, beq_self_eq_true]⟩
    simp [Word.isColor, Word.isNamedColor, hname]

theorem byteLength_spelling_le (c : Color) : byteLength c.spelling ≤ byteLength c.hex := by
  rw [spelling]
  split
  · split
    · next hlt => exact Nat.le_of_lt hlt
    · exact Nat.le_refl _
  · exact Nat.le_refl _

/-- The name of a color is no shorter than what is picked for it. -/
theorem byteLength_spelling_le_of_mem_names :
    ∀ pair ∈ names, byteLength pair.2.spelling ≤ byteLength pair.1 := by
  intro pair hpair
  have hsolid : (pair.2.alpha == 255) = true := beq_iff_eq.mpr (checked_of_mem_names pair hpair).2
  have hmem : pair.1 ∈ (names.filter fun entry => entry.2 == pair.2).map Prod.fst :=
    List.mem_map_of_mem (List.mem_filter.mpr ⟨hpair, beq_self_eq_true pair.2⟩)
  obtain ⟨best, hbest, hle⟩ := exists_firstShortest?_le hmem
  have hname : pair.2.name? = some best := by
    rw [name?, if_pos hsolid]
    exact hbest
  rw [spelling, hname]
  simp only
  split
  · exact hle
  · omega

end Spelling

section Calls

/-- A function name and three or four arguments in parentheses. -/
def IsCall (text : String) : Prop :=
  ∃ name inner, text = name ++ "(" ++ inner ++ ")" ∧
    ((argumentTexts inner).length = 3 ∨ (argumentTexts inner).length = 4)

/-- Whatever the reader has a color for is a call. Only folded texts are handed to it. -/
def ReadsCalls (read : String → Option Color) : Prop :=
  ∀ text c, read (lower text) = some c → IsCall (lower text)

/-- Arguments take a character each, and one more between any two. -/
theorem length_argumentTexts_le (inner : String) :
    2 * (argumentTexts inner).length ≤ inner.toList.length + 1 := by
  -- A text that starts with a separator, or is empty, has one character to spare.
  have hcount (cs : List Char) :
      2 * ((splitWhere isArgumentSeparator cs).filter (!·.isEmpty)).length ≤ cs.length + 1 ∧
      ((splitWhere isArgumentSeparator cs).head?.all (·.isEmpty) = true →
        2 * ((splitWhere isArgumentSeparator cs).filter (!·.isEmpty)).length ≤ cs.length) := by
    induction cs with
    | nil => simp [splitWhere]
    | cons c cs ih =>
        rw [splitWhere]
        split
        · simp only [List.isEmpty_nil, Bool.not_true, Bool.false_eq_true, not_false_eq_true,
            List.filter_cons_of_neg, List.length_cons]
          omega
        · cases hpieces : splitWhere isArgumentSeparator cs with
          | nil => exact absurd hpieces (splitWhere_ne_nil _ _)
          | cons piece pieces =>
              rw [hpieces] at ih
              refine ⟨?_, by simp⟩
              cases piece with
              | nil =>
                  have hle := ih.2 rfl
                  simp only [List.isEmpty_nil, Bool.not_true, Bool.false_eq_true, not_false_eq_true,
                    List.filter_cons_of_neg] at hle
                  simp only [List.isEmpty_cons, Bool.not_false, List.filter_cons_of_pos, List.length_cons]
                  omega
              | cons d piece =>
                  have hle := ih.1
                  simp only [List.isEmpty_cons, Bool.not_false, List.filter_cons_of_pos, List.length_cons] at hle ⊢
                  omega
  rw [argumentTexts, List.length_map]
  exact (hcount inner.toList).1

theorem seven_le_length_of_isCall {text : String} (h : IsCall text) : 7 ≤ text.toList.length := by
  obtain ⟨name, inner, rfl, hlength⟩ := h
  have hle := length_argumentTexts_le inner
  have hmarks : ("(".toList).length = 1 ∧ (")".toList).length = 1 := ⟨rfl, rfl⟩
  simp only [String.toList_append, List.length_append, hmarks]
  omega

/-- What is read as a function is a call. -/
theorem readsCalls_ofFunction? : ReadsCalls ofFunction? := by
  intro text c h
  simp only [ofFunction?, Option.bind_eq_bind, Option.bind_eq_some_iff, Prod.exists, lower_lower] at h
  obtain ⟨name, rest, hcut, inner, hinner, h⟩ := h
  have htext : lower text = name ++ "(" ++ rest := by
    rw [cutAtFirst?, List.span_eq_takeWhile_dropWhile] at hcut
    split at hcut
    · cases hcut
    · next found after heq =>
        obtain ⟨hbefore, hafter⟩ := Prod.mk.inj heq
        obtain ⟨hname, hrest⟩ := Prod.mk.inj (Option.some.inj hcut)
        have hfound : (found != '(') = false := by
          have hhead := List.head?_dropWhile_not (· != '(') (lower text).toList
          rw [hafter, List.head?_cons] at hhead
          simpa using hhead
        have hparen : found = '(' := by simpa using hfound
        rw [← String.toList_inj, String.toList_append, String.toList_append, ← hname, ← hrest,
          String.toList_ofList, String.toList_ofList, String.toList_ofList, ← hbefore, List.append_assoc]
        conv_lhs => rw [← List.takeWhile_append_dropWhile (p := (· != '(')) (l := (lower text).toList), hafter, hparen]
        rfl
  have hrest : rest = inner ++ ")" := by
    rw [beforeEnd?] at hinner
    split at hinner
    case isFalse => cases hinner
    next hends =>
    obtain ⟨front, hfront⟩ := List.isSuffixOf_iff_suffix.mp hends
    rw [← Option.some.inj hinner, ← String.toList_inj, String.toList_append, String.toList_ofList, ← hfront,
      List.length_append, Nat.add_sub_cancel, List.take_left]
  refine ⟨name, inner, by rw [htext, hrest, ← String.append_assoc], ?_⟩
  split at h
  · next heq =>
      rw [heq]
      exact .inl rfl
  · next heq =>
      rw [heq]
      exact .inr rfl
  · cases h

end Calls

section Denoting

/-- The text denotes the color, as digits behind a number sign, as a call or by name. -/
inductive Denotes (read : String → Option Color) (text : String) (c : Color) : Prop
  | digits (digits : String) (hsign : afterStart? text "#" = some digits) (hread : ofHex? digits = some c)
  | call (hread : read (lower text) = some c)
  | name (hname : ofName? text = some c)

/-- The text is a name of the color, or its three or six digits. -/
inductive Spells (text : String) (c : Color) : Prop
  | name (hname : ofName? text = some c)
  | digits (digits : String) (htext : text = "#" ++ digits)
      (hlength : digits.toList.length = 3 ∨ digits.toList.length = 6) (hread : ofHex? digits = some c)

variable {read : String → Option Color} {text short : String} {c c' : Color}

theorem ofName?_lower (text : String) : ofName? (lower text) = ofName? text := by
  rw [ofName?, ofName?, lower_lower]

/-- A text denotes what it denotes once it is folded. -/
theorem denotes_lower : Denotes read (lower text) c ↔ Denotes read text c := by
  constructor
  · intro h
    cases h with
    | digits digits hsign hread =>
        rw [afterSign_lower, Option.map_eq_some_iff] at hsign
        obtain ⟨digits, hsign, rfl⟩ := hsign
        exact .digits digits hsign (by rwa [ofHex?_lower] at hread)
    | call hread => exact .call (by rwa [lower_lower] at hread)
    | name hname => exact .name (by rwa [ofName?_lower] at hname)
  · intro h
    cases h with
    | digits digits hsign hread =>
        exact .digits (lower digits) (by rw [afterSign_lower, hsign, Option.map_some]) ((ofHex?_lower digits).trans hread)
    | call hread => exact .call (by rwa [lower_lower])
    | name hname => exact .name (by rwa [ofName?_lower])

/-- What names a color is the word for no color or stands in the table. -/
theorem mem_names_of_ofName? (h : ofName? text = some c) :
    lower text = "transparent" ∧ c = transparent ∨ (lower text, c) ∈ names := by
  rw [ofName?] at h
  split at h
  · next hword => exact .inl ⟨beq_iff_eq.mp hword, (Option.some.inj h).symm⟩
  · obtain ⟨pair, hpair, rfl⟩ := Option.map_eq_some_iff.mp h
    have hname : pair.1 = lower text :=
      beq_iff_eq.mp (List.find?_some (p := fun q : String × Color => q.1 == lower text) hpair)
    rw [← hname]
    exact .inr (List.mem_of_find?_eq_some hpair)

/-- The marks tell the three ways of denoting a color apart. -/
theorem notMem_of_ofName? {mark : Char} (hmark : (mark.isLower || mark == '-') = false)
    (h : ofName? text = some c) : mark ∉ (lower text).toList := by
  intro hmem
  have hplain : (mark.isLower || mark == '-') = true := by
    rcases mem_names_of_ofName? h with ⟨hword, -⟩ | hname
    · have hall : ("transparent".toList.all fun d => d.isLower || d == '-') = true := by decide
      rw [hword] at hmem
      exact List.all_eq_true.mp hall mark hmem
    · exact isPlain_of_mem_names hname mark hmem
  rw [hmark] at hplain
  cases hplain

theorem notMem_of_ofHex? {mark : Char} (hmark : hexValue? mark = none) {digits : String}
    (h : ofHex? digits = some c) : mark ∉ digits.toList := by
  intro hmem
  obtain ⟨ns, hns, -⟩ := Option.bind_eq_some_iff.mp h
  obtain ⟨n, -, hn⟩ := Property.exists_of_mem_left (forall₂_of_mapM hns) hmem
  rw [hmark] at hn
  cases hn

theorem mem_of_isCall (h : IsCall text) : '(' ∈ text.toList := by
  obtain ⟨name, inner, rfl, -⟩ := h
  simp

/-- No text denotes two colors. -/
theorem Denotes.unique (hreads : ReadsCalls read) (h : Denotes read text c) (h' : Denotes read text c') :
    c = c' := by
  rw [← denotes_lower] at h h'
  have hcall {c : Color} (hread : read (lower (lower text)) = some c) : '(' ∈ (lower text).toList := by
    rw [lower_lower] at hread
    exact mem_of_isCall (hreads text c hread)
  have hdigits {digits : String} {c : Color} (hsign : afterStart? (lower text) "#" = some digits)
      (hread : ofHex? digits = some c) : '#' ∈ (lower text).toList ∧ '(' ∉ (lower text).toList := by
    have hnot : '(' ∉ digits.toList := notMem_of_ofHex? (by decide) hread
    rw [toList_of_afterSign hsign]
    exact ⟨List.mem_cons_self, by simpa using hnot⟩
  have hname {mark : Char} (hmark : (mark.isLower || mark == '-') = false) {c : Color}
      (hname : ofName? (lower text) = some c) : mark ∉ (lower text).toList := by
    rw [ofName?_lower] at hname
    exact notMem_of_ofName? hmark hname
  cases h with
  | digits digits hsign hread =>
      cases h' with
      | digits digits' hsign' hread' =>
          obtain rfl := Option.some.inj (hsign.symm.trans hsign')
          exact Option.some.inj (hread.symm.trans hread')
      | call hread' => exact absurd (hcall hread') (hdigits hsign hread).2
      | name hname' => exact absurd (hdigits hsign hread).1 (hname (by decide) hname')
  | call hread =>
      cases h' with
      | digits digits' hsign' hread' => exact absurd (hcall hread) (hdigits hsign' hread').2
      | call hread' => exact Option.some.inj (hread.symm.trans hread')
      | name hname' => exact absurd (hcall hread) (hname (by decide) hname')
  | name hname' =>
      cases h' with
      | digits digits' hsign' hread' => exact absurd (hdigits hsign' hread').1 (hname (by decide) hname')
      | call hread' => exact absurd (hcall hread') (hname (by decide) hname')
      | name hname'' => exact Option.some.inj (hname'.symm.trans hname'')

/-- No text that denotes a color is shorter than the spelling of the color. -/
theorem Denotes.byteLength_spelling_le (hreads : ReadsCalls read) (h : Denotes read text c) :
    byteLength c.spelling ≤ byteLength text := by
  have hle := Color.byteLength_spelling_le c
  cases h with
  | digits digits hsign hread =>
      have hhex := byteLength_hex_le_of_ofHex? hread
      have htext := length_le_byteLength text
      rw [toList_of_afterSign hsign, List.length_cons] at htext
      omega
  | call hread =>
      have hhex := byteLength_hex_le c
      have hlength := seven_le_length_of_isCall (hreads text c hread)
      have htext := length_le_byteLength (lower text)
      rw [byteLength_lower] at htext
      omega
  | name hname =>
      rw [← byteLength_lower text]
      rcases mem_names_of_ofName? hname with ⟨hword, rfl⟩ | hname
      · rw [hword]
        decide
      · exact byteLength_spelling_le_of_mem_names (lower text, c) hname

theorem Spells.denotes (h : Spells text c) : Denotes read text c := by
  cases h with
  | name hname => exact .name hname
  | digits digits htext hlength hread =>
      refine .digits digits ?_ hread
      rw [htext]
      simp [afterStart?, startsWith]

theorem spells_spelling (hsolid : c.isSolid = true) : Spells c.spelling c := by
  have halpha : { c with alpha := 255 } = c := by
    rw [isSolid, beq_iff_eq] at hsolid
    rw [← hsolid]
  rcases spelling_cases c with h | ⟨hmem, hshort⟩
  · obtain ⟨-, -, digits, hdigits, hcolor⟩ := hex_spec c
    have htext := toList_of_afterSign hdigits
    rw [halpha] at hcolor
    rw [h]
    refine .digits digits ?_ ?_ hcolor
    · rw [← String.toList_inj, htext, String.toList_append]
      rfl
    · have hlength : c.hex.toList.length = 4 ∨ c.hex.toList.length = 7 := by
        rcases hex_cases c with ⟨hhex, -⟩ | ⟨hhex, -⟩ <;> simp [hhex]
      rw [htext, List.length_cons] at hlength
      omega
  · have hname : ofName? c.spelling = some c := @ofName?_of_mem_names (c.spelling, c) hmem hshort
    exact .name hname

end Denoting

section Shortest

variable {read : String → Option Color} {text token short : String} {c : Color}

/-- The shortest spelling of an opaque color token, where calls of color functions are read by `read`. -/
def shortestBy? (read : String → Option Color) (token : String) : Option String :=
  let lower := Text.lower token
  let solidSpelling (c : Color) : Option String := if c.isSolid then some c.spelling else none
  match Text.afterStart? lower "#" with
  | some digits => do
    let c ← ofHex? digits
    if c.isSolid then some c.spelling else some lower
  | none =>
    if Text.contains lower "(" then (read lower).bind solidSpelling
    else if lower == "transparent" then none
    else (ofName? lower).bind solidSpelling

theorem shortestBy?_ofFunction? : shortestBy? ofFunction? = shortest? := by
  funext token
  unfold shortestBy? shortest?
  cases Text.afterStart? (Text.lower token) "#" with
  | some digits => rfl
  | none => rfl

/-- An opaque color in its shortest spelling, or the digits of a translucent one folded. -/
inductive Respells (read : String → Option Color) (token short : String) (c : Color) : Prop
  | solid (hdenotes : Denotes read token c) (hsolid : c.isSolid = true) (hshort : short = c.spelling)
  | translucent (digits : String) (hsign : afterStart? token "#" = some digits) (hread : ofHex? digits = some c)
      (hsolid : c.isSolid = false) (hshort : short = lower token)

theorem exists_respells_of_shortestBy? (h : shortestBy? read token = some short) : ∃ c, Respells read token short c := by
  have hsolid (c : Color) (hdenotes : Denotes read (lower token) c)
      (hc : (if c.isSolid then some c.spelling else none) = some short) : Respells read token short c := by
    split at hc
    · next hsolid => exact .solid (denotes_lower.mp hdenotes) hsolid (Option.some.inj hc).symm
    · cases hc
  simp only [shortestBy?] at h
  split at h
  · next digits hdigits =>
      obtain ⟨c, hc, hpick⟩ := Option.bind_eq_some_iff.mp h
      refine ⟨c, ?_⟩
      split at hpick
      · next hs => exact hsolid c (.digits digits hdigits hc) (by rw [if_pos hs]; exact hpick)
      · next hs =>
          rw [afterSign_lower, Option.map_eq_some_iff] at hdigits
          obtain ⟨digits, hdigits, rfl⟩ := hdigits
          rw [ofHex?_lower] at hc
          exact .translucent digits hdigits hc (by simpa using hs) (Option.some.inj hpick).symm
  · split at h
    · obtain ⟨c, hc, h⟩ := Option.bind_eq_some_iff.mp h
      exact ⟨c, hsolid c (.call (by rwa [lower_lower])) h⟩
    · split at h
      · cases h
      · obtain ⟨c, hc, h⟩ := Option.bind_eq_some_iff.mp h
        exact ⟨c, hsolid c (.name hc) h⟩

namespace Respells

theorem denotes (h : Respells read token short c) : Denotes read token c := by
  cases h with
  | solid hdenotes hsolid hshort => exact hdenotes
  | translucent digits hsign hread hsolid hshort => exact .digits digits hsign hread

theorem denotes_short (h : Respells read token short c) : Denotes read short c := by
  cases h with
  | solid hdenotes hsolid hshort =>
      rw [hshort]
      exact (spells_spelling hsolid).denotes
  | translucent digits hsign hread hsolid hshort =>
      rw [hshort, denotes_lower]
      exact .digits digits hsign hread

theorem byteLength_le (hreads : ReadsCalls read) (h : Respells read token short c) :
    byteLength short ≤ byteLength token := by
  cases h with
  | solid hdenotes hsolid hshort =>
      rw [hshort]
      exact hdenotes.byteLength_spelling_le hreads
  | translucent digits hsign hread hsolid hshort => rw [hshort, byteLength_lower]

theorem isColor (h : Respells read token short c) : Word.isColor short = true := by
  cases h with
  | solid hdenotes hsolid hshort =>
      rw [hshort]
      exact isColor_spelling c
  | translucent digits hsign hread hsolid hshort =>
      have hdigits : afterStart? (lower token) "#" = some (lower digits) := by
        rw [afterSign_lower, hsign, Option.map_some]
      rw [hshort, Word.isColor, isHexColor_of_ofHex? hdigits ((ofHex?_lower digits).trans hread)]
      rfl

/-- What was picked is picked again. -/
theorem shortestBy?_short (h : Respells read token short c) : shortestBy? read short = some short := by
  cases h with
  | solid hdenotes hsolid hshort =>
      have halpha : { c with alpha := 255 } = c := by
        rw [isSolid, beq_iff_eq] at hsolid
        rw [← hsolid]
      rw [hshort]
      rcases spelling_cases c with h | ⟨h, hshorter⟩
      · obtain ⟨hlower, -, digits, hdigits, hcolor⟩ := hex_spec c
        have hread : shortestBy? read c.hex = some c.spelling := by
          simp only [shortestBy?, hlower, hdigits, hcolor, halpha, Option.bind_eq_bind, Option.bind_some, hsolid,
            if_true]
        rw [h, hread, h]
      · have hlower := lower_of_mem_names h
        have hne := ne_transparent _ h
        have hcolor := ofName?_of_mem_names h hshorter
        obtain ⟨hsign, hparen⟩ := marks_of_mem_names h
        simp only at hlower hne hcolor hsign hparen
        simp only [shortestBy?, hlower, hsign, hparen, Bool.false_eq_true, if_false, beq_iff_eq, hne, hcolor,
          Option.bind_some, hsolid, if_true]
  | translucent digits hsign hread hsolid hshort =>
      have hlower : ofHex? (lower digits) = some c := (ofHex?_lower digits).trans hread
      simp only [hshort, shortestBy?, lower_lower, afterSign_lower, hsign, Option.map_some, hlower,
        Option.bind_eq_bind, Option.bind_some, hsolid, Bool.false_eq_true, if_false]

end Respells

/-- A normal form of the texts that denote the color, as one of them. Both denote that one color; the spelling
takes no more bytes than the text, and is picked for itself; and of an opaque color it is the shortest among the
names and the three or six digits. -/
structure IsNormal (read : String → Option Color) (token short : String) (c : Color) : Prop where
  denoted : ∀ c', Denotes read token c' ↔ c' = c
  denotes : ∀ c', Denotes read short c' ↔ c' = c
  byteLength_le : byteLength short ≤ byteLength token
  picked : shortestBy? read short = some short
  least : c.isSolid = true → Spells short c ∧ ∀ text, Spells text c → byteLength short ≤ byteLength text

theorem Respells.isNormal (hreads : ReadsCalls read) (h : Respells read token short c) :
    IsNormal read token short c := by
  have honly {text : String} (htext : Denotes read text c) (c' : Color) : Denotes read text c' ↔ c' = c := by
    constructor
    · exact fun h' => h'.unique hreads htext
    · rintro rfl
      exact htext
  refine ⟨honly h.denotes, honly h.denotes_short, h.byteLength_le hreads, h.shortestBy?_short, fun hsolid => ?_⟩
  have hshort : short = c.spelling := by
    cases h with
    | solid hdenotes hsolid hshort => exact hshort
    | translucent digits hsign hread hnot hshort =>
        rw [hsolid] at hnot
        cases hnot
  rw [hshort]
  refine ⟨spells_spelling hsolid, fun text htext => ?_⟩
  have hdenotes : Denotes read text c := htext.denotes
  exact hdenotes.byteLength_spelling_le hreads

/-- Whatever the calls mean, what is picked for a text is a normal form of the color that the text denotes. -/
theorem exists_isNormal_of_shortestBy? (hreads : ReadsCalls read) (h : shortestBy? read token = some short) :
    ∃ c, IsNormal read token short c := by
  obtain ⟨c, hc⟩ := exists_respells_of_shortestBy? h
  exact ⟨c, hc.isNormal hreads⟩

theorem exists_isNormal_of_blue :
    let read (text : String) : Option Color := if text = "rgb(0,0,255)" then some ⟨0, 0, 255, 255⟩ else none
    ReadsCalls read ∧ shortestBy? read "RGB(0,0,255)" = some "#00f" ∧
      ∃ c, IsNormal read "RGB(0,0,255)" "#00f" c := by
  intro read
  have hreads : ReadsCalls read := by
    intro text c hread
    by_cases htext : lower text = "rgb(0,0,255)"
    · rw [htext]
      exact ⟨"rgb", "0,0,255", by decide, .inl (by decide)⟩
    · simp only [read, if_neg htext] at hread
      cases hread
  have hshort : shortestBy? read "RGB(0,0,255)" = some "#00f" := by decide +kernel
  exact ⟨hreads, hshort, exists_isNormal_of_shortestBy? hreads hshort⟩

/-- The spelling that is picked for a token denotes the color of the token, calls read as they are. -/
theorem exists_isNormal_of_shortest? (h : shortest? token = some short) : ∃ c, IsNormal ofFunction? token short c := by
  rw [← shortestBy?_ofFunction?] at h
  obtain ⟨c, hc⟩ := exists_respells_of_shortestBy? h
  exact ⟨c, hc.isNormal readsCalls_ofFunction?⟩

theorem byteLength_shortest?_le (h : shortest? token = some short) : byteLength short ≤ byteLength token := by
  obtain ⟨c, hc⟩ := exists_isNormal_of_shortest? h
  exact hc.byteLength_le

/-- A spelling that was picked is a color, and is picked again. -/
theorem shortest?_of_shortest? (h : shortest? token = some short) :
    Word.isColor short = true ∧ shortest? short = some short := by
  rw [← shortestBy?_ofFunction?] at h ⊢
  obtain ⟨c, hc⟩ := exists_respells_of_shortestBy? h
  exact ⟨hc.isColor, hc.shortestBy?_short⟩

end Shortest

end Color

end CssMinify
