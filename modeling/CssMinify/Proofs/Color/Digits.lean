import CssMinify.Color.Shortest
import CssMinify.Proofs.Effect.Folding
import CssMinify.Proofs.Size.Measures

/-! Digits of colors. What a color is written as in digits is read as the color again, it takes four or seven
bytes, and no other digits that are read as the color take fewer. Folding the case of a text changes neither
its marks nor what its digits are read as. -/

namespace CssMinify

namespace Text

theorem toLower_toLower (c : Char) : c.toLower.toLower = c.toLower := by
  by_cases hlow : c.toNat < 91
  · have hall : ∀ n < 91, (Char.ofNat n).toLower.toLower = (Char.ofNat n).toLower := by decide
    rw [← Char.ofNat_toNat c]
    exact hall c.toNat hlow
  · have hsame : c.toLower = c := toLower_eq_self (by omega)
    rw [hsame, hsame]

theorem lower_lower (s : String) : lower (lower s) = lower s := by
  rw [lower, lower, String.toList_ofList, List.map_map]
  congr 1
  exact List.map_congr_left fun c _ => toLower_toLower c

/-- Folding makes no mark, and leaves the ones there are. -/
theorem toLower_eq_iff {c mark : Char} (hmark : mark.toNat < 65) : c.toLower = mark ↔ c = mark := by
  constructor
  · intro h
    by_cases hupper : c.toNat < 91 ∧ 65 ≤ c.toNat
    · have hall : ∀ n < 91, 65 ≤ n → 65 ≤ (Char.ofNat n).toLower.toNat := by decide
      have hletter := hall c.toNat hupper.1 hupper.2
      rw [Char.ofNat_toNat, h] at hletter
      omega
    · rwa [toLower_eq_self (by omega)] at h
  · rintro rfl
    exact toLower_eq_self (.inl hmark)

theorem hexValue?_toLower (c : Char) : hexValue? c.toLower = hexValue? c := by
  by_cases hlow : c.toNat < 91
  · have hall : ∀ n < 91, hexValue? (Char.ofNat n).toLower = hexValue? (Char.ofNat n) := by decide
    rw [← Char.ofNat_toNat c]
    exact hall c.toNat hlow
  · rw [toLower_eq_self (by omega)]

/-- What stands behind a number sign is folded with the rest of the text. -/
theorem afterSign_lower (text : String) : afterStart? (lower text) "#" = (afterStart? text "#").map lower := by
  have hsign : ("#".toList) = ['#'] := rfl
  have hcons (c : Char) (cs : List Char) :
      ['#'].isPrefixOf (c.toLower :: cs.map Char.toLower) = ['#'].isPrefixOf (c :: cs) := by
    have hiff : ('#' = c.toLower) ↔ ('#' = c) := by
      rw [eq_comm, toLower_eq_iff (by decide), eq_comm]
    simp only [List.isPrefixOf, Bool.and_true, beq_eq_decide, hiff]
  rw [afterStart?, afterStart?, startsWith, startsWith, hsign, lower, String.toList_ofList]
  cases text.toList with
  | nil => rfl
  | cons c cs =>
      rw [List.map_cons, hcons]
      split
      · simp [lower]
      · rfl

end Text

namespace Color

open Text

section Hex

theorem hexValue?_digitChar : ∀ n < 16, Text.hexValue? (Nat.digitChar n) = some n := by decide

theorem toLower_digitChar : ∀ n < 16, (Nat.digitChar n).toLower = Nat.digitChar n := by decide

theorem isHexDigit_digitChar : ∀ n < 16, Text.isHexDigit (Nat.digitChar n) = true := by decide

theorem byteOf_div_mod (b : UInt8) : byteOf (b.toNat / 16) (b.toNat % 16) = b := by
  rw [byteOf, Nat.div_add_mod, UInt8.ofNat_toNat]

/-- The digits of a color: pairs, or one of each pair where the two are the same. -/
theorem hex_cases (c : Color) :
    (c.hex = String.ofList ('#' :: ([c.red, c.green, c.blue].map fun b => b.toNat / 16).map Nat.digitChar) ∧
      ofDigits? ([c.red, c.green, c.blue].map fun b => b.toNat / 16) = some { c with alpha := 255 }) ∨
    (c.hex = String.ofList ('#' ::
        ([c.red, c.green, c.blue].flatMap fun b => [b.toNat / 16, b.toNat % 16]).map Nat.digitChar) ∧
      ofDigits? ([c.red, c.green, c.blue].flatMap fun b => [b.toNat / 16, b.toNat % 16])
        = some { c with alpha := 255 }) := by
  simp only [hex]
  split
  · next hdoubled =>
      left
      simp only [List.all_cons, List.all_nil, Bool.and_true, Bool.and_eq_true, isDoubled, beq_iff_eq] at hdoubled
      obtain ⟨hred, hgreen, hblue⟩ := hdoubled
      refine ⟨rfl, ?_⟩
      have hbyte (b : UInt8) (h : b.toNat / 16 = b.toNat % 16) : byteOf (b.toNat / 16) (b.toNat / 16) = b := by
        conv_lhs => rw [show byteOf (b.toNat / 16) (b.toNat / 16) = byteOf (b.toNat / 16) (b.toNat % 16) by rw [← h]]
        exact byteOf_div_mod b
      simp only [List.map_cons, List.map_nil, ofDigits?, hbyte _ hred, hbyte _ hgreen, hbyte _ hblue]
  · right
    refine ⟨rfl, ?_⟩
    simp only [List.flatMap_cons, List.flatMap_nil, List.cons_append, List.nil_append, ofDigits?, byteOf_div_mod]

/-- The hexadecimal spelling is in lower case, is a color, and is read as the color. -/
theorem hex_spec (c : Color) :
    Text.lower c.hex = c.hex ∧ Word.isHexColor c.hex = true ∧
      ∃ digits, Text.afterStart? c.hex "#" = some digits ∧ ofHex? digits = some { c with alpha := 255 } := by
  have hspec (ns : List Nat) (hlength : [3, 4, 6, 8].contains ns.length = true) (hns : ∀ n ∈ ns, n < 16) :
      let text := String.ofList ('#' :: ns.map Nat.digitChar)
      Text.lower text = text ∧ Word.isHexColor text = true ∧
        ∃ digits, Text.afterStart? text "#" = some digits ∧ ofHex? digits = ofDigits? ns := by
    refine ⟨?_, ?_, String.ofList (ns.map Nat.digitChar), ?_, ?_⟩
    · rw [Text.lower, String.toList_ofList, List.map_cons, List.map_map]
      congr 2
      exact List.map_congr_left fun n hn => toLower_digitChar n (hns n hn)
    · rw [Word.isHexColor, String.toList_ofList]
      simp only [List.length_map, hlength, Bool.true_and, List.all_map, List.all_eq_true]
      exact fun n hn => isHexDigit_digitChar n (hns n hn)
    · simp [Text.afterStart?, Text.startsWith]
    · rw [ofHex?, String.toList_ofList]
      have hread : (ns.map Nat.digitChar).mapM Text.hexValue? = some ns := by
        clear hlength
        induction ns with
        | nil => rfl
        | cons n ns ih =>
            rw [List.map_cons, List.mapM_cons, hexValue?_digitChar n (hns n List.mem_cons_self),
              ih fun m hm => hns m (List.mem_cons_of_mem n hm)]
            rfl
      rw [hread, Option.bind_some]
  have hlt (b : UInt8) : b.toNat / 16 < 16 ∧ b.toNat % 16 < 16 := by
    have := b.toNat_lt
    omega
  rcases hex_cases c with ⟨htext, hcolor⟩ | ⟨htext, hcolor⟩
  · have h := hspec ([c.red, c.green, c.blue].map fun b => b.toNat / 16) rfl (by simp [hlt])
    rw [← htext, hcolor] at h
    exact h
  · have h := hspec ([c.red, c.green, c.blue].flatMap fun b => [b.toNat / 16, b.toNat % 16]) rfl (by simp [hlt])
    rw [← htext, hcolor] at h
    exact h

theorem byteLength_hex (c : Color) :
    Text.byteLength c.hex = if [c.red, c.green, c.blue].all isDoubled then 4 else 7 := by
  have hdigits : ∀ n < 16, (Nat.digitChar n).utf8Size = 1 := by decide
  have hlength (ns : List Nat) (hns : ∀ n ∈ ns, n < 16) :
      Text.byteLength (String.ofList (ns.map Nat.digitChar)) = ns.length := by
    induction ns with
    | nil => rfl
    | cons n ns ih =>
        have hrest := ih fun m hm => hns m (List.mem_cons_of_mem n hm)
        rw [Text.byteLength] at hrest ⊢
        rw [List.map_cons, String.ofList_cons, String.utf8ByteSize_append, String.utf8ByteSize_singleton,
          hdigits n (hns n List.mem_cons_self), hrest, List.length_cons, Nat.add_comm]
  have hlt (b : UInt8) : b.toNat / 16 < 16 ∧ b.toNat % 16 < 16 := by
    have := b.toNat_lt
    omega
  have hsign : ('#').utf8Size = 1 := by decide
  have hsigned (ns : List Nat) (hns : ∀ n ∈ ns, n < 16) :
      Text.byteLength (String.ofList ('#' :: ns.map Nat.digitChar)) = 1 + ns.length := by
    have hrest := hlength ns hns
    rw [Text.byteLength] at hrest ⊢
    rw [String.ofList_cons, String.utf8ByteSize_append, String.utf8ByteSize_singleton, hsign, hrest]
  simp only [hex]
  split
  · have htext := hsigned ([c.red, c.green, c.blue].map fun b => b.toNat / 16) (by simp [hlt])
    rw [List.length_map] at htext
    exact htext
  · have htext := hsigned ([c.red, c.green, c.blue].flatMap fun b => [b.toNat / 16, b.toNat % 16]) (by simp [hlt])
    rw [List.length_flatMap] at htext
    exact htext

theorem byteLength_hex_le (c : Color) : Text.byteLength c.hex ≤ 7 := by
  rw [byteLength_hex]
  split <;> decide

theorem toList_of_afterSign {text digits : String} (h : Text.afterStart? text "#" = some digits) :
    text.toList = '#' :: digits.toList := by
  rw [Text.afterStart?] at h
  split at h
  case isFalse => cases h
  next hstart =>
  have hprefix := List.prefix_iff_eq_append.mp (List.isPrefixOf_iff_prefix.mp hstart)
  rw [← Option.some.inj h, String.toList_ofList]
  exact hprefix.symm

/-- A number sign and digits that are read as a color. -/
theorem isHexColor_of_ofHex? {text digits : String} {c : Color} (hsign : Text.afterStart? text "#" = some digits)
    (h : ofHex? digits = some c) : Word.isHexColor text = true := by
  have htext := toList_of_afterSign hsign
  obtain ⟨ns, hns, hcolor⟩ := Option.bind_eq_some_iff.mp h
  have hlength : [3, 4, 6, 8].contains digits.toList.length = true := by
    rw [(forall₂_of_mapM hns).length_eq]
    unfold ofDigits? at hcolor
    split at hcolor
    all_goals first | rfl | cases hcolor
  have hdigits : ∀ d ∈ digits.toList, Text.isHexDigit d = true := by
    intro d hd
    obtain ⟨n, -, hn⟩ := Property.exists_of_mem_left (forall₂_of_mapM hns) hd
    rw [Text.hexValue?] at hn
    simp only [Text.isHexDigit, Bool.or_eq_true]
    split at hn
    · next hdigit => exact .inl (.inl hdigit)
    split at hn
    · next hdigit => exact .inl (.inr hdigit)
    split at hn
    · next hdigit => exact .inr hdigit
    · cases hn
  rw [Word.isHexColor, htext]
  simp only [hlength, Bool.true_and, List.all_eq_true]
  exact hdigits

theorem hexValue?_lt {d : Char} {n : Nat} (h : Text.hexValue? d = some n) : n < 16 := by
  have hbound (high : Char) (hle : d ≤ high) : d.toNat ≤ high.toNat := hle
  rw [Text.hexValue?] at h
  split at h
  · next hdigit =>
      have hle : d.toNat ≤ '9'.toNat := by
        rw [Char.isDigit, Bool.and_eq_true, decide_eq_true_eq, decide_eq_true_eq] at hdigit
        exact hdigit.2
      cases h
      exact Nat.lt_of_le_of_lt (Nat.sub_le_sub_right hle _) (by decide)
  split at h
  · next hlow =>
      rw [Bool.and_eq_true, decide_eq_true_eq, decide_eq_true_eq] at hlow
      have hle := Nat.sub_le_sub_right (hbound 'f' hlow.2) 'a'.toNat
      cases h
      exact Nat.lt_of_le_of_lt (Nat.add_le_add_right hle 10) (by decide)
  split at h
  · next hhigh =>
      rw [Bool.and_eq_true, decide_eq_true_eq, decide_eq_true_eq] at hhigh
      have hle := Nat.sub_le_sub_right (hbound 'F' hhigh.2) 'A'.toNat
      cases h
      exact Nat.lt_of_le_of_lt (Nat.add_le_add_right hle 10) (by decide)
  · cases h

/-- Digits that are read as a color spell it in no fewer characters than its own do. -/
theorem byteLength_hex_le_of_ofHex? {digits : String} {c : Color} (h : ofHex? digits = some c) :
    byteLength c.hex ≤ digits.toList.length + 1 := by
  have hdoubled : ∀ n < 16, isDoubled (byteOf n n) = true := by decide
  have hseven := byteLength_hex_le c
  obtain ⟨ns, hns, hcolor⟩ := Option.bind_eq_some_iff.mp h
  have hdigits := forall₂_of_mapM hns
  rw [hdigits.length_eq]
  have hlt : ∀ n ∈ ns, n < 16 := by
    intro n hn
    obtain ⟨d, -, hd⟩ := Property.exists_of_mem_left hdigits.flip hn
    exact hexValue?_lt hd
  have hfour (r g b : Nat) (hr : r ∈ ns) (hg : g ∈ ns) (hb : b ∈ ns)
      (hc : c.red = byteOf r r ∧ c.green = byteOf g g ∧ c.blue = byteOf b b) : byteLength c.hex = 4 := by
    rw [byteLength_hex, hc.1, hc.2.1, hc.2.2]
    simp [hdoubled _ (hlt r hr), hdoubled _ (hlt g hg), hdoubled _ (hlt b hb)]
  unfold ofDigits? at hcolor
  split at hcolor
  case h_1 r g b =>
    have hfour := hfour r g b (by simp) (by simp) (by simp) (by rw [← Option.some.inj hcolor]; simp)
    simp only [List.length_cons, List.length_nil]
    omega
  case h_2 r g b a =>
    have hfour := hfour r g b (by simp) (by simp) (by simp) (by rw [← Option.some.inj hcolor]; simp)
    simp only [List.length_cons, List.length_nil]
    omega
  case h_5 => cases hcolor
  all_goals
    simp only [List.length_cons, List.length_nil]
    omega

theorem ofHex?_lower (digits : String) : ofHex? (lower digits) = ofHex? digits := by
  have hmap (cs : List Char) : (cs.map Char.toLower).mapM hexValue? = cs.mapM hexValue? := by
    induction cs with
    | nil => rfl
    | cons c cs ih => rw [List.map_cons, List.mapM_cons, List.mapM_cons, ih, hexValue?_toLower]
  rw [ofHex?, ofHex?, lower, String.toList_ofList, hmap]

end Hex

end Color

end CssMinify
