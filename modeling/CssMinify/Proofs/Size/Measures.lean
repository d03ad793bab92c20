import CssMinify.Proofs.Codec.Words
import CssMinify.Total
import Mathlib.Data.List.Nodup
import Mathlib.Data.List.Perm.Subperm

/-! Sums over lists, and the bytes of a text as the sum over its characters. -/

namespace CssMinify

section Total

variable {α : Type} (measure : α → Nat)

theorem total_map {β : Type} (f : β → α) (bs : List β) : total measure (bs.map f) = total (measure ∘ f) bs := by
  induction bs with
  | nil => rfl
  | cons b bs ih => rw [List.map_cons, total, total, ih, Function.comp_apply]

theorem total_congr {other : α → Nat} {as : List α} (h : ∀ a ∈ as, measure a = other a) :
    total measure as = total other as := by
  induction as with
  | nil => rfl
  | cons a as ih => rw [total, total, h a List.mem_cons_self, ih fun b hb => h b (List.mem_cons_of_mem a hb)]

theorem total_perm {as bs : List α} (h : as.Perm bs) : total measure as = total measure bs := by
  induction h with
  | nil => rfl
  | cons a _ ih => rw [total, total, ih]
  | swap a b as =>
      simp only [total]
      omega
  | trans _ _ ih ih' => rw [ih, ih']

theorem total_le_of_sublist {as bs : List α} (h : as.Sublist bs) : total measure as ≤ total measure bs := by
  induction h with
  | slnil => exact Nat.le_refl _
  | cons b _ ih =>
      rw [total]
      omega
  | cons_cons a _ ih =>
      rw [total, total]
      omega

/-- Where every element counts, leaving some out takes something off. -/
theorem total_lt_of_sublist (hpos : ∀ a, 0 < measure a) {as bs : List α} (h : as.Sublist bs) (hne : as ≠ bs) :
    total measure as < total measure bs := by
  induction h with
  | slnil => exact absurd rfl hne
  | cons b hsub _ =>
      have hle := total_le_of_sublist measure hsub
      have hb := hpos b
      rw [total]
      omega
  | cons_cons a _ ih =>
      have hlt := ih fun heq => hne (by rw [heq])
      rw [total, total]
      omega

theorem total_le_of_subperm {as bs : List α} (h : as.Subperm bs) : total measure as ≤ total measure bs := by
  obtain ⟨cs, hperm, hsub⟩ := h
  rw [← total_perm measure hperm]
  exact total_le_of_sublist measure hsub

theorem total_filter (p : α → Bool) (as : List α) :
    total measure (as.filter p) + total measure (as.filter (!p ·)) = total measure as := by
  induction as with
  | nil => rfl
  | cons a as ih =>
      cases hp : p a <;> simp only [hp, List.filter_cons, Bool.not_true, Bool.not_false, if_true, total] <;>
        simp <;> omega

/-- Leaving out what stands in another list takes off at least that list. -/
theorem total_filter_not_contains [DecidableEq α] {as bs : List α} (hnodup : as.Nodup) (hsub : as ⊆ bs) :
    total measure (bs.filter fun b => !as.contains b) + total measure as ≤ total measure bs := by
  have hmem : as ⊆ bs.filter as.contains := fun a ha =>
    List.mem_filter.mpr ⟨hsub ha, List.contains_iff_mem.mpr ha⟩
  have hle := total_le_of_subperm measure (List.subperm_of_subset hnodup hmem)
  have hsplit := total_filter measure as.contains bs
  omega

/-- What a list holds once, without repetitions, and the rest of it make up the list. -/
theorem perm_append_filter_not_contains [BEq α] [LawfulBEq α] {as bs : List α} (hnodup : as.Nodup)
    (honce : ∀ a ∈ as, bs.count a = 1) : (as ++ bs.filter fun b => !as.contains b).Perm bs := by
  rw [List.perm_iff_count]
  intro a
  rw [List.count_append]
  by_cases ha : a ∈ as
  · have hnone : (bs.filter fun b => !as.contains b).count a = 0 := by
      rw [List.count_eq_zero]
      simp [ha]
    rw [hnone, honce a ha, List.count_eq_one_of_mem hnodup ha]
  · rw [List.count_eq_zero_of_not_mem ha, List.count_filter (by simpa using ha), Nat.zero_add]

theorem le_total_of_mem {as : List α} {a : α} (h : a ∈ as) : measure a ≤ total measure as := by
  have hsub := total_le_of_sublist measure (List.singleton_sublist.mpr h)
  rw [total, total] at hsub
  omega

end Total

namespace Text

theorem byteLength_append (s t : String) : byteLength (s ++ t) = byteLength s + byteLength t :=
  String.utf8ByteSize_append

/-- The bytes of a text are those of its characters. -/
theorem byteLength_eq (s : String) : byteLength s = total Char.utf8Size s.toList := by
  have hlist (cs : List Char) : byteLength (String.ofList cs) = total Char.utf8Size cs := by
    induction cs with
    | nil => rfl
    | cons c cs ih =>
        rw [byteLength] at ih ⊢
        rw [String.ofList_cons, String.utf8ByteSize_append, String.utf8ByteSize_singleton, ih, total]
  conv_lhs => rw [← String.ofList_toList (s := s)]
  exact hlist s.toList

/-- A character takes at least a byte. -/
theorem length_le_total (cs : List Char) : cs.length ≤ total Char.utf8Size cs := by
  induction cs with
  | nil => exact Nat.le_refl _
  | cons c cs ih =>
      have hpos := c.utf8Size_pos
      rw [total, List.length_cons]
      omega

theorem length_le_byteLength (s : String) : s.toList.length ≤ byteLength s := by
  rw [byteLength_eq]
  exact length_le_total s.toList

theorem utf8Size_toLower (c : Char) : c.toLower.utf8Size = c.utf8Size := by
  by_cases hlow : c.toNat < 91
  · have hall : ∀ n < 91, (Char.ofNat n).toLower.utf8Size = (Char.ofNat n).utf8Size := by decide
    rw [← Char.ofNat_toNat c]
    exact hall c.toNat hlow
  · rw [toLower_eq_self (by omega)]

theorem byteLength_lower (s : String) : byteLength (lower s) = byteLength s := by
  rw [byteLength_eq, byteLength_eq, lower, String.toList_ofList, total_map]
  exact total_congr _ fun c _ => utf8Size_toLower c

end Text

end CssMinify
