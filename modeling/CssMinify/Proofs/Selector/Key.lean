import CssMinify.Selector.Merging

/-! The key of a selector list is the strictly sorted list of its members, so lists with the same members
have the same key. -/

namespace CssMinify

namespace Selector

theorem mem_insert {s t : String} {selectors : List String} :
    t ∈ insert s selectors ↔ t = s ∨ t ∈ selectors := by
  induction selectors with
  | nil => simp [insert]
  | cons u rest ih =>
      unfold insert
      split
      · rw [List.mem_cons]
      · split
        · next heq =>
            subst heq
            simp
        · rw [List.mem_cons, ih, List.mem_cons, or_left_comm]

theorem pairwise_insert {s : String} {selectors : List String} (h : selectors.Pairwise (· < ·)) :
    (insert s selectors).Pairwise (· < ·) := by
  induction selectors with
  | nil => exact List.pairwise_singleton _ s
  | cons u rest ih =>
      have hrest := List.pairwise_cons.mp h
      unfold insert
      split
      · next hlt =>
          rw [List.pairwise_cons, List.forall_mem_cons]
          exact ⟨⟨hlt, fun t ht => String.lt_trans hlt (hrest.1 t ht)⟩, h⟩
      · next hnot =>
          split
          · exact h
          · next hne =>
              have hgt : u < s := by
                rw [← String.not_le]
                intro hle
                exact hne (String.le_antisymm hle (String.not_lt.mp hnot))
              rw [List.pairwise_cons]
              refine ⟨fun t ht => ?_, ih hrest.2⟩
              rcases mem_insert.mp ht with rfl | ht
              · exact hgt
              · exact hrest.1 t ht

theorem mem_key {s : String} {selectors : List String} : s ∈ key selectors ↔ s ∈ selectors := by
  induction selectors with
  | nil => rfl
  | cons t rest ih =>
      rw [key, List.foldr_cons, mem_insert, List.mem_cons]
      exact or_congr_right ih

theorem pairwise_key (selectors : List String) : (key selectors).Pairwise (· < ·) := by
  induction selectors with
  | nil => exact List.Pairwise.nil
  | cons t rest ih => exact pairwise_insert ih

theorem key_congr {as bs : List String} (h : ∀ s, s ∈ as ↔ s ∈ bs) : key as = key bs := by
  have hnodup (selectors : List String) : (key selectors).Nodup :=
    (pairwise_key selectors).imp String.ne_of_lt
  have hperm : (key as).Perm (key bs) := by
    rw [List.perm_ext_iff_of_nodup (hnodup as) (hnodup bs)]
    intro s
    rw [mem_key, mem_key]
    exact h s
  apply hperm.eq_of_pairwise _ (pairwise_key as) (pairwise_key bs)
  intro s t _ _ hst hts
  exact absurd hts (String.lt_asymm hst)

/-- Taking in one list after the other comes to taking in all of them. -/
theorem foldl_union (first : List String) {lists : List (List String)} (h : lists ≠ []) :
    lists.foldl union first = key (first ++ lists.flatten) := by
  induction lists generalizing first with
  | nil => exact absurd rfl h
  | cons list lists ih =>
      rw [List.foldl_cons]
      by_cases hnil : lists = []
      · subst hnil
        simp [union]
      · rw [ih _ hnil]
        apply key_congr
        intro s
        simp only [union, List.mem_append, mem_key, List.flatten_cons, or_assoc]

end Selector

end CssMinify
