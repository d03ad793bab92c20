import CssMinify.Proofs.Moves.Step
import CssMinify.Proofs.Runs.Frame

/-! Dropping and merging siblings by steps. What is merged with something further away travels there first,
down or up, past all that stands between. -/

namespace CssMinify

namespace Siblings

variable {config : Config} {again : List Node → Attempt (List Node)}

section Duplicates

variable {isCopy : Node → Node → Bool}
  (hcopy : ∀ {a b : Node}, isCopy a b = true → Move config again [a, b] [b])

include hcopy

theorem reach_dropCopies {node : Node} {done left : List Node}
    (h : dropCopies config.options.mergeSemantically isCopy node done = .ok left) :
    Reach config again (done ++ [node]) (left ++ [node]) := by
  induction done generalizing left with
  | nil =>
      cases h
      exact .refl
  | cons earlier between ih =>
      rw [dropCopies] at h
      obtain ⟨between', hbetween, h⟩ := Attempt.exists_of_bind h
      have hrest : Reach config again (earlier :: between ++ [node]) (earlier :: between' ++ [node]) :=
        (ih hbetween).after [earlier]
      refine hrest.trans ?_
      split at h
      · next hisCopy =>
          obtain ⟨travels, htravels, h⟩ := Attempt.exists_of_bind h
          cases travels with
          | false =>
              cases h
              exact .refl
          | true =>
              cases h
              have hdown : Reach config again (earlier :: between' ++ [node])
                  (between' ++ [earlier] ++ [node]) :=
                (reach_below again (Node.passes_of_mayTravel htravels)).before [node]
              rw [List.append_assoc] at hdown
              exact hdown.trans ((hcopy hisCopy).reach.after between')
      · cases h
        exact .refl

theorem reach_keepLastFrom {done rest left : List Node}
    (h : keepLastFrom config.options.mergeSemantically isCopy done rest = .ok left) :
    Reach config again (done ++ rest) left := by
  induction rest generalizing done with
  | nil =>
      cases h
      rw [List.append_nil]
  | cons node rest ih =>
      rw [keepLastFrom] at h
      obtain ⟨done', hdone, h⟩ := Attempt.exists_of_bind h
      have hfirst := (reach_dropCopies hcopy hdone).before rest
      rw [List.append_assoc, List.singleton_append] at hfirst
      exact hfirst.trans (ih h)

end Duplicates

theorem move_of_isRepeatedRule {a b : Node} (h : isRepeatedRule a b = true) : Move config again [a, b] [b] := by
  unfold isRepeatedRule Node.plainRules at h
  split at h
  · next r s hr hs =>
      obtain ⟨rfl, hrnested⟩ := Node.of_plainRule? hr
      obtain ⟨rfl, hsnested⟩ := Node.of_plainRule? hs
      rw [Bool.and_eq_true] at h
      exact .dropRule hrnested hsnested h.1 h.2
  · cases h

theorem reach_removeDuplicateRules {nodes left : List Node} (h : removeDuplicateRules config nodes = .ok left) :
    Reach config again nodes left :=
  reach_keepLastFrom move_of_isRepeatedRule h

theorem move_of_isRepeatedMedia {a b : Node} (h : isRepeatedMedia a b = true) :
    Move config again [a, b] [b] := by
  rw [isRepeatedMedia, Bool.and_eq_true, beq_iff_eq] at h
  obtain ⟨hmedia, rfl⟩ := h
  exact .dropMedia hmedia

theorem reach_removeDuplicateMedia {nodes left : List Node} (h : removeDuplicateMedia config nodes = .ok left) :
    Reach config again nodes left :=
  reach_keepLastFrom move_of_isRepeatedMedia h

section Joined

variable {r s t : Rule} (hr : r.nested = []) (hs : s.nested = []) (ht : t = r ∨ t = s)

include hr hs ht

/-- Rules with the same selectors become one, and its body is optimized. -/
theorem reach_bodyWith (hkey : r.sameSelectors s = true) :
    Reach config again [.rule r, .rule s] [.rule { t with declarations := r.bodyWith config s }] := by
  have hjoin : Move config again [.rule r, .rule s]
      [.rule { t with declarations := r.declarations ++ s.declarations }] := .joinBodies hr hs hkey ht
  have hnested : t.nested = [] := by
    rcases ht with rfl | rfl
    · exact hr
    · exact hs
  have hoptimize : Move config again [.rule { t with declarations := r.declarations ++ s.declarations }]
      [.rule { t with declarations := r.bodyWith config s }] := .optimizeBody hnested
  exact hjoin.reach.trans hoptimize.reach

theorem reach_selectorsWith (hbody : r.mayShareBody config s = true) :
    Reach config again [.rule r, .rule s] [.rule { t with selectors := r.selectorsWith s }] := by
  rw [Rule.mayShareBody, Bool.and_eq_true] at hbody
  exact (Move.joinSelectors hr hs hbody.1 ht).reach

end Joined

theorem reach_join? {first second merged : Node} (h : join? config first second = some merged) :
    Reach config again [first, second] [merged] := by
  simp only [join?, Option.bind_eq_bind, Option.bind_eq_some_iff, Option.pure_def, Option.some.injEq] at h
  obtain ⟨r, hr, s, hs, t, ht, rfl⟩ := h
  obtain ⟨rfl, hrnested⟩ := Node.of_plainRule? hr
  obtain ⟨rfl, hsnested⟩ := Node.of_plainRule? hs
  unfold Rule.join? at ht
  split at ht
  · next hkey =>
      cases ht
      exact reach_bodyWith hrnested hsnested (.inl rfl) hkey
  · split at ht
    · next hbody =>
        cases ht
        exact reach_selectorsWith hrnested hsnested (.inl rfl) hbody
    · cases ht

theorem reach_mergeAdjacentFrom (first : Node) (rest : List Node) :
    Reach config again (first :: rest) (mergeAdjacentFrom config first rest) := by
  induction rest generalizing first with
  | nil => exact .refl
  | cons second rest ih =>
      rw [mergeAdjacentFrom]
      cases hjoin : join? config first second with
      | none => exact (ih second).after [first]
      | some merged =>
          have hfirst : Reach config again (first :: second :: rest) (merged :: rest) :=
            (reach_join? hjoin).before rest
          exact hfirst.trans (ih merged)

theorem reach_mergeAdjacent (nodes : List Node) :
    Reach config again nodes (mergeAdjacent config nodes) := by
  cases nodes with
  | nil => exact .refl
  | cons first rest => exact reach_mergeAdjacentFrom first rest

section Distant

/-- What a merger makes of two neighbours, steps make of them. -/
structure Stepwise (config : Config) (again : List Node → Attempt (List Node))
    (m : Merger) : Prop where
  below : ∀ {r s : Rule}, r.nested = [] → s.nested = [] → m.fits r s = true →
    Reach config again [.rule r, .rule s] [.rule (m.below r s)]
  above : ∀ {r s : Rule}, r.nested = [] → s.nested = [] → m.fits r s = true →
    Reach config again [.rule r, .rule s] [.rule (m.above r s)]

theorem stepwise_bySelector : Stepwise config again (Merger.bySelector config) where
  below := fun hr hs hfits => reach_bodyWith hr hs (.inr rfl) hfits
  above := fun hr hs hfits => reach_bodyWith hr hs (.inl rfl) hfits

theorem stepwise_byBody : Stepwise config again (Merger.byBody config) where
  below := fun hr hs hfits => reach_selectorsWith hr hs (.inr rfl) hfits
  above := fun hr hs hfits => reach_selectorsWith hr hs (.inl rfl) hfits

variable {m : Merger} (hm : Stepwise config again m)

include hm

theorem reach_addMerging {done left : List Node} {node : Node}
    (h : addMerging config.options.mergeSemantically m done node = .ok left) :
    Reach config again (done ++ [node]) left := by
  unfold addMerging at h
  split at h
  · cases h
    exact .refl
  next later hlater =>
  obtain ⟨rfl, hlnested⟩ := Node.of_plainRule? hlater
  split at h
  · next before earlier between hcut =>
      have hpartner : isPartner m later (.rule earlier) = true := satisfies_of_cutAtLast? hcut
      simp only [isPartner, Option.any_eq_true] at hpartner
      obtain ⟨r, hr, hfits⟩ := hpartner
      obtain ⟨heq, henested⟩ := Node.of_plainRule? hr
      cases heq
      rw [eq_of_cutAtLast? hcut, List.append_assoc]
      obtain ⟨down, hdown, h⟩ := Attempt.exists_of_bind h
      cases down with
      | true =>
          cases h
          have htravel : Reach config again (before ++ (.rule earlier :: between ++ [.rule later]))
              (before ++ (between ++ [.rule earlier] ++ [.rule later])) :=
            (reach_below again (Node.passes_of_mayTravel hdown)).within before [.rule later]
          have hjoin := (hm.below henested hlnested hfits).after (before ++ between)
          simp only [List.append_assoc] at htravel hjoin ⊢
          exact htravel.trans hjoin
      | false =>
          obtain ⟨up, hup, h⟩ := Attempt.exists_of_bind h
          cases up with
          | true =>
              cases h
              have htravel : Reach config again (before ++ .rule earlier :: (between ++ [.rule later]))
                  (before ++ .rule earlier :: .rule later :: between) :=
                ((reach_above again (Node.passes_of_mayTravel hup)).after [.rule earlier]).after before
              exact htravel.trans ((hm.above henested hlnested hfits).within before between)
          | false =>
              cases h
              rw [eq_of_cutAtLast? hcut, List.append_assoc]
  · cases h
    exact .refl

theorem reach_mergeDistant {nodes left : List Node}
    (h : mergeDistant config.options.mergeSemantically m nodes = .ok left) :
    Reach config again nodes left := by
  have hfold : ∀ rest done left : List Node,
      rest.foldlM (addMerging config.options.mergeSemantically m) done = .ok left →
      Reach config again (done ++ rest) left := by
    intro rest
    induction rest with
    | nil =>
        intro done left h
        cases h
        rw [List.append_nil]
    | cons node rest ih =>
        intro done left h
        rw [List.foldlM_cons] at h
        obtain ⟨done', hdone, h⟩ := Attempt.exists_of_bind h
        have hfirst := (reach_addMerging hm hdone).before rest
        rw [List.append_assoc, List.singleton_append] at hfirst
        exact hfirst.trans (ih done' left h)
  exact hfold nodes [] left h

end Distant

theorem reach_mergeBySelector {nodes left : List Node} (h : mergeBySelector config nodes = .ok left) :
    Reach config again nodes left :=
  reach_mergeDistant stepwise_bySelector h

theorem reach_mergeByBody {nodes left : List Node} (h : mergeByBody config nodes = .ok left) :
    Reach config again nodes left :=
  reach_mergeDistant stepwise_byBody h

/-- Two blocks for media with the same head become one, and what it holds is optimized. -/
theorem reach_joinMedia (config : Config) {head : String} {earlier later children : List Node}
    (hmedia : (Node.block head earlier).media?.isSome = true) (h : again (earlier ++ later) = .ok children) :
    Reach config again [.block head earlier, .block head later] [.block head children] := by
  have hjoin : Move config again [.block head earlier, .block head later] [.block head (earlier ++ later)] :=
    .joinMedia hmedia
  have hmedia' : (Node.block head (earlier ++ later)).media?.isSome = true := by
    simp only [Node.media?] at hmedia ⊢
    split at hmedia
    · next hhead => rw [if_pos hhead]; rfl
    · cases hmedia
  exact hjoin.reach.trans (Move.optimizeMedia hmedia' h).reach

theorem reach_mergeMediaFrom {done rest left : List Node}
    (h : mergeMediaFrom config.options.mergeSemantically again done rest = .ok left) :
    Reach config again (done ++ rest) left := by
  fun_induction mergeMediaFrom config.options.mergeSemantically again done rest with
  | case1 done =>
      cases h
      rw [List.append_nil]
  | case2 done node rest _ ih =>
      rw [← List.singleton_append, ← List.append_assoc]
      exact ih h
  | case3 done node rest head later hmedia before head' earlier between hcut ihUp ihDown ihStay =>
      obtain ⟨rfl, hblock⟩ := of_isMediaWith (satisfies_of_cutAtLast? hcut)
      cases Node.of_media? hmedia
      obtain ⟨up, hup, h⟩ := Attempt.exists_of_bind h
      cases up with
      | true =>
          obtain ⟨children, hagain, h⟩ := Attempt.exists_of_bind h
          refine Relation.ReflTransGen.trans ?_ (ihUp children h)
          have htravel := (reach_above again (Node.passes_of_mayTravel hup)).within
            (before ++ [.block head' earlier]) rest
          have hjoin := (reach_joinMedia config hblock hagain).within before (between ++ rest)
          rw [eq_of_cutAtLast? hcut]
          simp only [List.append_assoc, List.cons_append, List.nil_append] at htravel hjoin ⊢
          exact htravel.trans hjoin
      | false =>
          obtain ⟨down, hdown, h⟩ := Attempt.exists_of_bind h
          cases down with
          | true =>
              obtain ⟨children, hagain, h⟩ := Attempt.exists_of_bind h
              refine Relation.ReflTransGen.trans ?_ (ihDown children h)
              have htravel := (reach_below again (Node.passes_of_mayTravel hdown)).within before
                (.block head' later :: rest)
              have hjoin := (reach_joinMedia config hblock hagain).within (before ++ between) rest
              rw [eq_of_cutAtLast? hcut]
              simp only [List.append_assoc, List.cons_append, List.nil_append] at htravel hjoin ⊢
              exact htravel.trans hjoin
          | false =>
              rw [← List.singleton_append, ← List.append_assoc]
              exact ihStay h
  | case4 done node rest head later _ _ ih =>
      rw [← List.singleton_append, ← List.append_assoc]
      exact ih h

end Siblings

end CssMinify
