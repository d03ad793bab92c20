import CssMinify.Optimizer
import CssMinify.Proofs.Moves.Hoisting
import CssMinify.Proofs.Stability.Weight

/-!
A pass over siblings leaves them as they are or makes them lighter. Every node weighs something, so joining
and dropping nodes takes weight off; declarations weigh enough for a move of shared declarations to pay,
although it adds a rule. So a round that gives back what it got has left it alone in each of its passes, and
never had to optimize a merged block.
-/

namespace CssMinify

namespace Node

mutual

/-- What a node weighs: one, and twice the weight of its declarations. -/
def weight : Node → Nat
  | rule r => 1 + 2 * Body.weight r.declarations
  | block _ children => 1 + weightOfAll children
  | fields _ declarations => 1 + 2 * Body.weight declarations
  | statement _ | comment _ => 1

def weightOfAll : List Node → Nat
  | [] => 0
  | node :: rest => node.weight + weightOfAll rest

end

theorem weightOfAll_eq (nodes : List Node) : weightOfAll nodes = total weight nodes := by
  induction nodes with
  | nil => rfl
  | cons node nodes ih => rw [weightOfAll, total, ih]

theorem weightOfAll_append (as bs : List Node) : weightOfAll (as ++ bs) = weightOfAll as + weightOfAll bs := by
  rw [weightOfAll_eq, weightOfAll_eq, weightOfAll_eq, total_append]

theorem weightOfAll_singleton (node : Node) : weightOfAll [node] = node.weight := by
  rw [weightOfAll, weightOfAll, Nat.add_zero]

theorem weight_pos (node : Node) : 0 < node.weight := by
  cases node <;> rw [weight] <;> omega

end Node

namespace Siblings

open Node (weightOfAll weightOfAll_append weightOfAll_singleton)

/-- What a pass makes of siblings: the same, or something lighter. -/
abbrev NoHeavier : List Node → List Node → Prop := Lightened weightOfAll

namespace NoHeavier

variable {as bs : List Node}

theorem refl (as : List Node) : NoHeavier as as := .inl rfl

theorem weight_le (h : NoHeavier as bs) : weightOfAll as ≤ weightOfAll bs := by
  rcases h with rfl | h
  · exact Nat.le_refl _
  · exact Nat.le_of_lt h

theorem eq_of_le (h : NoHeavier as bs) (hle : weightOfAll bs ≤ weightOfAll as) : as = bs :=
  h.resolve_right (Nat.not_lt.mpr hle)

theorem of_sublist (h : as.Sublist bs) : NoHeavier as bs := by
  induction h with
  | slnil => exact .refl []
  | cons b _ ih =>
      right
      have hpos := b.weight_pos
      have hle := ih.weight_le
      rw [weightOfAll]
      omega
  | cons_cons a _ ih =>
      refine ih.imp (fun h => by rw [h]) fun h => ?_
      rw [weightOfAll, weightOfAll]
      omega

theorem after (front : List Node) (h : NoHeavier as bs) : NoHeavier (front ++ as) (front ++ bs) := by
  refine h.imp (fun h => by rw [h]) fun h => ?_
  rw [weightOfAll_append, weightOfAll_append]
  omega

theorem before (back : List Node) (h : NoHeavier as bs) : NoHeavier (as ++ back) (bs ++ back) := by
  refine h.imp (fun h => by rw [h]) fun h => ?_
  rw [weightOfAll_append, weightOfAll_append]
  omega

end NoHeavier

section Dropping

variable {semantic : Bool} {isCopy : Node → Node → Bool}

theorem sublist_dropCopies {node : Node} {done left : List Node}
    (h : dropCopies semantic isCopy node done = .ok left) : left.Sublist done := by
  induction done generalizing left with
  | nil =>
      cases h
      exact .slnil
  | cons earlier between ih =>
      rw [dropCopies] at h
      obtain ⟨kept, hkept, h⟩ := Attempt.exists_of_bind h
      have hsub := ih hkept
      split at h
      · obtain ⟨travels, -, h⟩ := Attempt.exists_of_bind h
        cases travels with
        | true =>
            cases h
            exact hsub.cons earlier
        | false =>
            cases h
            exact hsub.cons_cons earlier
      · cases h
        exact hsub.cons_cons earlier

theorem sublist_keepLastFrom {done rest left : List Node}
    (h : keepLastFrom semantic isCopy done rest = .ok left) : left.Sublist (done ++ rest) := by
  induction rest generalizing done with
  | nil =>
      cases h
      rw [List.append_nil]
  | cons node rest ih =>
      rw [keepLastFrom] at h
      obtain ⟨kept, hkept, h⟩ := Attempt.exists_of_bind h
      have hsub := (sublist_dropCopies hkept).append (List.Sublist.refl (node :: rest))
      refine (ih h).trans ?_
      rw [List.append_assoc, List.singleton_append]
      exact hsub

theorem sublist_keepFirstFontFaces (seen : List String) (nodes : List Node) :
    (keepFirstFontFaces seen nodes).Sublist nodes := by
  fun_induction keepFirstFontFaces seen nodes with
  | case1 => exact .slnil
  | case2 seen node rest body _ _ ih => exact ih.cons node
  | case3 seen node rest body _ _ ih => exact ih.cons_cons node
  | case4 seen node rest _ ih => exact ih.cons_cons node

end Dropping

section Joining

variable {config : Config}

theorem weight_bodyWith_le (config : Config) (r s : Rule) :
    Body.weight (r.bodyWith config s) ≤ Body.weight r.declarations + Body.weight s.declarations := by
  rw [Rule.bodyWith]
  refine (Body.weight_optimize_le config _).trans (Nat.le_of_eq ?_)
  exact total_append _ _ _

/-- Joined rules weigh less than the two. -/
theorem weight_join?_lt {first second merged : Node} (h : join? config first second = some merged) :
    merged.weight < first.weight + second.weight := by
  simp only [join?, Option.bind_eq_bind, Option.bind_eq_some_iff] at h
  obtain ⟨r, hr, s, hs, t, ht, h⟩ := h
  obtain ⟨rfl, -⟩ := Node.of_plainRule? hr
  obtain ⟨rfl, -⟩ := Node.of_plainRule? hs
  rw [← Option.some.inj h, Node.weight, Node.weight, Node.weight]
  have hle := weight_bodyWith_le config r s
  rw [Rule.join?] at ht
  split at ht
  · rw [← Option.some.inj ht]
    simp only
    omega
  split at ht
  · rw [← Option.some.inj ht]
    simp only
    omega
  · cases ht

theorem mergeAdjacentFrom_lighter (first : Node) (rest : List Node) :
    NoHeavier (mergeAdjacentFrom config first rest) (first :: rest) := by
  induction rest generalizing first with
  | nil => exact .refl _
  | cons second rest ih =>
      rw [mergeAdjacentFrom]
      split
      · next merged hmerged =>
          have hlt := weight_join?_lt hmerged
          refine (ih merged).trans (.inr ?_)
          rw [weightOfAll, weightOfAll, weightOfAll]
          omega
      · exact (ih second).after [first]

theorem mergeAdjacent_lighter (nodes : List Node) : NoHeavier (mergeAdjacent config nodes) nodes := by
  cases nodes with
  | nil => exact .refl []
  | cons first rest => exact mergeAdjacentFrom_lighter first rest

/-- A way to make one rule out of two that weighs less than the two. -/
structure Light (m : Merger) : Prop where
  below : ∀ r s, (Node.rule (m.below r s)).weight < (Node.rule r).weight + (Node.rule s).weight
  above : ∀ r s, (Node.rule (m.above r s)).weight < (Node.rule r).weight + (Node.rule s).weight

theorem light_bySelector : Light (Merger.bySelector config) := by
  constructor <;> intro r s <;> have hle := weight_bodyWith_le config r s <;>
    simp only [Merger.bySelector, Node.weight] <;> omega

theorem light_byBody : Light (Merger.byBody config) := by
  constructor <;> intro r s <;> simp only [Merger.byBody, Node.weight] <;> omega

theorem addMerging_lighter {semantic : Bool} {m : Merger} (hm : Light m) {done left : List Node} {node : Node}
    (h : addMerging semantic m done node = .ok left) : NoHeavier left (done ++ [node]) := by
  unfold addMerging at h
  split at h
  · cases h
    exact .refl _
  next later hlater =>
  obtain ⟨rfl, -⟩ := Node.of_plainRule? hlater
  split at h
  · next before earlier between hcut =>
      have hdone := eq_of_cutAtLast? hcut
      have hbelow := hm.below earlier later
      have habove := hm.above earlier later
      obtain ⟨sinks, -, h⟩ := Attempt.exists_of_bind h
      cases sinks with
      | true =>
          cases h
          right
          rw [hdone]
          simp only [weightOfAll_append, weightOfAll]
          omega
      | false =>
          obtain ⟨rises, -, h⟩ := Attempt.exists_of_bind h
          cases rises with
          | true =>
              cases h
              right
              rw [hdone]
              simp only [weightOfAll_append, weightOfAll]
              omega
          | false =>
              cases h
              exact .refl _
  · cases h
    exact .refl _

theorem mergeDistant_lighter {semantic : Bool} {m : Merger} (hm : Light m) {nodes left : List Node}
    (h : mergeDistant semantic m nodes = .ok left) : NoHeavier left nodes := by
  have hfold : ∀ rest done left : List Node, rest.foldlM (addMerging semantic m) done = .ok left →
      NoHeavier left (done ++ rest) := by
    intro rest
    induction rest with
    | nil =>
        intro done left h
        cases h
        rw [List.append_nil]
        exact .refl done
    | cons node rest ih =>
        intro done left h
        rw [List.foldlM_cons] at h
        obtain ⟨next, hnext, h⟩ := Attempt.exists_of_bind h
        have hstep := (addMerging_lighter hm hnext).before rest
        rw [List.append_assoc, List.singleton_append] at hstep
        exact (ih next left h).trans hstep
  exact hfold nodes [] left h

end Joining

section Hoisting

variable {config : Config}

/-- If every holder loses `loss` of something, all of them together lose it as often as there are holders. -/
theorem total_stripped {measure : Node → Nat} {loss : Nat} (h : Hoist)
    (hstrip : ∀ {between : List Node} {r : Rule}, Hoist.Ready config h.declarations between r →
      total measure (h.strip config (.rule r)).toList + loss ≤ measure (.rule r))
    {between : List Node} {marks : List (Node × Bool)}
    (hready : Hoist.AllReady config h.declarations between marks) :
    total measure (Hoist.stripped config h marks) + loss * (Hoist.markedRules marks).length
      ≤ total measure (marks.map Prod.fst) := by
  induction marks generalizing between with
  | nil => exact Nat.le_refl _
  | cons mark marks ih =>
      have hrest := ih hready.tail
      obtain ⟨node, isMarked⟩ := mark
      cases isMarked with
      | false =>
          have hmarked : Hoist.markedRules ((node, false) :: marks) = Hoist.markedRules marks := rfl
          simp only [Hoist.stripped_cons_false, hmarked, List.map_cons, total]
          omega
      | true =>
          obtain ⟨r, rfl, hr⟩ := hready [] node marks rfl
          have hmarked : Hoist.markedRules ((.rule r, true) :: marks) = r :: Hoist.markedRules marks := rfl
          have hone := hstrip hr
          simp only [Hoist.stripped_cons_true, hmarked, List.map_cons, total_append, List.length_cons, Nat.mul_succ,
            total]
          omega

/-- A move takes something off if the new rule has less of it than two of its holders lose. -/
theorem total_apply_lt {measure : Node → Nat} (loss : Nat) {h : Hoist} {nodes : List Node}
    (hsound : Hoist.Sound config.options.mergeSemantically nodes h)
    (hstrip : ∀ {between : List Node} {r : Rule}, Hoist.Ready config h.declarations between r →
      total measure (h.strip config (.rule r)).toList + loss ≤ measure (.rule r))
    (hrule : measure (.rule (h.rule config)) < loss * 2) :
    total measure (h.apply config nodes) < total measure nodes := by
  obtain ⟨hfirst, -, hothers⟩ := hsound.exists_first
  obtain ⟨r, hr, -⟩ := hsound.ready hfirst
  have hle := total_stripped h hstrip hsound.allReady
  have htwo : 2 ≤ (Hoist.markedRules (h.marks nodes (h.holders.headD 0))).length := by
    rw [Hoist.marks_cons hr, List.contains_iff_mem.mpr hfirst]
    have hmarked : Hoist.markedRules ((.rule r, true) :: h.marks nodes (h.holders.headD 0 + 1))
        = r :: Hoist.markedRules (h.marks nodes (h.holders.headD 0 + 1)) := rfl
    rw [hmarked, List.length_cons]
    have := List.length_pos_iff.mpr hothers
    omega
  have hmul := Nat.mul_le_mul_left loss htwo
  have hnodes : total measure nodes = total measure (nodes.take (h.holders.headD 0))
      + total measure (nodes.drop (h.holders.headD 0)) := by
    rw [← total_append, List.take_append_drop]
  rw [Hoist.map_fst_marks] at hle
  rw [Hoist.apply_eq, total_append, total, hnodes]
  omega

/-- Every holder loses as much as the new rule gets. -/
theorem apply_lighter {h : Hoist} {nodes : List Node}
    (hsound : Hoist.Sound config.options.mergeSemantically nodes h) :
    weightOfAll (h.apply config nodes) < weightOfAll nodes := by
  have hpos : 0 < Body.weight h.declarations := by
    obtain ⟨d, hd⟩ := List.exists_mem_of_ne_nil _ hsound.nonempty
    exact Nat.lt_of_lt_of_le d.weight_pos (le_total_of_mem Declaration.weight hd)
  rw [Node.weightOfAll_eq, Node.weightOfAll_eq]
  refine total_apply_lt (2 * Body.weight h.declarations) hsound (fun {between r} hr => ?_) ?_
  · have hloss : Body.weight (r.declarations.filter fun d => !h.declarations.contains d)
        + Body.weight h.declarations ≤ Body.weight r.declarations :=
      total_filter_not_contains Declaration.weight hsound.nodup hr.subset
    have hle := Body.weight_optimize_le config (r.declarations.filter fun d => !h.declarations.contains d)
    rw [← Node.weightOfAll_eq, Node.weight, Hoist.strip_rule]
    split
    · simp only [weightOfAll]
      omega
    · simp only [weightOfAll_singleton, Node.weight, Hoist.remainder]
      omega
  · have hle := Body.weight_optimize_le config h.declarations
    simp only [Node.weight, Hoist.rule]
    omega

theorem hoistWithin_lighter {steps : Nat} {nodes left : List Node} {moved : Nat}
    (h : hoistWithin config steps nodes = .ok (left, moved)) : NoHeavier left nodes := by
  induction steps generalizing nodes moved with
  | zero =>
      cases h
      exact .refl _
  | succ steps ih =>
      rw [hoistWithin] at h
      obtain ⟨best, hbest, h⟩ := Attempt.exists_of_bind h
      cases best with
      | none =>
          cases h
          exact .refl _
      | some hoist =>
          obtain ⟨⟨rest, count⟩, hrest, h⟩ := Attempt.exists_of_bind h
          cases h
          exact (ih hrest).trans (.inr (apply_lighter (Hoist.sound_of_best? hbest)))

end Hoisting

section Media

variable {semantic : Bool} {again : List Node → Attempt (List Node)}

/-- What `again` makes of siblings weighs no more than they do. -/
def Lightens (again : List Node → Attempt (List Node)) : Prop :=
  ∀ xs ys, again xs = .ok ys → weightOfAll ys ≤ weightOfAll xs

/-- Merging blocks for media takes weight off, or else needs no `again`. -/
theorem mergeMediaFrom_lighter (hagain : Lightens again) {done rest left : List Node}
    (h : mergeMediaFrom semantic again done rest = .ok left) :
    (left = done ++ rest ∧ ∀ other, mergeMediaFrom semantic other done rest = .ok left) ∨
      weightOfAll left < weightOfAll (done ++ rest) := by
  fun_induction mergeMediaFrom semantic again done rest with
  | case1 done =>
      cases h
      exact .inl ⟨(List.append_nil _).symm, fun other => by rw [mergeMediaFrom]⟩
  | case2 done node rest hmedia ih =>
      have hrest := ih h
      rw [List.append_assoc, List.singleton_append] at hrest
      refine hrest.imp (fun hsame => ⟨hsame.1, fun other => ?_⟩) id
      rw [mergeMediaFrom]
      simp only [hmedia]
      exact hsame.2 other
  | case3 done node rest head later hmedia before head' earlier between hcut ihUp ihDown ihStay =>
      have hdone := eq_of_cutAtLast? hcut
      obtain ⟨up, hup, h⟩ := Attempt.exists_of_bind h
      cases up with
      | true =>
          obtain ⟨children, hchildren, h⟩ := Attempt.exists_of_bind h
          have hle := hagain _ _ hchildren
          have hleft : weightOfAll left
              ≤ weightOfAll (before ++ [.block head children] ++ (between ++ rest)) := by
            rcases ihUp children h with ⟨hsame, -⟩ | hlt
            · rw [hsame]
            · exact Nat.le_of_lt hlt
          right
          cases Node.of_media? hmedia
          rw [hdone]
          simp only [weightOfAll_append, weightOfAll, Node.weight] at hle hleft ⊢
          omega
      | false =>
          obtain ⟨down, hdown, h⟩ := Attempt.exists_of_bind h
          cases down with
          | true =>
              obtain ⟨children, hchildren, h⟩ := Attempt.exists_of_bind h
              have hle := hagain _ _ hchildren
              have hleft : weightOfAll left
                  ≤ weightOfAll (before ++ between ++ [.block head children] ++ rest) := by
                rcases ihDown children h with ⟨hsame, -⟩ | hlt
                · rw [hsame]
                · exact Nat.le_of_lt hlt
              right
              cases Node.of_media? hmedia
              rw [hdone]
              simp only [weightOfAll_append, weightOfAll, Node.weight] at hle hleft ⊢
              omega
          | false =>
              have hrest := ihStay h
              rw [List.append_assoc, List.singleton_append] at hrest
              refine hrest.imp (fun hsame => ⟨hsame.1, fun other => ?_⟩) id
              rw [mergeMediaFrom]
              simp only [hmedia]
              split
              · next hcut' =>
                  rw [hcut] at hcut'
                  cases hcut'
                  rw [hup, hdown]
                  exact hsame.2 other
              · exact hsame.2 other
  | case4 done node rest head later hmedia hcut ih =>
      have hrest := ih h
      rw [List.append_assoc, List.singleton_append] at hrest
      refine hrest.imp (fun hsame => ⟨hsame.1, fun other => ?_⟩) id
      rw [mergeMediaFrom]
      simp only [hmedia]
      exact hsame.2 other

end Media

end Siblings

namespace Node

open Siblings (NoHeavier)

mutual

theorem pruned_lighter : ∀ node : Node, node.pruned = node ∨ node.pruned.weight < node.weight
  | block head children => by
      rw [pruned, weight, weight]
      refine (prunedAll_lighter children).imp (fun h => by rw [h]) fun h => ?_
      omega
  | rule r => .inl (by simp [pruned])
  | fields head ds => .inl (by simp [pruned])
  | statement text => .inl (by simp [pruned])
  | comment text => .inl (by simp [pruned])

theorem prunedAll_lighter : ∀ nodes : List Node, NoHeavier (prunedAll nodes) nodes
  | [] => .inl (by rw [prunedAll])
  | node :: rest => by
      have hpos := node.weight_pos
      have hle := (prunedAll_lighter rest).weight_le
      rw [prunedAll]
      split
      · right
        rw [weightOfAll]
        omega
      · rcases pruned_lighter node with hsame | hlt
        · rw [hsame]
          exact (prunedAll_lighter rest).after [node]
        · right
          rw [weightOfAll, weightOfAll]
          omega

end

end Node

namespace Siblings

open Node (weightOfAll)

section Runs

variable {config : Config} {again other : List Node → Attempt (List Node)}

/-- A pass leaves siblings as they are, whatever `again` does, or makes them lighter. -/
theorem run_lighter (hagain : Lightens again) {pass : Pass} {nodes : List Node} {outcome : Pass.Outcome}
    (h : pass.run config again nodes = .ok outcome) :
    (outcome.nodes = nodes ∧ ∀ other, pass.run config other nodes = .ok outcome) ∨
      weightOfAll outcome.nodes < weightOfAll nodes := by
  have hfree (hpass : pass ≠ .mergeMedia) (other : List Node → Attempt (List Node)) :
      pass.run config other nodes = .ok outcome := by
    rw [← h]
    cases pass <;> first | rfl | exact absurd rfl hpass
  have hlighter (hpass : pass ≠ .mergeMedia) (hlight : NoHeavier outcome.nodes nodes) :
      (outcome.nodes = nodes ∧ ∀ other, pass.run config other nodes = .ok outcome) ∨
        weightOfAll outcome.nodes < weightOfAll nodes :=
    hlight.imp (fun hsame => ⟨hsame, hfree hpass⟩) id
  cases pass with
  | removeDuplicateRules =>
      obtain ⟨left, hleft, hrun⟩ := Attempt.exists_of_bind h
      refine hlighter (by simp) ?_
      rw [← Except.ok.inj hrun]
      exact .of_sublist (sublist_keepLastFrom hleft)
  | mergeAdjacent =>
      refine hlighter (by simp) ?_
      rw [← Except.ok.inj h]
      exact mergeAdjacent_lighter nodes
  | mergeBySelector =>
      obtain ⟨left, hleft, hrun⟩ := Attempt.exists_of_bind h
      refine hlighter (by simp) ?_
      rw [← Except.ok.inj hrun]
      exact mergeDistant_lighter light_bySelector hleft
  | mergeByBody =>
      obtain ⟨left, hleft, hrun⟩ := Attempt.exists_of_bind h
      refine hlighter (by simp) ?_
      rw [← Except.ok.inj hrun]
      exact mergeDistant_lighter light_byBody hleft
  | hoist =>
      obtain ⟨⟨left, moved⟩, hleft, hrun⟩ := Attempt.exists_of_bind h
      refine hlighter (by simp) ?_
      rw [← Except.ok.inj hrun]
      exact hoistWithin_lighter hleft
  | removeDuplicateFontFaces =>
      refine hlighter (by simp) ?_
      rw [← Except.ok.inj h]
      exact .of_sublist (sublist_keepFirstFontFaces [] nodes)
  | removeDuplicateMedia =>
      obtain ⟨left, hleft, hrun⟩ := Attempt.exists_of_bind h
      refine hlighter (by simp) ?_
      rw [← Except.ok.inj hrun]
      exact .of_sublist (sublist_keepLastFrom hleft)
  | mergeMedia =>
      obtain ⟨left, hleft, hrun⟩ := Attempt.exists_of_bind h
      rw [← Except.ok.inj hrun]
      refine (mergeMediaFrom_lighter hagain hleft).imp (fun hsame => ⟨hsame.1, fun other => ?_⟩) id
      simp only [Pass.run, hsame.2 other]
      rfl
  | removeEmpty =>
      refine hlighter (by simp) ?_
      rw [← Except.ok.inj h]
      exact Node.prunedAll_lighter nodes

theorem runAll_lighter (hagain : Lightens again) {passes : List Pass} {nodes left : List Node}
    (h : runAll config again passes nodes = .ok left) : NoHeavier left nodes := by
  induction passes generalizing nodes with
  | nil =>
      cases h
      exact .refl _
  | cons pass passes ih =>
      rw [runAll] at h
      obtain ⟨outcome, houtcome, h⟩ := Attempt.exists_of_bind h
      exact (ih h).trans ((run_lighter hagain houtcome).imp And.left id)

/-- A round that gives back what it got has left it alone in each of its passes. -/
theorem run_of_runAll_eq_self (hagain : Lightens again) {passes : List Pass} {nodes : List Node}
    (h : runAll config again passes nodes = .ok nodes) : ∀ pass ∈ passes, ∃ outcome,
      outcome.nodes = nodes ∧ ∀ other, pass.run config other nodes = .ok outcome := by
  induction passes with
  | nil => simp
  | cons pass passes ih =>
      rw [runAll] at h
      obtain ⟨outcome, houtcome, h⟩ := Attempt.exists_of_bind h
      have hle := (runAll_lighter hagain h).weight_le
      obtain ⟨hsame, hother⟩ := (run_lighter hagain houtcome).resolve_right (Nat.not_lt.mpr hle)
      rw [hsame] at h
      exact List.forall_mem_cons.mpr ⟨⟨outcome, hsame, hother⟩, ih h⟩

/-- Whether a round leaves siblings as they are does not depend on what optimizes merged blocks. -/
theorem runAll_eq_self_congr (hagain : Lightens again) (hother : Lightens other) (passes : List Pass)
    (nodes : List Node) :
    runAll config again passes nodes = .ok nodes ↔ runAll config other passes nodes = .ok nodes := by
  have hone (again other : List Node → Attempt (List Node)) (hagain : Lightens again)
      (h : runAll config again passes nodes = .ok nodes) : runAll config other passes nodes = .ok nodes := by
    have hall := run_of_runAll_eq_self hagain h
    clear h
    induction passes with
    | nil => rfl
    | cons pass passes ih =>
        obtain ⟨outcome, hsame, hrun⟩ := hall pass List.mem_cons_self
        rw [runAll, hrun other]
        have hrest := ih fun p hp => hall p (List.mem_cons_of_mem pass hp)
        rw [← hsame] at hrest ⊢
        exact hrest
  exact ⟨hone again other hagain, hone other again hother⟩

theorem settleText_lighter {round : List Node → Attempt (List Node)}
    (hround : ∀ xs ys, round xs = .ok ys → NoHeavier ys xs) {rounds : Nat} {nodes left : List Node}
    (h : settleText round rounds nodes = .ok left) : NoHeavier left nodes := by
  induction rounds generalizing nodes with
  | zero =>
      cases h
      exact .refl _
  | succ rounds ih =>
      rw [settleText] at h
      obtain ⟨next, hnext, h⟩ := Attempt.exists_of_bind h
      have hstep := hround _ _ hnext
      split at h
      · cases h
        exact hstep
      · exact (ih h).trans hstep

end Runs

section Optimize

variable {config : Config}

theorem weight_optimizeFrame_le (config : Config) (node : Node) :
    (node.optimizeFrame config).weight ≤ node.weight := by
  cases node with
  | rule r =>
      have hle := Body.weight_optimize_le config r.declarations
      simp only [Node.optimizeFrame, Node.weight]
      omega
  | _ => exact Nat.le_refl _

theorem weight_optimize_le {inner : List Node → Attempt (List Node)} (hinner : Lightens inner)
    {node left : Node} (h : node.optimize config inner = .ok left) : left.weight ≤ node.weight := by
  cases node with
  | rule r =>
      cases h
      rw [Node.weight, Node.weight, Rule.optimize]
      split
      · have hle := Body.weight_optimize_le config r.declarations
        simp only
        omega
      · simp only [Body.weight_map_minify]
        omega
  | fields head ds =>
      cases h
      have hle := Body.weight_optimize_le config ds
      rw [Node.weight, Node.weight]
      omega
  | block head children =>
      simp only [Node.optimize] at h
      split at h
      · cases h
        have hle : weightOfAll (children.map (Node.optimizeFrame config)) ≤ weightOfAll children := by
          induction children with
          | nil => exact Nat.le_refl _
          | cons child children ih =>
              have hone := weight_optimizeFrame_le config child
              rw [List.map_cons, weightOfAll, weightOfAll]
              omega
        rw [Node.weight, Node.weight]
        omega
      · obtain ⟨inside, hinside, h⟩ := Attempt.exists_of_bind h
        cases h
        have hle := hinner _ _ hinside
        rw [Node.weight, Node.weight]
        omega
  | statement text =>
      cases h
      exact Nat.le_refl _
  | comment text =>
      cases h
      exact Nat.le_refl _

theorem weight_mapM_optimize_le {inner : List Node → Attempt (List Node)} (hinner : Lightens inner)
    {nodes left : List Node} (h : nodes.mapM (Node.optimize config inner) = .ok left) :
    weightOfAll left ≤ weightOfAll nodes := by
  induction nodes generalizing left with
  | nil =>
      cases h
      exact Nat.le_refl _
  | cons node nodes ih =>
      rw [List.mapM_cons] at h
      obtain ⟨first, hfirst, h⟩ := Attempt.exists_of_bind h
      obtain ⟨rest, hrest, h⟩ := Attempt.exists_of_bind h
      cases h
      have hone := weight_optimize_le hinner hfirst
      have hall := ih hrest
      rw [weightOfAll, weightOfAll]
      omega

/-- Optimizing siblings makes nothing heavier. -/
theorem lightens_optimizeWithin (config : Config) (depth : Nat) : Lightens (optimizeWithin config depth) := by
  induction depth with
  | zero =>
      intro xs ys h
      cases h
      exact Nat.le_refl _
  | succ depth ih =>
      intro xs ys h
      rw [optimizeWithin] at h
      obtain ⟨nodes, hnodes, h⟩ := Attempt.exists_of_bind h
      have hrounds := settleText_lighter (fun xs ys hround => runAll_lighter ih hround) h
      exact hrounds.weight_le.trans (weight_mapM_optimize_le ih hnodes)

theorem lightens_optimize (config : Config) : Lightens (optimize config) :=
  fun xs ys h => lightens_optimizeWithin config _ xs ys h

end Optimize

end Siblings

end CssMinify
