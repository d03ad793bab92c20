import CssMinify.Proofs.Moves.Hoisting
import CssMinify.Rules.Pass

/-! Every pass that moves rules or media blocks is a run of small steps: whatever it brings together, cuts
or joins at once, it could have done by exchanges of neighbours that each were allowed. -/

namespace CssMinify

namespace Pass

/-- Passes that move, join and drop rules and media blocks. The two others drop font faces and empty
nodes. -/
def isStructural : Pass → Bool
  | removeDuplicateFontFaces | removeEmpty => false
  | _ => true

/-- What a pass leaves can be reached by small steps, whatever `again` makes of merged blocks. -/
theorem reach_run {config : Config} {again : List Node → Attempt (List Node)} {pass : Pass}
    {nodes : List Node} {outcome : Outcome} (hpass : pass.isStructural = true)
    (hrun : pass.run config again nodes = .ok outcome) :
    Siblings.Reach config again nodes outcome.nodes := by
  cases pass with
  | removeDuplicateRules =>
      obtain ⟨left, hleft, hrun⟩ := Attempt.exists_of_bind hrun
      cases hrun
      exact Siblings.reach_removeDuplicateRules hleft
  | mergeAdjacent =>
      cases hrun
      exact Siblings.reach_mergeAdjacent nodes
  | mergeBySelector =>
      obtain ⟨left, hleft, hrun⟩ := Attempt.exists_of_bind hrun
      cases hrun
      exact Siblings.reach_mergeBySelector hleft
  | mergeByBody =>
      obtain ⟨left, hleft, hrun⟩ := Attempt.exists_of_bind hrun
      cases hrun
      exact Siblings.reach_mergeByBody hleft
  | hoist =>
      obtain ⟨⟨left, moved⟩, hleft, hrun⟩ := Attempt.exists_of_bind hrun
      cases hrun
      exact Siblings.reach_hoistWithin again hleft
  | removeDuplicateMedia =>
      obtain ⟨left, hleft, hrun⟩ := Attempt.exists_of_bind hrun
      cases hrun
      exact Siblings.reach_removeDuplicateMedia hleft
  | mergeMedia =>
      obtain ⟨left, hleft, hrun⟩ := Attempt.exists_of_bind hrun
      cases hrun
      exact Siblings.reach_mergeMediaFrom hleft
  | removeDuplicateFontFaces | removeEmpty => cases hpass

/-- A rule sinks to its later copy, past a rule that sets something else. -/
theorem reach_run_copies :
    let copy := Node.rule { selectors := ["a"], declarations := [{ name := "color", value := ["red"] }] }
    let other := Node.rule { selectors := ["b"], declarations := [{ name := "margin", value := ["0"] }] }
    removeDuplicateRules.run {} .ok [copy, other, copy] = .ok ⟨[other, copy], 1⟩ ∧
      Siblings.Reach {} .ok [copy, other, copy] [other, copy] := by
  intro copy other
  have hrun : removeDuplicateRules.run {} .ok [copy, other, copy] = .ok ⟨[other, copy], 1⟩ := rfl
  exact ⟨hrun, reach_run rfl hrun⟩

end Pass

end CssMinify
