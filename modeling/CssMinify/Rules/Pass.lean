import CssMinify.Rules.Adjacent
import CssMinify.Rules.Empty
import CssMinify.Rules.FontFaces
import CssMinify.Rules.Hoisting
import CssMinify.Rules.Media

/-!
The passes over a list of siblings, and the order in which a run makes them.
-/

namespace CssMinify

inductive Pass where
  | removeDuplicateRules
  | mergeAdjacent
  | mergeBySelector
  | mergeByBody
  | hoist
  | removeDuplicateFontFaces
  | removeDuplicateMedia
  | mergeMedia
  | removeEmpty
  deriving DecidableEq, Repr

namespace Pass

/-- What a pass leaves. -/
structure Outcome where
  nodes : List Node
  /-- How many declarations were hoisted, or how many siblings went. -/
  count : Nat

/-- Makes a pass, where `again` optimizes what merged blocks hold. -/
def run (config : Config) (again : List Node → Attempt (List Node)) (pass : Pass) (nodes : List Node) :
    Attempt Outcome := do
  let leaving (left : List Node) : Outcome := ⟨left, nodes.length - left.length⟩
  match pass with
  | removeDuplicateRules => return leaving (← Siblings.removeDuplicateRules config nodes)
  | mergeAdjacent => return leaving (Siblings.mergeAdjacent config nodes)
  | mergeBySelector => return leaving (← Siblings.mergeBySelector config nodes)
  | mergeByBody => return leaving (← Siblings.mergeByBody config nodes)
  | hoist =>
    let (left, moved) ← Siblings.hoist config nodes
    return ⟨left, moved⟩
  | removeDuplicateFontFaces => return leaving (Siblings.removeDuplicateFontFaces nodes)
  | removeDuplicateMedia => return leaving (← Siblings.removeDuplicateMedia config nodes)
  | mergeMedia =>
    return leaving (← Siblings.mergeMediaFrom config.options.mergeSemantically again [] nodes)
  | removeEmpty => return leaving (Siblings.removeEmpty nodes)

end Pass

/-- The passes of one round. After hoisting, neighbours may have become alike. -/
def Options.passes (o : Options) : List Pass :=
  let switched : List (Bool × Pass) :=
    [(o.removeDuplicateRules, .removeDuplicateRules),
     (o.mergeAdjacentRules, .mergeAdjacent),
     (o.mergeDistantRules.bySelector, .mergeBySelector),
     (o.mergeDistantRules.byBody, .mergeByBody),
     (o.restructureRules, .hoist),
     (o.restructureRules && o.mergeAdjacentRules, .mergeAdjacent),
     (o.removeDuplicateFontRules, .removeDuplicateFontFaces),
     (o.removeDuplicateMediaBlocks, .removeDuplicateMedia),
     (o.mergeMedia, .mergeMedia),
     (o.removeEmpty, .removeEmpty)]
  (switched.filter Prod.fst).map Prod.snd

end CssMinify
