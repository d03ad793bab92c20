import CssMinify.Rules.Pass

/-!
Optimizing a sheet. Every body is optimized by itself, blocks from the inside out; then the passes over
siblings are made in rounds until the text stays the same.
-/

namespace CssMinify

/-- A rule with its body optimized. Among nested texts declarations keep their places, so only their
values are shortened. -/
def Rule.optimize (config : Config) (r : Rule) : Rule :=
  if r.nested.isEmpty then { r with declarations := Body.optimize config r.declarations }
  else { r with declarations := r.declarations.map (Declaration.minify config.profile) }

namespace Node

/-- A frame of an animation with its body optimized. Frames are never merged. -/
def optimizeFrame (config : Config) : Node → Node
  | rule r => rule { r with declarations := Body.optimize config r.declarations }
  | node => node

/-- A node with its bodies optimized, where `inner` optimizes the children of a block. -/
def optimize (config : Config) (inner : List Node → Attempt (List Node)) : Node → Attempt Node
  | rule r => .ok (rule (r.optimize config))
  | fields head declarations => .ok (fields head (Body.optimize config declarations))
  | block head children =>
    if isKeyframesHead head then .ok (block head (children.map (optimizeFrame config)))
    else do return block head (← inner children)
  | statement text => .ok (statement text)
  | comment text => .ok (comment text)

end Node

namespace Siblings

/-- Makes these passes one after the other. -/
def runAll (config : Config) (again : List Node → Attempt (List Node)) :
    List Pass → List Node → Attempt (List Node)
  | [], nodes => .ok nodes
  | pass :: rest, nodes => do
    let outcome ← pass.run config again nodes
    runAll config again rest outcome.nodes

/-- Repeats a round until it leaves the text as it was, `rounds` times at most. -/
def settleText (round : List Node → Attempt (List Node)) : Nat → List Node → Attempt (List Node)
  | 0, nodes => .ok nodes
  | rounds + 1, nodes => do
    let next ← round nodes
    if Node.printAll next == Node.printAll nodes then return next else settleText round rounds next

/-- How many rounds are made at most. -/
def maxRounds : Nat := 10

/-- Optimizes siblings in which blocks nest less than `depth` deep. -/
def optimizeWithin (config : Config) : Nat → List Node → Attempt (List Node)
  | 0, nodes => .ok nodes
  | depth + 1, nodes => do
    let inner := optimizeWithin config depth
    let nodes ← nodes.mapM (Node.optimize config inner)
    settleText (runAll config inner config.options.passes) maxRounds nodes

/-- Optimizes a list of siblings and all that is inside them. -/
def optimize (config : Config) (nodes : List Node) : Attempt (List Node) :=
  optimizeWithin config (Node.heightOfAll nodes + 1) nodes

/-- Makes a single pass. The blocks that it merges nest less deep than the list does. -/
def runPass (config : Config) (pass : Pass) (nodes : List Node) : Attempt Pass.Outcome :=
  pass.run config (optimizeWithin config (Node.heightOfAll nodes)) nodes

end Siblings

/-- Optimizes a whole sheet. -/
def Sheet.optimize (config : Config) (sheet : Sheet) : Attempt Sheet := do
  let nodes ← Siblings.optimize config sheet
  return if config.options.removeEmpty then Siblings.removeEmpty nodes else nodes

end CssMinify
