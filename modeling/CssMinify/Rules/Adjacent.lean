import CssMinify.Rules.Basic

/-!
Merging neighbours that share their selectors or their body.
-/

namespace CssMinify

namespace Rule

/-- Two neighbours as one rule. Rules with the same selectors pool their declarations; rules with the
same body pool their selectors. -/
def join? (config : Config) (first second : Rule) : Option Rule :=
  if first.sameSelectors second then some { first with declarations := first.bodyWith config second }
  else if first.mayShareBody config second then
    some { first with selectors := first.selectorsWith second }
  else none

end Rule

namespace Siblings

/-- Two neighbours as one, if both are plain rules. -/
def join? (config : Config) (first second : Node) : Option Node := do
  let r ← first.plainRule?
  let s ← second.plainRule?
  return .rule (← r.join? config s)

/-- Merges `first` with the nodes that follow it as far as that goes, then the others. -/
def mergeAdjacentFrom (config : Config) (first : Node) : List Node → List Node
  | [] => [first]
  | second :: rest =>
    match join? config first second with
    | some merged => mergeAdjacentFrom config merged rest
    | none => first :: mergeAdjacentFrom config second rest

/-- Merges neighbours. -/
def mergeAdjacent (config : Config) : List Node → List Node
  | [] => []
  | first :: rest => mergeAdjacentFrom config first rest

end Siblings

end CssMinify
