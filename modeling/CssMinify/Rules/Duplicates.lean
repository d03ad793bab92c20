import CssMinify.Rules.Basic

/-!
Dropping nodes that are repeated later on. An earlier copy goes if it could as well travel down to the
later one.
-/

namespace CssMinify

namespace Siblings

/-- Drops the nodes that `isCopy` relates to `node` and that may travel past what is left after them. -/
def dropCopies (semantic : Bool) (isCopy : Node → Node → Bool) (node : Node) :
    List Node → Attempt (List Node)
  | [] => .ok []
  | earlier :: between => do
    let between ← dropCopies semantic isCopy node between
    if isCopy earlier node then
      return if ← earlier.mayTravel semantic between then between else earlier :: between
    else return earlier :: between

/-- Drops earlier copies of every node in turn, where `done` are the nodes in front of these. -/
def keepLastFrom (semantic : Bool) (isCopy : Node → Node → Bool) (done : List Node) :
    List Node → Attempt (List Node)
  | [] => .ok done
  | node :: rest => do
    let done ← dropCopies semantic isCopy node done
    keepLastFrom semantic isCopy (done ++ [node]) rest

/-- Two plain rules with the same selectors and the same body. -/
def isRepeatedRule (a b : Node) : Bool :=
  Node.plainRules (fun r s => r.sameSelectors s && r.sameBody s) a b

/-- Drops rules that are repeated later on. -/
def removeDuplicateRules (config : Config) (nodes : List Node) : Attempt (List Node) :=
  keepLastFrom config.options.mergeSemantically isRepeatedRule [] nodes

end Siblings

end CssMinify
