import CssMinify.Sheet.Basic

/-!
Dropping nodes that do nothing.
-/

namespace CssMinify

namespace Node

mutual

/-- A node without the empty nodes inside it. -/
def pruned : Node → Node
  | block head children => block head (prunedAll children)
  | node => node

/-- Drops empty nodes at any depth, inner ones first. -/
def prunedAll : List Node → List Node
  | [] => []
  | node :: rest =>
    let node := node.pruned
    if node.isEmpty then prunedAll rest else node :: prunedAll rest

end

end Node

namespace Siblings

/-- Drops empty rules and blocks at any depth. -/
def removeEmpty (nodes : List Node) : List Node := Node.prunedAll nodes

end Siblings

end CssMinify
