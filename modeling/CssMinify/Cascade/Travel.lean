import CssMinify.Cascade.Exchange

/-!
May a node travel past its siblings without any element changing its styles?
-/

namespace CssMinify

namespace Node

mutual

/-- A node whose effect is not the sum of its declarations: a rule with nested texts, or an unknown
at-rule kept with its block. It never travels, and nothing travels past it. -/
def isSealed : Node → Bool
  | rule r => !r.nested.isEmpty
  | block _ children => anySealed children
  | statement text => Text.endsWith text "\x7d"
  | fields .. | comment _ => false

def anySealed : List Node → Bool
  | [] => false
  | node :: rest => node.isSealed || anySealed rest

end

mutual

/-- A node that names a cascade layer. The first mention of a layer fixes its order, so the node stays
where it is. -/
def mentionsLayer : Node → Bool
  | block head children => isLayerHead head || anyMentionsLayer children
  | statement text => isLayerHead text
  | rule _ | fields .. | comment _ => false

def anyMentionsLayer : List Node → Bool
  | [] => false
  | node :: rest => node.mentionsLayer || anyMentionsLayer rest

end

/-- May a node travel to the other side of the nodes `between`? The direction makes no difference. -/
def mayTravel (semantic : Bool) (moving : Node) (between : List Node) : Except Selector.Fault Bool :=
  if moving.isSealed || moving.mentionsLayer || anySealed between then .ok false
  else Touch.mayExchangeAll semantic moving.touches (touchesOfAll between)

/-- May the node at the place `start` of a list travel to the place `stop`, whichever comes first? -/
def mayMove (semantic : Bool) (nodes : List Node) (start stop : Nat) : Except Selector.Fault Bool :=
  match nodes[start]? with
  | some moving => moving.mayTravel semantic ((nodes.take (max start stop)).drop (min start stop + 1))
  | none => .ok false

end Node

end CssMinify
