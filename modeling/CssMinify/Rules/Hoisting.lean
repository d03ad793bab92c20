import CssMinify.Rules.Basic
import CssMinify.Total

/-!
Moving declarations that several rules share into a rule of their own, in front of the first of them,
where that makes the sheet shorter. Each moved declaration travels up past the earlier ones of its own
rule and past every node between the first holder and its rule.
-/

namespace CssMinify

/-- The elements that pass a test, in their order. -/
def keepWhere {α : Type} (test : α → Attempt Bool) : List α → Attempt (List α)
  | [] => .ok []
  | a :: rest => do
    let kept ← test a
    let more ← keepWhere test rest
    return if kept then a :: more else more

/-- Declarations, the places of rules that all hold them, and the selectors of those rules. -/
structure Hoist where
  declarations : List Declaration
  /-- In rising order. -/
  holders : List Nat
  selectors : List String
  /-- How many bytes the move saves. -/
  gain : Nat
  deriving DecidableEq, Repr

namespace Hoist

/-- The declarations that a rule holds exactly once. -/
def heldOnce (r : Rule) : List Declaration := r.declarations.filter fun d => r.declarations.count d == 1

/-- The declarations that a node could give away. -/
def offers (node : Node) : List Declaration :=
  match node with
  | .rule r => if node.isEmpty || !r.nested.isEmpty then [] else heldOnce r
  | _ => []

/-- The places of the nodes that offer a declaration. -/
def offerers (nodes : List Node) (d : Declaration) : List Nat :=
  (nodes.zipIdx.filter fun (node, _) => (offers node).contains d).map Prod.snd

/-- The declarations that are offered, in the order in which they first are. -/
def offered (nodes : List Node) : List Declaration := (nodes.flatMap offers).eraseDups

/-- May the copy of a declaration in the rule at `place` travel up to the place `target`? -/
def mayRise (semantic : Bool) (nodes : List Node) (d : Declaration) (target place : Nat) : Attempt Bool :=
  match nodes[place]? with
  | some (.rule r) => do
    let between := (nodes.take place).drop target
    if Node.anySealed between || !r.declarations.contains d then return false
    else
      let moving := [Touch.ofDeclaration r.selectors d]
      let earlier := (r.declarations.takeWhile (· != d)).map (Touch.ofDeclaration r.selectors)
      if ← Touch.mayExchangeAll semantic moving earlier then
        Touch.mayExchangeAll semantic moving (Node.touchesOfAll between)
      else return false
  | _ => .ok false

/-- Narrows holders to those whose copy may travel up to the first of them that is left. -/
def movable (semantic : Bool) (nodes : List Node) (d : Declaration) (holders : List Nat) :
    Attempt (List Nat) :=
  match holders with
  | [] => .ok []
  | first :: others => do
    let kept ← keepWhere (mayRise semantic nodes d first) (first :: others)
    if kept.length < (first :: others).length then movable semantic nodes d kept
    else return first :: others
termination_by holders.length
decreasing_by assumption

/-- The declarations that two or more rules can give away, with the places of those rules. -/
def shared (semantic : Bool) (nodes : List Node) : Attempt (List (Declaration × List Nat)) := do
  let candidates := ((offered nodes).map fun d => (d, offerers nodes d)).filter (2 ≤ ·.2.length)
  let narrowed ← candidates.mapM fun (d, holders) => do return (d, ← movable semantic nodes d holders)
  return narrowed.filter (2 ≤ ·.2.length)

/-- Declarations with the same holders together. -/
def groups (pairs : List (Declaration × List Nat)) : List (List Declaration × List Nat) :=
  (pairs.map Prod.snd).eraseDups.map fun holders =>
    ((pairs.filter (·.2 == holders)).map Prod.fst, holders)

/-- The rules at these places. -/
def rulesAt (nodes : List Node) (places : List Nat) : List Rule :=
  places.filterMap fun place => nodes[place]?.bind Node.rule?

/-- The size of declarations with a semicolon after each. -/
def bodySize (declarations : List Declaration) : Nat := total (·.size + 1) declarations

/-- What a rule loses. A rule that gives away all it has goes altogether. -/
def lossOf (declarations : List Declaration) (r : Rule) : Nat :=
  if r.declarations.length == declarations.length then Text.byteLength r.print
  else bodySize declarations

/-- What the rules lose less the size of the new rule, if anything is left. -/
def gain? (rules : List Rule) (declarations : List Declaration) (selectors : List String) : Option Nat :=
  let added := Text.byteLength (Text.joined "," selectors) + 2 + bodySize declarations - 1
  let lost := total (lossOf declarations) rules
  if added < lost then some (lost - added) else none

/-- The move of a group, if its selectors may share a rule and it pays. -/
def ofGroup? (config : Config) (nodes : List Node) (group : List Declaration × List Nat) : Option Hoist := do
  let (declarations, holders) := group
  let rules := rulesAt nodes holders
  let selectors := Selector.key (rules.flatMap Rule.selectors)
  if Selector.areMergeable config.profile selectors then
    let gain ← gain? rules declarations selectors
    return { declarations, holders, selectors, gain }
  else none

/-- The last of those that gain most. -/
def lastBest? : List Hoist → Option Hoist
  | [] => none
  | h :: rest =>
    match lastBest? rest with
    | some best => if best.gain < h.gain then some h else some best
    | none => some h

/-- The move that gains most. -/
def best? (config : Config) (nodes : List Node) : Attempt (Option Hoist) := do
  let pairs ← shared config.options.mergeSemantically nodes
  return lastBest? ((groups pairs).filterMap (ofGroup? config nodes))

/-- What is left of a holder, optimized again since it may have room for new merges; nothing if it is
empty. -/
def strip (config : Config) (h : Hoist) (node : Node) : Option Node :=
  match node with
  | .rule r =>
    let left := r.declarations.filter fun d => !h.declarations.contains d
    let stripped := Node.rule { r with declarations := Body.optimize config left }
    if stripped.isEmpty then none else some stripped
  | node => if node.isEmpty then none else some node

/-- The rule that takes the declarations. -/
def rule (config : Config) (h : Hoist) : Rule :=
  { selectors := h.selectors, declarations := Body.optimize config h.declarations }

/-- Carries out the move. -/
def apply (config : Config) (h : Hoist) (nodes : List Node) : List Node :=
  let first := h.holders.headD 0
  let stripped := nodes.zipIdx.drop first |>.filterMap fun (node, place) =>
    if h.holders.contains place then h.strip config node else some node
  nodes.take first ++ .rule (h.rule config) :: stripped

end Hoist

namespace Siblings

/-- How many declarations the rules of a list hold. -/
def declarationCount (nodes : List Node) : Nat :=
  total (·.declarations.length) (nodes.filterMap Node.rule?)

/-- Moves declarations while that pays, `steps` times at most: the nodes, and how many declarations were
moved. -/
def hoistWithin (config : Config) : Nat → List Node → Attempt (List Node × Nat)
  | 0, nodes => .ok (nodes, 0)
  | steps + 1, nodes => do
    match ← Hoist.best? config nodes with
    | none => return (nodes, 0)
    | some h =>
      let (nodes, moved) ← hoistWithin config steps (h.apply config nodes)
      return (nodes, h.declarations.length + moved)

/-- Moves shared declarations into rules of their own while that pays. Each move leaves fewer
declarations than there were, so their number bounds how many moves there are. -/
def hoist (config : Config) (nodes : List Node) : Attempt (List Node × Nat) :=
  hoistWithin config (declarationCount nodes) nodes

end Siblings

end CssMinify
