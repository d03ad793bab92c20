import CssMinify.Cascade.Travel
import CssMinify.Property.Body
import CssMinify.Selector.Merging

/-!
Rules that can be merged with others of one list of siblings, and how two of them compare.
-/

namespace CssMinify

/-- Passes over siblings fail where a selector cannot be read. -/
abbrev Attempt (α : Type) := Except Selector.Fault α

namespace Rule

/-- Two rules that target the same elements. -/
def sameSelectors (a b : Rule) : Bool := Selector.key a.selectors == Selector.key b.selectors

/-- Two rules whose bodies have the same text. -/
def sameBody (a b : Rule) : Bool :=
  Declaration.printBody a.declarations == Declaration.printBody b.declarations

/-- The declarations of two rules as one body. -/
def bodyWith (config : Config) (first second : Rule) : List Declaration :=
  Body.optimize config (first.declarations ++ second.declarations)

def selectorsWith (a b : Rule) : List String := Selector.union a.selectors b.selectors

/-- May two rules become one with the selectors of both? -/
def mayShareBody (config : Config) (a b : Rule) : Bool :=
  a.sameBody b && Selector.areMergeable config.profile (a.selectorsWith b)

end Rule

namespace Node

/-- A rule that sets something and holds nothing but declarations. -/
def plainRule? (node : Node) : Option Rule :=
  match node with
  | rule r => if node.isEmpty || r.selectors.isEmpty || !r.nested.isEmpty then none else some r
  | _ => none

/-- Two plain rules that `related` relates. -/
def plainRules (related : Rule → Rule → Bool) (a b : Node) : Bool :=
  match a.plainRule?, b.plainRule? with
  | some r, some s => related r s
  | _, _ => false

end Node

end CssMinify
