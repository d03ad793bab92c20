import CssMinify.Cascade.Touch
import CssMinify.Selector.Overlap
import CssMinify.Selector.Specificity

/-!
May two declarations change places? They may when no element could end up with another value. Names,
values and importance decide most pairs; the rest depends on whether the selectors bind differently or
can never meet.
-/

namespace CssMinify

namespace Touch

/-- Words in the names of properties that belong to the layout of flexible boxes. -/
def flexWords : List String := ["align-items", "box-align", "box-pack", "flex", "justify"]

def isFlex (t : Touch) : Bool := flexWords.any (Text.contains t.name)

def sideBorders : List String := ["border-top", "border-right", "border-bottom", "border-left"]

def aspectBorders : List String := ["border-color", "border-style", "border-width"]

/-- Families that are called borders but share nothing with `border`. -/
def separateBorders : List String := ["border-radius", "border-collapse", "border-spacing", "border-image"]

/-- The last of the words that make up a name. -/
def lastWord (name : String) : Option String := (Text.splitAtEach '-' name).getLast?

/-- Does a border property set what the border property `b` sets too? -/
def borderMeets (a b : Touch) : Bool :=
  a.family == "border" && Text.startsWith b.family "border" && !separateBorders.contains b.family
    && (a.name == "border" || a.name == b.family
      || (a.value != b.value && lastWord a.name == lastWord b.name))

/-- One property with the mark of a vendor and without. -/
def differInPrefix (a b : Touch) : Bool :=
  Word.unprefixed a.name == Word.unprefixed b.name
    && (Word.vendorPrefix? a.name).isSome != (Word.vendorPrefix? b.name).isSome

/-- Values that are meant for different vendors. -/
def vendorsDiffer (a b : String) : Bool := Word.vendorPrefix? a != Word.vendorPrefix? b

/-- Names that set a side of a border and an aspect of all sides. -/
def crossBorders (a b : String) : Bool :=
  (sideBorders.contains a && aspectBorders.contains b) || (aspectBorders.contains a && sideBorders.contains b)

/-- Pairs whose order matters whatever their selectors are. -/
def isFixed (a b : Touch) : Bool :=
  (a.name == "font" && b.name == "line-height") || (b.name == "font" && a.name == "line-height")
    || (a.isFlex && b.isFlex) || a.differInPrefix b || a.borderMeets b || b.borderMeets a
    || (a.name != b.name && crossBorders a.name b.name)

/-- Pairs whose order does not matter whatever their selectors are: those of different families, those
that set the same value, two longhands of one family, and those that differ in importance. -/
def isIndependent (a b : Touch) : Bool :=
  a.family != b.family
    || (a.name == b.name && (a.value == b.value || vendorsDiffer a.value b.value))
    || (a.name != b.name && a.name != a.family && b.name != b.family)
    || (a.name != b.name && a.value == b.value)
    || a.important != b.important

end Touch

namespace Selector

/-- Does every selector of one list bind differently from every one of the other? -/
def bindDifferently (a b : List String) : Except Fault Bool :=
  a.allM fun left => do
    let strength ← specificity left
    b.allM fun right => do return (← specificity right) != strength

/-- Can no element match a selector of either list? A text in which no selector can be read tells
nothing. -/
def neverMeet (semantic : Bool) (a b : List String) : Except Fault Bool :=
  a.allM fun left => do
    let ls ← parseList left
    b.allM fun right => do
      let rs ← parseList right
      return !ls.isEmpty && !rs.isEmpty && ls.all fun l => rs.all fun r => !l.mayOverlap semantic r

end Selector

namespace Touch

/-- May two declarations change places? -/
def mayExchange (semantic : Bool) (a b : Touch) : Except Selector.Fault Bool := do
  if a.isFixed b then return false
  else if a.isIndependent b then return true
  else if ← Selector.bindDifferently a.selectors b.selectors then return true
  else Selector.neverMeet semantic a.selectors b.selectors

/-- May every declaration of `moving` change places with every one of `fixed`? -/
def mayExchangeAll (semantic : Bool) (moving fixed : List Touch) : Except Selector.Fault Bool :=
  moving.allM fun m => fixed.allM fun f => m.mayExchange semantic f

end Touch

end CssMinify
