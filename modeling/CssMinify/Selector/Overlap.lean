import CssMinify.Selector.Basic

/-!
Can two selectors match one element? Only their subjects are compared, and only differences that rule a
common element out count.
-/

namespace CssMinify

namespace Selector

/-- What stands before the first double underscore or double hyphen. -/
def blockPart : List Char → List Char
  | '_' :: '_' :: _ => []
  | '-' :: '-' :: _ => []
  | c :: rest => c :: blockPart rest
  | [] => []

/-- The block that a class belongs to when classes are named block, element and modifier: `menu` for
`menu__item` and `menu--active`. -/
def bemBlock (name : String) : String := String.ofList (blockPart name.toList)

/-- Two sets that are not empty and have nothing in common. -/
def apart (a b : List String) : Bool :=
  !a.isEmpty && !b.isEmpty && !a.any b.contains

/-- Do two compounds differ in a way that no element can satisfy both? Under `semantic`, classes of
different blocks never meet. -/
def Compound.excludes (semantic : Bool) (a b : Compound) : Bool :=
  let otherElement := match a.elementName?, b.elementName? with
    | some x, some y => !Text.sameFolded x y
    | _, _ => false
  otherElement
    || apart a.ids b.ids
    || a.pseudoElement? != b.pseudoElement?
    || (semantic && apart (a.classNames.map bemBlock) (b.classNames.map bemBlock))

/-- May an element match both selectors? -/
def Complex.mayOverlap (semantic : Bool) (a b : Complex) : Bool :=
  match a.subject?, b.subject? with
  | some x, some y => !x.excludes semantic y
  | _, _ => true

end Selector

end CssMinify
