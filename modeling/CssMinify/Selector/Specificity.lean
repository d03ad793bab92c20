import CssMinify.Selector.Parser

/-!
How strongly a selector binds.
-/

namespace CssMinify

/-- Counts of ids, of classes and their like, and of types and pseudo-elements, in falling weight. -/
structure Specificity where
  ids : Nat
  classes : Nat
  types : Nat
  deriving DecidableEq, Repr

namespace Specificity

/-- Binds nothing. -/
def zero : Specificity := ⟨0, 0, 0⟩

def add (s t : Specificity) : Specificity :=
  ⟨s.ids + t.ids, s.classes + t.classes, s.types + t.types⟩

/-- Ids are compared first, then classes, then types. -/
def lt (s t : Specificity) : Bool :=
  s.ids < t.ids || (s.ids == t.ids && (s.classes < t.classes || (s.classes == t.classes && s.types < t.types)))

/-- The stronger of two. -/
def sup (s t : Specificity) : Specificity := if s.lt t then t else s

end Specificity

namespace Selector

/-- Pseudo-classes that bind as strongly as the strongest selector of their argument. -/
def bindsAsArgument (name : String) : Bool :=
  ["not", "is", "matches", "has", "-webkit-any", "-moz-any"].contains name

/-- The specificity of a simple selector, where `inner` gives that of an argument. -/
def Simple.specificityWith (inner : String → Except Fault Specificity) :
    Simple → Except Fault Specificity
  | .id _ => .ok ⟨1, 0, 0⟩
  | .className _ | .attribute .. => .ok ⟨0, 1, 0⟩
  | .pseudoClass name argument =>
    match argument with
    | some text =>
      if bindsAsArgument name then inner text
      else .ok (if name == "where" then .zero else ⟨0, 1, 0⟩)
    | none => .ok (if name == "where" then .zero else ⟨0, 1, 0⟩)
  | .element _ | .pseudoElement .. => .ok ⟨0, 0, 1⟩
  | .universal => .ok .zero

/-- The sum over all simple selectors. -/
def Complex.specificityWith (inner : String → Except Fault Specificity) (s : Complex) :
    Except Fault Specificity :=
  (s.parts.flatMap Part.compound).foldlM
    (fun total simple => do return total.add (← simple.specificityWith inner)) .zero

/-- The strongest specificity in a list, where arguments nest at most `depth` deep. -/
def specificityWithin : Nat → String → Except Fault Specificity
  | 0, _ => .ok .zero
  | depth + 1, text => do
    let selectors ← parseList text
    selectors.foldlM
      (fun best s => do return best.sup (← s.specificityWith (specificityWithin depth))) .zero

/-- The strongest specificity of the selectors in a text. An argument is shorter than the text it stands
in, so the length of the text bounds how deep arguments nest. -/
def specificity (text : String) : Except Fault Specificity :=
  specificityWithin (text.length + 1) text

def Complex.specificity (s : Complex) : Except Fault Specificity :=
  s.specificityWith Selector.specificity

end Selector

end CssMinify
