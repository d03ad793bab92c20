import CssMinify.Sheet.Printer
import CssMinify.Value.Word

/-!
What a declaration sets and on which elements, taken out of its rule.
-/

namespace CssMinify

namespace Property

/-- The first run of ASCII letters in a text. -/
def firstWord (s : List Char) : List Char := (s.dropWhile (!·.isAlpha)).takeWhile Char.isAlpha

/-- The family that a property belongs to. Properties of different families never set a longhand in
common, except for borders: `margin` for `margin-left`, `border-top` for `border-top-color`. -/
def family (name : String) : String :=
  if name == "list-style" then name
  else if Text.contains name "-radius" then "border-radius"
  else if ["border-collapse", "border-spacing", "border-image"].contains name then name
  else match Text.afterStart? name "border-" with
    | some rest =>
      match Text.cutAtFirst? '-' rest with
      | some (side, _) => "border-" ++ side
      | none => "border"
    | none =>
      if Text.startsWith name "text-" then name
      else
        let word := firstWord (Word.unprefixed name).toList
        if word.isEmpty then name else Text.lower (String.ofList word)

end Property

/-- What one declaration sets. -/
structure Touch where
  /-- In lower case. -/
  name : String
  /-- The text of the value. -/
  value : String
  /-- The family of the property. -/
  family : String
  selectors : List String
  important : Bool
  deriving DecidableEq, Repr

namespace Touch

/-- What a declaration sets in a rule with these selectors. -/
def ofDeclaration (selectors : List String) (d : Declaration) : Touch :=
  let name := Text.lower d.name
  { name, value := Value.print d.value, family := Property.family name, selectors, important := d.important }

end Touch

def Rule.touches (r : Rule) : List Touch := r.declarations.map (Touch.ofDeclaration r.selectors)

namespace Node

mutual

/-- All that a node sets on elements. Animation frames, descriptions of fonts, statements and comments
set nothing. -/
def touches : Node → List Touch
  | rule r => r.touches
  | block head children => if isKeyframesHead head then [] else touchesOfAll children
  | fields .. | statement _ | comment _ => []

def touchesOfAll : List Node → List Touch
  | [] => []
  | node :: rest => node.touches ++ touchesOfAll rest

end

end Node

end CssMinify
