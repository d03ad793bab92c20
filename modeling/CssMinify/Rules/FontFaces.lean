import CssMinify.Sheet.Printer

/-!
Dropping descriptions of fonts that repeat an earlier one.
-/

namespace CssMinify

namespace Node

/-- The text of a description of a font. -/
def fontFace? : Node → Option String
  | fields head declarations =>
    if Text.sameFolded head "@font-face" then some (Declaration.printBody declarations) else none
  | _ => none

end Node

namespace Siblings

/-- Drops descriptions of fonts whose text is among `seen` or repeats. -/
def keepFirstFontFaces (seen : List String) : List Node → List Node
  | [] => []
  | node :: rest =>
    match node.fontFace? with
    | some body =>
      if seen.contains body then keepFirstFontFaces seen rest
      else node :: keepFirstFontFaces (body :: seen) rest
    | none => node :: keepFirstFontFaces seen rest

/-- Drops descriptions of fonts that repeat an earlier one. -/
def removeDuplicateFontFaces (nodes : List Node) : List Node := keepFirstFontFaces [] nodes

end Siblings

end CssMinify
