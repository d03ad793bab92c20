import CssMinify.Registry
import CssMinify.Value.Keyword

/-!
The properties that the optimizer knows.
-/

namespace CssMinify

namespace Registry

/-- The color below all layers. -/
def backgroundColor : PropertySpec :=
  { PropertySpec.longhand "background-color" .color "transparent" with
    lastLayerOnly := true
    unmergeable := some "none" }

/-- The width of a line, which without a style is as good as zero. -/
def lineWidth (name : String) : PropertySpec :=
  { PropertySpec.longhand name (.unitOrKeyword Keyword.borderWidths) "medium" with
    shortest := some "0" }

def borderWidth : PropertySpec :=
  { PropertySpec.sides "border-width" ["border-top-width", "border-right-width",
      "border-bottom-width", "border-left-width"] "medium" with
    shortest := some "0" }

/-- The background and its layers. -/
def backgrounds : List PropertySpec :=
  [ .shorthand "background" ["background-image", "background-position", "background-size",
      "background-repeat", "background-attachment", "background-origin", "background-clip",
      "background-color"] .background .background "0 0",
    .longhand "background-attachment" (.keyword ["scroll", "fixed"]) "scroll",
    .longhand "background-clip" (.keyword ["border-box", "padding-box", "content-box"])
      "border-box",
    backgroundColor,
    .longhand "background-image" .image "none",
    .longhand "background-origin" (.keyword ["border-box", "padding-box", "content-box"])
      "padding-box",
    .longhand "background-position" .tokens "0 0",
    .longhand "background-repeat" (.keyword ["repeat", "repeat-x", "repeat-y", "no-repeat"])
      "repeat",
    .longhand "background-size" .tokens "auto" ]

/-- Borders, by side and by part. -/
def borders : List PropertySpec :=
  [ .line "border" ["border-width", "border-style", "border-color"] "none",
    .sides "border-color" ["border-top-color", "border-right-color", "border-bottom-color",
      "border-left-color"] "currentcolor",
    .sides "border-style" ["border-top-style", "border-right-style", "border-bottom-style",
      "border-left-style"] "none",
    borderWidth,
    .line "border-top" ["border-top-width", "border-top-style", "border-top-color"] "none",
    .line "border-right" ["border-right-width", "border-right-style", "border-right-color"]
      "none",
    .line "border-bottom" ["border-bottom-width", "border-bottom-style", "border-bottom-color"]
      "none",
    .line "border-left" ["border-left-width", "border-left-style", "border-left-color"] "none",
    .longhand "border-top-color" .color "currentcolor",
    .longhand "border-right-color" .color "currentcolor",
    .longhand "border-bottom-color" .color "currentcolor",
    .longhand "border-left-color" .color "currentcolor",
    .longhand "border-top-style" (.keyword Keyword.borderStyles) "none",
    .longhand "border-right-style" (.keyword Keyword.borderStyles) "none",
    .longhand "border-bottom-style" (.keyword Keyword.borderStyles) "none",
    .longhand "border-left-style" (.keyword Keyword.borderStyles) "none",
    lineWidth "border-top-width",
    lineWidth "border-right-width",
    lineWidth "border-bottom-width",
    lineWidth "border-left-width" ]

/-- Rounded corners. -/
def corners : List PropertySpec :=
  [ .shorthand "border-radius" ["border-top-left-radius", "border-top-right-radius",
      "border-bottom-right-radius", "border-bottom-left-radius"] .borderRadius .borderRadius "0",
    .longhand "border-top-left-radius" .tokens "0",
    .longhand "border-top-right-radius" .tokens "0",
    .longhand "border-bottom-right-radius" .tokens "0",
    .longhand "border-bottom-left-radius" .tokens "0" ]

/-- List markers. Which marker an element starts with depends on the element, so the initial type is a
text that no value equals. -/
def lists : List PropertySpec :=
  [ .shorthand "list-style" ["list-style-type", "list-style-position", "list-style-image"]
      .listStyle .withoutDefaults "outside",
    .longhand "list-style-type" (.keyword ["disc", "circle", "square", "decimal", "none",
      "lower-roman", "upper-roman", "lower-alpha", "upper-alpha"]) "__hack",
    .longhand "list-style-position" (.keyword ["inside", "outside"]) "outside",
    .longhand "list-style-image" .image "none" ]

/-- Margins and paddings. -/
def boxes : List PropertySpec :=
  [ .sides "margin" ["margin-top", "margin-right", "margin-bottom", "margin-left"] "0",
    .longhand "margin-top" (.unitOrKeyword ["auto"]) "0",
    .longhand "margin-right" (.unitOrKeyword ["auto"]) "0",
    .longhand "margin-bottom" (.unitOrKeyword ["auto"]) "0",
    .longhand "margin-left" (.unitOrKeyword ["auto"]) "0",
    .sides "padding" ["padding-top", "padding-right", "padding-bottom", "padding-left"] "0",
    .longhand "padding-top" .unit "0",
    .longhand "padding-right" .unit "0",
    .longhand "padding-bottom" .unit "0",
    .longhand "padding-left" .unit "0" ]

/-- The outline, which is split like a border. -/
def outlines : List PropertySpec :=
  [ .line "outline" ["outline-color", "outline-style", "outline-width"] "0",
    .longhand "outline-color" .color "invert",
    .longhand "outline-style" (.keyword Keyword.borderStyles) "none",
    lineWidth "outline-width" ]

/-- Longhands of no shorthand. -/
def others : List PropertySpec :=
  [ .longhand "bottom" (.unitOrKeyword ["auto"]) "auto",
    .longhand "clear" (.keyword ["left", "right", "both", "none"]) "none",
    .longhand "color" .color "transparent",
    .longhand "cursor" (.keyword ["auto", "crosshair", "default", "help", "move", "pointer",
      "progress", "text", "wait"]) "auto",
    .longhand "display" (.keyword ["block", "inline", "inline-block", "list-item", "none",
      "table", "table-cell", "table-row"]) "inline",
    .longhand "float" (.keyword ["left", "right", "none"]) "none",
    .longhand "font-size" (.unitOrKeyword ["xx-small", "x-small", "small", "medium", "large",
      "x-large", "xx-large", "larger", "smaller"]) "medium",
    .longhand "font-style" (.keyword ["normal", "italic", "oblique"]) "normal",
    .longhand "font-weight" (.unitOrKeyword ["normal", "bold", "bolder", "lighter"]) "normal",
    .longhand "height" (.unitOrKeyword ["auto"]) "auto",
    .longhand "left" (.unitOrKeyword ["auto"]) "auto",
    .longhand "letter-spacing" (.unitOrKeyword ["normal"]) "normal",
    .longhand "line-height" (.unitOrKeyword ["normal"]) "normal",
    .longhand "max-height" (.unitOrKeyword ["none"]) "none",
    .longhand "max-width" (.unitOrKeyword ["none"]) "none",
    .longhand "min-height" .unit "0",
    .longhand "min-width" .unit "0",
    .longhand "opacity" .unit "1",
    .longhand "overflow" (.keyword ["visible", "hidden", "scroll", "auto"]) "visible",
    .longhand "position" (.keyword ["static", "relative", "absolute", "fixed"]) "static",
    .longhand "right" (.unitOrKeyword ["auto"]) "auto",
    .longhand "text-align" (.keyword ["left", "right", "center", "justify"]) "left",
    .longhand "text-decoration" (.keyword ["none", "underline", "overline", "line-through"])
      "none",
    .longhand "text-indent" .unit "0",
    .longhand "top" (.unitOrKeyword ["auto"]) "auto",
    .longhand "vertical-align" (.unitOrKeyword ["baseline", "sub", "super", "text-top",
      "text-bottom", "middle", "top", "bottom"]) "baseline",
    .longhand "visibility" (.keyword ["visible", "hidden", "collapse"]) "visible",
    .longhand "white-space" (.keyword ["normal", "pre", "nowrap", "pre-wrap", "pre-line"])
      "normal",
    .longhand "width" (.unitOrKeyword ["auto"]) "auto",
    .longhand "word-spacing" (.unitOrKeyword ["normal"]) "normal",
    .longhand "z-index" (.unitOrKeyword ["auto"]) "auto" ]

/-- The table of all properties. -/
def table : List PropertySpec :=
  backgrounds ++ borders ++ corners ++ lists ++ boxes ++ outlines ++ others

/-- The registry of the table. -/
def builtin : Registry := ofSpecs table

end Registry

end CssMinify
