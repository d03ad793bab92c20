/-!
Keyword lists that more than one property takes its values from.
-/

namespace CssMinify

namespace Keyword

/-- Keywords that every property takes. -/
def globals : List String := ["inherit", "initial", "unset", "revert"]

def borderStyles : List String :=
  ["none", "hidden", "dotted", "dashed", "solid", "double", "groove", "ridge", "inset", "outset"]

def borderWidths : List String := ["thin", "medium", "thick"]

def attachments : List String := ["scroll", "fixed", "local"]

def boxes : List String := ["border-box", "padding-box", "content-box"]

def repeats : List String := ["repeat", "repeat-x", "repeat-y", "no-repeat", "space", "round"]

def positions : List String := ["left", "right", "top", "bottom", "center"]

def sizes : List String := ["auto", "cover", "contain"]

/-- Keywords of positions and of sizes, as far as every engine knows them. -/
def positionsAndSizes : List String :=
  ["auto", "left", "right", "top", "bottom", "center", "cover", "contain"]

def markerPositions : List String := ["inside", "outside"]

def markers : List String :=
  ["armenian", "circle", "cjk-ideographic", "decimal", "decimal-leading-zero", "disc", "georgian",
   "hebrew", "hiragana", "hiragana-iroha", "katakana", "katakana-iroha", "lower-alpha", "lower-greek",
   "lower-latin", "lower-roman", "none", "square", "upper-alpha", "upper-latin", "upper-roman"]

def imageFunctions : List String :=
  ["linear-gradient", "radial-gradient", "repeating-linear-gradient", "repeating-radial-gradient",
   "conic-gradient", "image-set", "cross-fade", "element", "image"]

def calculations : List String := ["calc", "min", "max", "clamp"]

def colorFunctions : List String := ["rgb", "rgba", "hsl", "hsla"]

def translucentFunctions : List String := ["rgba", "hsla"]

end Keyword

end CssMinify
