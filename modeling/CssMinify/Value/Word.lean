import CssMinify.Color.Names
import CssMinify.Profile
import CssMinify.Value.Keyword
import CssMinify.Value.Number

/-!
What a token of a value looks like. These are checks of shape: they tell a color from a length from a
keyword, and evaluate nothing.
-/

namespace CssMinify

namespace Word

/-- The name of a function token, such as `rgba` for `rgba(0,0,0,.5)`. -/
def functionName? (token : String) : Option String :=
  match Text.cutAtFirst? '(' token with
  | some (name, _) =>
    if !name.isEmpty && Text.endsWith token ")"
        && name.toList.all (fun c => c.isAlphanum || c == '-' || c == '_') then some name
    else none
  | none => none

/-- The marks that vendors put in front of names. -/
def vendorPrefixes : List String := ["-webkit-", "-moz-", "-ms-", "-o-"]

def vendorPrefix? (token : String) : Option String := vendorPrefixes.find? (Text.startsWith token)

/-- A name without the mark of a vendor. -/
def unprefixed (name : String) : String :=
  ((vendorPrefix? name).bind (Text.afterStart? name)).getD name

def isGlobal (token : String) : Bool := Text.isOneOf Keyword.globals token

def isInherit (token : String) : Bool := Text.sameFolded token "inherit"

/-- Does the token refer to a custom property? -/
def isVariable (token : String) : Bool := Text.contains (Text.lower token) "var("

def isFunction (token : String) : Bool := (functionName? token).isSome

def isUrl (token : String) : Bool := (functionName? token).any (Text.sameFolded · "url")

/-- A number, in a unit that the profile allows. -/
def isUnit (profile : Profile) (token : String) : Bool := (unit? token).any profile.units.allows

def isCalculation (token : String) : Bool :=
  (functionName? token).any fun name => Text.isOneOf Keyword.calculations (unprefixed name)

def isHexColor (token : String) : Bool :=
  match token.toList with
  | '#' :: digits => [3, 4, 6, 8].contains digits.length && digits.all Text.isHexDigit
  | _ => false

def isNamedColor (token : String) : Bool :=
  Color.isName token || Text.sameFolded token "transparent" || Text.sameFolded token "currentcolor"

def isColorFunction (token : String) : Bool :=
  (functionName? token).any (Text.isOneOf Keyword.colorFunctions)

/-- A color function with an alpha channel. -/
def isTranslucentFunction (token : String) : Bool :=
  (functionName? token).any (Text.isOneOf Keyword.translucentFunctions)

def isColor (token : String) : Bool :=
  isHexColor token || isNamedColor token || isColorFunction token

def isBorderStyle (token : String) : Bool := Text.isOneOf Keyword.borderStyles token

def isBorderWidth (profile : Profile) (token : String) : Bool :=
  Text.isOneOf Keyword.borderWidths token || isUnit profile token || isCalculation token

def isAttachment (token : String) : Bool := Text.isOneOf Keyword.attachments token

def isBox (token : String) : Bool := Text.isOneOf Keyword.boxes token

def isRepeat (token : String) : Bool := Text.isOneOf Keyword.repeats token

def isPosition (profile : Profile) (token : String) : Bool :=
  Text.isOneOf Keyword.positions token || isUnit profile token || isCalculation token

def isSize (profile : Profile) (token : String) : Bool :=
  Text.isOneOf Keyword.sizes token || isUnit profile token || isCalculation token

def isImage (token : String) : Bool :=
  Text.sameFolded token "none" || isUrl token
    || (functionName? token).any fun name => Text.isOneOf Keyword.imageFunctions (unprefixed name)

def isMarker (token : String) : Bool := Text.isOneOf Keyword.markers token

def isMarkerPosition (token : String) : Bool := Text.isOneOf Keyword.markerPositions token

/-- One of the keywords, or one that every property takes. -/
def isKeyword (keywords : List String) (token : String) : Bool :=
  Text.isOneOf keywords token || isGlobal token

end Word

end CssMinify
