import CssMinify.Property.Split

/-!
May a later value replace an earlier one? It may when every engine that understands the earlier value
also understands the later one; otherwise the earlier one is there for the engines that do not.
-/

namespace CssMinify

/-- How widely a token is understood, from little to much. -/
inductive Reach where
  | unknown
  | function
  | translucent
  /-- By every engine that the profile is meant for. -/
  | universal
  deriving DecidableEq, Repr

namespace Reach

def ofFunction (token : String) : Reach := if Word.isFunction token then function else unknown

def ofColor (profile : Profile) (token : String) : Reach :=
  if Word.isHexColor token || Word.isNamedColor token then universal
  else if Word.isColorFunction token then
    if Word.isTranslucentFunction token && !profile.opacity then function else translucent
  else ofFunction token

/-- How widely a token is understood as a value of this kind. -/
def of (profile : Profile) (kind : OverrideKind) (token : String) : Reach :=
  if Word.isGlobal token then universal
  else match kind with
    | .sameValue | .border => unknown
    | .unit => if Word.isUnit profile token then universal else ofFunction token
    | .unitOrKeyword keywords =>
      if Word.isUnit profile token || Word.isKeyword keywords token then universal else ofFunction token
    | .tokens =>
      if Word.isUnit profile token || Word.isKeyword Keyword.positionsAndSizes token then universal
      else ofFunction token
    | .keyword keywords => if Word.isKeyword keywords token then universal else unknown
    | .color => ofColor profile token
    | .image =>
      if Text.sameFolded token "none" || Word.isUrl token then universal else ofFunction token

end Reach

namespace Override

def sameFunction (left right : String) : Bool :=
  match Word.functionName? left, Word.functionName? right with
  | some a, some b => Text.sameFolded a b
  | _, _ => false

/-- May the token `right` replace the token `left`? -/
def token (profile : Profile) (kind : OverrideKind) (left right : String) : Bool :=
  if left == right then true
  else if isSeparator left || isSeparator right then false
  else
    let reach := Reach.of profile kind left
    match Reach.of profile kind right with
    | .universal => true
    | .unknown => false
    | .function => (reach == .unknown || reach == .function) && sameFunction left right
    | .translucent => reach != .universal

/-- Values of one length are compared token by token; otherwise the new one has to be understood by
all. -/
def tokens (profile : Profile) (kind : OverrideKind) (left right : Value) : Bool :=
  if left.length == right.length then (left.zip right).all fun (l, r) => token profile kind l r
  else right.all fun r => isSeparator r || Reach.of profile kind r == .universal

/-- The vendors whose marks occur in a value. -/
def vendors (value : Value) : List String :=
  Word.vendorPrefixes.filter fun mark => value.any fun token => Word.vendorPrefix? token == some mark

/-- What holds for every kind of value: the same value may replace itself, one that refers to a custom
property may be replaced by anything but replaces only its like, and marks of vendors have to agree.
Beyond that `otherwise` decides. -/
def guarded (left right : Value) (otherwise : Bool) : Bool :=
  if left == right then true
  else if left.any Word.isVariable then true
  else if right.any Word.isVariable then false
  else if vendors left != vendors right then false
  else otherwise

/-- The kinds of a border's width, style and color. -/
def lineKinds : List OverrideKind :=
  [.unitOrKeyword Keyword.borderWidths, .keyword Keyword.borderStyles, .color]

/-- Splits two borders and compares them part by part. -/
def lines (profile : Profile) (left right : Value) : Bool :=
  let split (value : Value) := (Property.wrap profile { name := "border", value } 0).components
  let (left, right) := (split left, split right)
  !left.isEmpty && !right.isEmpty
    && ((left.zip right).zip lineKinds).all fun ((l, r), kind) =>
      guarded l.value r.value (tokens profile kind l.value r.value)

/-- May `right` replace `left`, as values of this kind? -/
def values (profile : Profile) (kind : OverrideKind) (left right : Value) : Bool :=
  guarded left right <|
    match kind with
    | .sameValue => false
    | .border => lines profile left right
    | kind => tokens profile kind left right

end Override

/-- May `right` replace `left` as the value of this property? -/
def canOverride (profile : Profile) (name : String) (left right : Value) : Bool :=
  let kind := ((Registry.builtin.find? name).map (·.override)).getD .sameValue
  Override.values profile kind left right

end CssMinify
