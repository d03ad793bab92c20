import CssMinify.Property.Split

/-!
Putting the value of a shorthand together from its components: what equals its initial value is left out,
and the shortest form is picked. There is no value if the shorthand cannot say what the components say.
-/

namespace CssMinify

namespace Restore

/-- The shortest of the forms with one to four values. A list of another length stays as it is. -/
def collapseFour {α : Type} [DecidableEq α] : List α → List α
  | [top, right, bottom, left] =>
    if right ≠ left then [top, right, bottom, left]
    else if top ≠ bottom then [top, right, bottom]
    else if top ≠ right then [top, right]
    else [top]
  | values => values

/-- The value of a side. A free one takes that of the opposite side, or its initial value if that one is
free too. -/
def sideValue (p opposite : Property) : Value :=
  if !p.free then p.value
  else if !opposite.free then opposite.value
  else (p.descriptor?.map Descriptor.initialValue).getD p.value

/-- Four sides of one token each. -/
def fourValues? : List Property → Option Value
  | [top, right, bottom, left] =>
    let values := [sideValue top bottom, sideValue right left, sideValue bottom top, sideValue left right]
    if values.all (·.length == 1) then some (collapseFour values).flatten else none
  | _ => none

/-- The horizontal and the vertical radius of a corner. -/
def radii? (p : Property) : Option (String × String) :=
  match p.value with
  | [h] => some (h, h)
  | [h, v] => some (h, v)
  | _ => none

def borderRadius? (components : List Property) : Option Value := do
  if components.length != 4 then none
  else
    let radii ← components.mapM radii?
    let horizontal := radii.map Prod.fst
    let vertical := radii.map Prod.snd
    some <| collapseFour horizontal
      ++ (if vertical = horizontal then [] else "/" :: collapseFour vertical)

/-- The parts of one layer of a background. -/
structure Layer where
  image : Value
  position : Value
  size : Value
  repeats : Value
  attachment : Value
  origin : Value
  clip : Value

/-- A part of a layer, unless it is what it would be anyway. -/
def unlessInitial (name : String) (value : Value) : Value :=
  if value = Split.initialOf name then [] else value

/-- The tokens of a layer. A size needs the position in front of it, and a box for the clip needs that
for the origin. -/
def Layer.tokens (l : Layer) : Value :=
  unlessInitial "background-image" l.image
    ++ (if l.size ≠ Split.initialOf "background-size" then l.position ++ "/" :: l.size
        else unlessInitial "background-position" l.position)
    ++ unlessInitial "background-repeat" l.repeats
    ++ unlessInitial "background-attachment" l.attachment
    ++ (if l.origin ≠ Split.initialOf "background-origin" ∨ l.clip ≠ Split.initialOf "background-clip" then
          l.origin ++ (if l.clip = l.origin then [] else l.clip)
        else [])

/-- A layer cannot be empty; the initial position says nothing in the fewest characters. -/
def nonEmpty (tokens : Value) : Value :=
  if tokens.isEmpty then Split.initialOf "background-position" else tokens

/-- The layers of a background, the last of which has the color. -/
def layerTokens (color : Value) : List Layer → List Value
  | [] => []
  | [l] => [nonEmpty (l.tokens ++ unlessInitial "background-color" color)]
  | l :: rest => nonEmpty l.tokens :: layerTokens color rest

def background? (components : List Property) : Option Value := do
  let valueOf (name : String) : Option Value := (components.find? (·.name == name)).map (·.value)
  let images := (← valueOf "background-image").layers
  let perLayer (name : String) : Option (List Value) := do
    let layers := (← valueOf name).layers
    if layers.length == images.length then some layers else none
  let positions ← perLayer "background-position"
  let sizes ← perLayer "background-size"
  let repeats ← perLayer "background-repeat"
  let attachments ← perLayer "background-attachment"
  let origins ← perLayer "background-origin"
  let clips ← perLayer "background-clip"
  let color ← valueOf "background-color"
  let layers :=
    (images.zip (positions.zip (sizes.zip (repeats.zip (attachments.zip (origins.zip clips)))))).map
      fun (image, position, size, rep, attachment, origin, clip) =>
        Layer.mk image position size rep attachment origin clip
  return Value.ofLayers (layerTokens color layers)

/-- The keyword for every property that all the leaves have. -/
def sharedGlobal? : List Property → Option Value
  | [] => none
  | first :: rest =>
    if first.value.length == 1 && first.value.all Word.isGlobal && rest.all (·.value == first.value) then
      some first.value
    else none

end Restore

namespace Property

mutual

/-- The value of a shorthand that has these components. -/
def restore? : Property → Option Value
  | p@(.mk _ components ..) => do
    let d ← p.descriptor?
    let kind ← d.restore
    if components.isEmpty then none
    else
      let leaves := p.leaves
      match Restore.sharedGlobal? leaves with
      | some value => some value
      | none =>
        if leaves.any (·.value.any Word.isGlobal) then none
        else match kind with
          | .fourValues => Restore.fourValues? components
          | .borderRadius => Restore.borderRadius? components
          | .background => Restore.background? components
          | .withoutDefaults =>
            (withoutDefaults? components).map fun value =>
              if value.isEmpty then d.shortestValue else value

/-- The components that differ from their initial values. A component that is a shorthand has to come
down to one token. -/
def withoutDefaults? : List Property → Option Value
  | [] => some []
  | c :: rest => do
    let tokens ←
      if c.isAnalysed then (restore? c).bind fun value => if value.length == 1 then some value else none
      else some c.value
    let more ← withoutDefaults? rest
    return if c.descriptor?.any (·.initialValue == tokens) then more else tokens ++ more

end

/-- Does `value` split into the components of the property again? Free ones may come back with any
value. -/
def verifies (profile : Profile) (p : Property) (value : Value) : Bool :=
  let again := wrap profile { p.toDeclaration with value } p.position
  let (expected, actual) := (p.leaves, again.leaves)
  again.isAnalysed && expected.length == actual.length
    && (expected.zip actual).all fun (e, a) => e.name == a.name && (e.free || e.value == a.value)

end Property

end CssMinify
