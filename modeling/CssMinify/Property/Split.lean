import CssMinify.Property.Basic

/-!
Splitting the values of shorthands. Every splitter classifies the whole value or gives up.
-/

namespace CssMinify

namespace Split

/-- The initial value of a property of the table. -/
def initialOf (name : String) : Value :=
  ((Registry.builtin.find? name).map Descriptor.initialValue).getD []

/-- The four sides of one to four tokens: `a` is `a a a a`, `a b` is `a b a b`, `a b c` is `a b c b`. -/
def fourValues? (tokens : Value) : Option (List Value) :=
  if tokens.any isSeparator then none
  else match tokens with
    | [a] => some [[a], [a], [a], [a]]
    | [a, b] => some [[a], [b], [a], [b]]
    | [a, b, c] => some [[a], [b], [c], [b]]
    | [a, b, c, d] => some [[a], [b], [c], [d]]
    | _ => none

/-- Horizontal radii, and vertical ones after a slash. A corner whose radii differ gets both. -/
def borderRadius? (tokens : Value) : Option (List Value) :=
  match tokens.span (· != "/") with
  | (horizontal, []) => fourValues? horizontal
  | (horizontal, _ :: vertical) => do
    let hs ← fourValues? horizontal
    let vs ← fourValues? vertical
    return hs.zipWith (fun h v => if h == v then h else h ++ v) vs

/-- What has been found in a layer of a background. -/
structure Layer where
  image : Option String := none
  position : Value := []
  size : Value := []
  repeats : Value := []
  attachment : Option String := none
  boxes : Value := []
  color : Option String := none

/-- Classifies the tokens of a layer, after `layer` has been found. A token goes to the first part that
it fits and that is still to be found. -/
def layerFrom? (profile : Profile) (layer : Layer) : Value → Option Layer
  | [] => some layer
  | token :: rest =>
    if token == "/" then
      let size := (rest.take 2).takeWhile (Word.isSize profile)
      if layer.position.isEmpty || !layer.size.isEmpty || size.isEmpty then none
      else layerFrom? profile { layer with size } (rest.drop size.length)
    else if layer.image.isNone && Word.isImage token then
      layerFrom? profile { layer with image := some token } rest
    else if layer.attachment.isNone && Word.isAttachment token then
      layerFrom? profile { layer with attachment := some token } rest
    else if layer.boxes.length < 2 && Word.isBox token then
      layerFrom? profile { layer with boxes := layer.boxes ++ [token] } rest
    else if layer.repeats.isEmpty && Word.isRepeat token then
      let more := (rest.take 1).takeWhile Word.isRepeat
      layerFrom? profile { layer with repeats := token :: more } (rest.drop more.length)
    else if layer.position.isEmpty && Word.isPosition profile token then
      let more := (rest.take 3).takeWhile (Word.isPosition profile)
      layerFrom? profile { layer with position := token :: more } (rest.drop more.length)
    else if layer.color.isNone && Word.isColor token then
      layerFrom? profile { layer with color := some token } rest
    else none
termination_by tokens => tokens.length
decreasing_by all_goals (simp only [List.length_cons, List.length_drop]; omega)

/-- What a layer says of a component, or the component's initial value. -/
def orInitial (name : String) (found : Value) : Value :=
  if found.isEmpty then initialOf name else found

/-- The layers of a background, each of which has something in it. Only the last one may have a color. -/
def background? (profile : Profile) (tokens : Value) : Option (List Value) := do
  let groups := tokens.layers
  if groups.any List.isEmpty then none
  else
    let layers ← groups.mapM (layerFrom? profile {})
    if layers.dropLast.any (·.color.isSome) then none
    else
      let perLayer (name : String) (pick : Layer → Value) : Value :=
        Value.ofLayers (layers.map fun layer => orInitial name (pick layer))
      some
        [perLayer "background-image" (·.image.toList),
         perLayer "background-position" (·.position),
         perLayer "background-size" (·.size),
         perLayer "background-repeat" (·.repeats),
         perLayer "background-attachment" (·.attachment.toList),
         perLayer "background-origin" (·.boxes.head?.toList),
         perLayer "background-clip" (·.boxes.getLast?.toList),
         orInitial "background-color" ((layers.getLast?.bind Layer.color).toList)]

/-- What has been found in a border or an outline. -/
structure Line where
  width : Option String := none
  style : Option String := none
  color : Option String := none
  others : Value := []

/-- Gives a token to the first part that it fits and that is still to be found. -/
def Line.add (profile : Profile) (line : Line) (token : String) : Line :=
  if line.width.isNone && Word.isBorderWidth profile token then { line with width := some token }
  else if line.style.isNone && Word.isBorderStyle token then { line with style := some token }
  else if line.color.isNone && Word.isColor token then { line with color := some token }
  else { line with others := line.others ++ [token] }

/-- A width, a style and a color in any order. One token that fits nothing is taken for the color. -/
def line? (profile : Profile) (components : List String) (tokens : Value) : Option (List Value) := do
  if tokens.length > 3 || tokens.any isSeparator then none
  else
    let found := tokens.foldl (Line.add profile) {}
    let color ← match found.others, found.color with
      | [], color => some color
      | [token], none => some (some token)
      | _, _ => none
    return components.map fun name =>
      orInitial name <|
        if Text.endsWith name "-width" then found.width.toList
        else if Text.endsWith name "-style" then found.style.toList
        else color.toList

/-- What has been found in a list style. -/
structure ListStyle where
  marker : Option String := none
  position : Option String := none
  image : Option String := none

def ListStyle.add? (style : ListStyle) (token : String) : Option ListStyle :=
  if style.position.isNone && Word.isMarkerPosition token then some { style with position := some token }
  else if style.marker.isNone && Word.isMarker token then some { style with marker := some token }
  else if style.image.isNone && Word.isImage token then some { style with image := some token }
  else none

/-- A marker, its position and an image in any order. -/
def listStyle? (tokens : Value) : Option (List Value) := do
  if tokens.length > 3 then none
  else
    let found ← tokens.foldlM ListStyle.add? {}
    return [orInitial "list-style-type" found.marker.toList,
            orInitial "list-style-position" found.position.toList,
            orInitial "list-style-image" found.image.toList]

/-- The values of a shorthand's components. A keyword that every property takes goes to all of them. -/
def values? (profile : Profile) (d : Descriptor) (value : Value) : Option (List Value) := do
  let kind ← d.split
  if value.length == 1 && value.all Word.isGlobal then some (d.components.map fun _ => value)
  else match kind with
    | .fourValues => fourValues? value
    | .borderRadius => borderRadius? value
    | .background => background? profile value
    | .border => line? profile d.components value
    | .listStyle => listStyle? value

end Split

namespace Property

/-- The components of a property in order, where shorthands nest at most `depth` deep. -/
def componentsWithin? (profile : Profile) : Nat → Property → Option (List Property)
  | 0, _ => none
  | depth + 1, p => do
    let d ← p.descriptor?
    if p.dynamic then none
    else
      let values ← Split.values? profile d p.value
      (d.components.zip values).mapM fun (name, value) =>
        let component := bare { p.toDeclaration with name, value } p.position
        if component.isShorthand then
          (componentsWithin? profile depth component).map fun components => { component with components }
        else some component

/-- A shorthand may have shorthands as components, but those have longhands. -/
def nesting : Nat := 2

def components? (profile : Profile) (p : Property) : Option (List Property) :=
  componentsWithin? profile nesting p

/-- A property with its components, as far as its value can be split. -/
def wrap (profile : Profile) (d : Declaration) (position : Nat) : Property :=
  let p := bare d position
  if p.isShorthand then { p with components := (components? profile p).getD [] } else p

/-- The component `name` of a shorthand, split further if it is a shorthand itself. -/
def component? (profile : Profile) (parent : Property) (name : String) (value : Value) :
    Option Property :=
  let component := bare { parent.toDeclaration with name, value } parent.position
  if component.isShorthand then
    (components? profile component).map fun components => { component with components }
  else some component

/-- The properties of a body, numbered. -/
def wrapAll (profile : Profile) (declarations : List Declaration) : List Property :=
  declarations.zipIdx.map fun (d, position) => wrap profile d position

end Property

end CssMinify
