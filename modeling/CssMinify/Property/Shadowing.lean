import CssMinify.Config
import CssMinify.Property.Override
import CssMinify.Property.Restore

/-!
Compacting the declarations of one body against each other. Every later declaration is compared with
every earlier one, the last ones first. Of two that set the same property, or of which one covers the
other, one may be dropped; a longhand may be folded into an earlier shorthand. Nothing happens where an
engine could rely on the declaration that would go.
-/

namespace CssMinify

namespace Property

/-- The pairs of an earlier and a later place below `count`, those with the latest places first. -/
def backwardPairs (count : Nat) : List (Nat × Nat) :=
  (List.range count).reverse.flatMap fun later =>
    (List.range later).reverse.map fun earlier => (earlier, later)

/-- What becomes of a pair. -/
inductive Verdict where
  | keepBoth
  | dropEarlier
  | dropLater
  /-- The later one goes, and the earlier one becomes this. -/
  | foldInto (merged : Property)

/-- Applies what `judge` says of two properties and of those between them, unless one of the two is
dead. -/
def judgeAt (judge : Property → List Property → Property → Verdict) (properties : List Property)
    (places : Nat × Nat) : List Property :=
  let (i, j) := places
  match properties[i]?, properties[j]? with
  | some earlier, some later =>
    if earlier.unused || later.unused then properties
    else match judge earlier ((properties.take j).drop (i + 1)) later with
      | .keepBoth => properties
      | .dropEarlier => properties.set i { earlier with unused := true }
      | .dropLater => properties.set j { later with unused := true }
      | .foldInto merged => (properties.set i merged).set j { later with unused := true }
  | _, _ => properties

def judgeAll (judge : Property → List Property → Property → Verdict) (properties : List Property) :
    List Property :=
  (backwardPairs properties.length).foldl (judgeAt judge) properties

/-- A declaration that a later one repeats, at least as important, is not needed. -/
def judgeDuplicate (earlier : Property) (_between : List Property) (later : Property) : Verdict :=
  if earlier.name == later.name && earlier.value == later.value && earlier.hack == later.hack
      && (later.important || !earlier.important) then .dropEarlier
  else .keepBoth

/-- Drops declarations that are repeated later. -/
def removeDuplicates (properties : List Property) : List Property :=
  judgeAll judgeDuplicate properties

/-- May every longhand of `later` replace the same longhand of `earlier`? A property without components
has its own value for every longhand. -/
def leavesReplaceable (profile : Profile) (earlier later : Property) : Bool :=
  later.leaves.all fun leaf =>
    if earlier.components.isEmpty then canOverride profile leaf.name earlier.value leaf.value
    else match earlier.find? leaf.name with
      | some component => canOverride profile leaf.name component.value leaf.value
      | none => false

/-- Two declarations of one property, one of which is no shorthand with known components. -/
def judgeSame (profile : Profile) (earlier later : Property) : Verdict :=
  if earlier.important && !later.important then
    if canOverride profile earlier.name later.value earlier.value then .dropLater else .keepBoth
  else if canOverride profile earlier.name earlier.value later.value then .dropEarlier
  else .keepBoth

/-- Two declarations of one shorthand. -/
def judgeShorthands (profile : Profile) (earlier later : Property) : Verdict :=
  if !earlier.layered && later.layered then .keepBoth
  else if earlier.important && !later.important then
    if leavesReplaceable profile later earlier then .dropLater else .keepBoth
  else if leavesReplaceable profile earlier later then .dropEarlier
  else .keepBoth

/-- A declaration and a later shorthand that sets all it sets. -/
def judgeCovered (profile : Profile) (earlier later : Property) : Verdict :=
  let replaceable := earlier.leafNames.all fun name =>
    match later.find? name with
    | some after =>
      let before := ((earlier.find? name).map (·.value)).getD earlier.value
      canOverride profile name before after.value
    | none => false
  if earlier.important && !later.important then .keepBoth
  else if earlier.layered && !later.layered then .keepBoth
  else if earlier.isShorthand && !earlier.isAnalysed && !earlier.dynamic then .keepBoth
  else if replaceable then .dropEarlier
  else .keepBoth

/-- Components of a background that the profile keeps out of it. -/
def isKeptOut (profile : Profile) (name : String) : Bool :=
  match name with
  | "background-size" => !profile.properties.backgroundSizeMerging
  | "background-origin" => !profile.properties.backgroundOriginMerging
  | "background-clip" => !profile.properties.backgroundClipMerging
  | _ => false

/-- Is this the value that the table never lets into a shorthand? -/
def isUnmergeable (d : Descriptor) (value : Value) : Bool :=
  d.unmergeable.any fun token => value == [token]

/-- May a longhand take the place of the same one inside `component`? -/
def leafMayFold (profile : Profile) (component leaf : Property) : Bool :=
  let earlier := ((component.find? leaf.name).getD component).value
  let inherits := leaf.value.any Word.isInherit || earlier.any Word.isInherit
  match leaf.descriptor? with
  | some d =>
    !isKeptOut profile leaf.name && !isUnmergeable d leaf.value && !(inherits && earlier != leaf.value)
  | none => false

/-- Do the layers of a longhand fit a shorthand? One without layers fits one with layers if only the last
layer has it. -/
def layersFit (shorthand component longhand : Property) (d : Descriptor) : Bool :=
  match shorthand.layered, longhand.layered with
  | false, false => true
  | false, true => false
  | true, false => d.lastLayerOnly
  | true, true => component.value.layers.length == longhand.value.layers.length

/-- A component takes importance, hack and place from the shorthand that it belongs to. -/
def belongTo (owner p : Property) : Property :=
  let adopt (q : Property) : Property :=
    { q with important := owner.important, hack := owner.hack, position := owner.position }
  adopt (p.mapComponents adopt)

/-- The shorthand with a longhand in the place of its component, if that is safe and the shorthand can
say so. -/
def folded? (profile : Profile) (shorthand longhand : Property) : Option Property := do
  let component ← shorthand.find? longhand.name
  let d ← longhand.descriptor?
  if layersFit shorthand component longhand d && longhand.leaves.all (leafMayFold profile component)
      && leavesReplaceable profile component longhand then
    let merged ← shorthand.modify? longhand.name fun _ => belongTo shorthand longhand
    let value ← merged.restore?
    if merged.verifies profile value then
      some { merged with value, layered := value.isLayered, rebuilt := true }
    else none
  else none

/-- A shorthand and a later declaration of one of its components. -/
def judgeComponent (profile : Profile) (earlier : Property) (between : List Property) (later : Property) :
    Verdict :=
  if later.dynamic || (later.isShorthand && !later.isAnalysed) then .keepBoth
  else if earlier.important && !later.important then
    match earlier.find? later.name with
    | some component => if leavesReplaceable profile later component then .dropLater else .keepBoth
    | none => .keepBoth
  else if later.important && !earlier.important then .keepBoth
  else if between.any fun p => !p.unused && p.touches later then .keepBoth
  else match folded? profile earlier later with
    | some merged => .foldInto merged
    | none => .keepBoth

/-- Compares two declarations. Those with different hacks, those that the run leaves alone, and those
that set nothing in common stay. -/
def judgePair (config : Config) (earlier : Property) (between : List Property) (later : Property) :
    Verdict :=
  let profile := config.profile
  if earlier.hack != later.hack || config.options.skips earlier.name || config.options.skips later.name
      || !earlier.touches later then .keepBoth
  else if earlier.name == later.name then
    if earlier.isAnalysed && later.isAnalysed then judgeShorthands profile earlier later
    else judgeSame profile earlier later
  else if later.isAnalysed && Registry.builtin.covers later.name earlier.name then
    judgeCovered profile earlier later
  else if earlier.isAnalysed && (earlier.find? later.name).isSome then
    judgeComponent profile earlier between later
  else .keepBoth

/-- Drops what later declarations override and folds longhands into earlier shorthands. -/
def overrideAll (config : Config) (properties : List Property) : List Property :=
  judgeAll (judgePair config) properties

end Property

end CssMinify
