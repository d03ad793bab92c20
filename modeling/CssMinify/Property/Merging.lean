import CssMinify.Property.Shadowing
import CssMinify.Total

/-!
Replacing a full set of longhands by their shorthand, where that is shorter.
-/

namespace CssMinify

/-- When a shorthand is tried: four sides come before the shorthands that are built on them, so that
twelve parts of a border end up as one. -/
def Descriptor.mergeRank (d : Descriptor) : Nat :=
  if d.components.any Registry.builtin.isShorthand then 2
  else match d.restore with
    | some .fourValues | some .borderRadius => 0
    | _ => 1

namespace Property

/-- The shorthands in the order in which they are tried. -/
def mergeOrder : List Descriptor :=
  [0, 1, 2].flatMap fun rank => Registry.builtin.shorthands.filter (·.mergeRank == rank)

/-- A property and its place in the body. -/
abbrev Placed := Property × Nat

/-- The last living declaration of a property. -/
def lastAlive? (properties : List Property) (name : String) : Option Placed :=
  properties.zipIdx.reverse.find? fun (p, _) => !p.unused && p.name == name

/-- May a declaration become part of a shorthand, next to others of this importance? -/
def mayMerge (config : Config) (important : Bool) (p : Property) : Bool :=
  !isKeptOut config.profile p.name && !(p.descriptor?.any (isUnmergeable · p.value))
    && p.important == important && p.hack == .none && !p.dynamic && !p.layered
    && !(p.isShorthand && !p.isAnalysed) && !config.options.skips p.name

/-- The size of a shorthand and the longhands after it. -/
def totalSize (properties : List Property) : Nat := total size properties

/-- Gives a shorthand the value of its components, with the parts that inherit repeated after it. -/
def finish? (profile : Profile) (inheriting : List Property) (shorthand : Property) :
    Option (List Property) := do
  let value ← shorthand.restore?
  if shorthand.verifies profile value then
    some ({ shorthand with value } :: inheriting.map fun p => { p with position := shorthand.position })
  else none

/-- Does the whole property inherit? -/
def inheritsAll (p : Property) : Bool := p.leaves.all isInherit

/-- A component that inherits is set again after the shorthand, so inside it takes its initial value. -/
def withInitial? (profile : Profile) (shorthand component : Property) : Option Property := do
  let d ← component.descriptor?
  component? profile shorthand component.name d.initialValue

/-- The first of the shortest lists of declarations. -/
def firstSmallest? : List (List Property) → Option (List Property)
  | [] => none
  | a :: rest =>
    match firstSmallest? rest with
    | some b => if totalSize b < totalSize a then some b else some a
    | none => some a

/-- The shorthand made of these parts, and after it the parts that have to inherit on their own. -/
def assemble? (profile : Profile) (d : Descriptor) (parts : List Property) (important : Bool)
    (position : Nat) : Option (List Property) := do
  let shorthand : Property :=
    { name := d.name, value := [], important, components := parts, rebuilt := true, position }
  let inheriting := parts.filter inheritsAll
  if inheriting.length == parts.length then some [{ shorthand with value := ["inherit"] }]
  else if inheriting.isEmpty then finish? profile [] shorthand
  else
    let components ← parts.mapM fun p =>
      if p.inheritsAll then withInitial? profile shorthand p else some p
    let withInitials := finish? profile inheriting { shorthand with components }
    let withOpposites :=
      if d.restore == some .fourValues then
        finish? profile inheriting
          { shorthand with
            components := (components.zip parts).map fun (c, p) =>
              if p.inheritsAll then { c with free := true } else c }
      else none
    firstSmallest? (withInitials.toList ++ withOpposites.toList)

/-- Merges the last living declarations of a shorthand's components. The shorthand takes the place of the
last of them, provided that nothing between them sets what it sets. -/
def mergeInto? (config : Config) (properties : List Property) (d : Descriptor) :
    Option (List Property) := do
  let placed ← d.components.mapM (lastAlive? properties)
  let parts := placed.map Prod.fst
  let places := placed.map Prod.snd
  let important ← parts.head?.map (·.important)
  let first ← places.min?
  let last ← places.max?
  let interleaved := properties.zipIdx.any fun (p, i) =>
    first ≤ i && i ≤ last && !places.contains i && !p.unused && p.leafNames.any d.leaves.contains
  if parts.all (mayMerge config important) && !interleaved then
    let position ← properties[last]?.map (·.position)
    let merged ← assemble? config.profile d parts important position
    if totalSize merged < totalSize parts then
      let dead := properties.zipIdx.map fun (p, i) =>
        if places.contains i then { p with unused := true } else p
      some (dead.take last ++ merged ++ dead.drop (last + 1))
    else none
  else none

/-- Merges longhands into shorthands, if the profile has it so. -/
def mergeAll (config : Config) (properties : List Property) : List Property :=
  if config.profile.properties.merging then
    mergeOrder.foldl (fun ps d => (mergeInto? config ps d).getD ps) properties
  else properties

end Property

end CssMinify
