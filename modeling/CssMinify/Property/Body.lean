import CssMinify.Property.Merging
import CssMinify.Value.Minify

/-!
Optimizing one body: values are shortened, overridden declarations dropped, and longhands merged, until
nothing changes any more.
-/

namespace CssMinify

namespace Property

/-- A shorthand of four sides in its shortest form. -/
def collapse (profile : Profile) (p : Property) : Property :=
  let isFour := p.descriptor?.any (·.restore == some .fourValues)
  if p.unused || !isFour || p.hack != .none || p.layered || !p.isAnalysed then p
  else match p.restore? with
    | some value =>
      if value.length < p.value.length && p.verifies profile value then { p with value, rebuilt := true }
      else p
    | none => p

end Property

namespace Body

/-- Applies `step` until nothing changes, at most `rounds` times. -/
def settle {α : Type} [DecidableEq α] (step : α → α) : Nat → α → α
  | 0, current => current
  | rounds + 1, current =>
    let next := step current
    if next = current then current else settle step rounds next

/-- One round of passes over a body. -/
def round (config : Config) (declarations : List Declaration) : List Declaration :=
  let options := config.options
  let properties := Property.removeDuplicates (Property.wrapAll config.profile declarations)
  let properties :=
    if options.overrideProperties then Property.overrideAll config properties else properties
  let properties :=
    if options.mergeIntoShorthands then
      (Property.mergeAll config properties).map (Property.collapse config.profile)
    else properties
  Property.unwrapAll properties

/-- A merge can make room for an override and the other way round; this many rounds are enough for any
body that is met in practice. -/
def maxRounds : Nat := 4

/-- Optimizes a body. -/
def optimize (config : Config) (declarations : List Declaration) : List Declaration :=
  settle (round config) maxRounds (declarations.map (Declaration.minify config.profile))

end Body

end CssMinify
