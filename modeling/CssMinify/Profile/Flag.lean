import CssMinify.Profile
import CssMinify.Text.Search

/-!
The flags of a profile that can be switched by name.
-/

namespace CssMinify

inductive Flag where
  | opacity
  | backgroundClipMerging
  | backgroundOriginMerging
  | backgroundSizeMerging
  | colors
  | merging
  | zeroUnits
  | multiplePseudoMerging
  | ch
  | inch
  | pc
  | pt
  | rem
  | vh
  | vm
  | vmax
  | vmin
  deriving DecidableEq, Repr

namespace Flag

/-- The flag of a group; underscores, hyphens and the case of its name do not matter. -/
def ofPath? (group name : String) : Option Flag :=
  let key := Text.lower (String.ofList (name.toList.filter fun c => c != '_' && c != '-'))
  match group, key with
  | "colors", "opacity" => some opacity
  | "properties", "backgroundclipmerging" => some backgroundClipMerging
  | "properties", "backgroundoriginmerging" => some backgroundOriginMerging
  | "properties", "backgroundsizemerging" => some backgroundSizeMerging
  | "properties", "colors" => some colors
  | "properties", "merging" => some merging
  | "properties", "zerounits" => some zeroUnits
  | "selectors", "multiplepseudomerging" => some multiplePseudoMerging
  | "units", "ch" => some ch
  | "units", "in" => some inch
  | "units", "pc" => some pc
  | "units", "pt" => some pt
  | "units", "rem" => some rem
  | "units", "vh" => some vh
  | "units", "vm" => some vm
  | "units", "vmax" => some vmax
  | "units", "vmin" => some vmin
  | _, _ => none

end Flag

namespace Profile

def get (p : Profile) : Flag → Bool
  | .opacity => p.opacity
  | .backgroundClipMerging => p.properties.backgroundClipMerging
  | .backgroundOriginMerging => p.properties.backgroundOriginMerging
  | .backgroundSizeMerging => p.properties.backgroundSizeMerging
  | .colors => p.properties.colors
  | .merging => p.properties.merging
  | .zeroUnits => p.properties.zeroUnits
  | .multiplePseudoMerging => p.selectors.multiplePseudoMerging
  | .ch => p.units.ch
  | .inch => p.units.inch
  | .pc => p.units.pc
  | .pt => p.units.pt
  | .rem => p.units.rem
  | .vh => p.units.vh
  | .vm => p.units.vm
  | .vmax => p.units.vmax
  | .vmin => p.units.vmin

def set (p : Profile) (flag : Flag) (on : Bool) : Profile :=
  match flag with
  | .opacity => { p with opacity := on }
  | .backgroundClipMerging => { p with properties := { p.properties with backgroundClipMerging := on } }
  | .backgroundOriginMerging => { p with properties := { p.properties with backgroundOriginMerging := on } }
  | .backgroundSizeMerging => { p with properties := { p.properties with backgroundSizeMerging := on } }
  | .colors => { p with properties := { p.properties with colors := on } }
  | .merging => { p with properties := { p.properties with merging := on } }
  | .zeroUnits => { p with properties := { p.properties with zeroUnits := on } }
  | .multiplePseudoMerging => { p with selectors := { p.selectors with multiplePseudoMerging := on } }
  | .ch => { p with units := { p.units with ch := on } }
  | .inch => { p with units := { p.units with inch := on } }
  | .pc => { p with units := { p.units with pc := on } }
  | .pt => { p with units := { p.units with pt := on } }
  | .rem => { p with units := { p.units with rem := on } }
  | .vh => { p with units := { p.units with vh := on } }
  | .vm => { p with units := { p.units with vm := on } }
  | .vmax => { p with units := { p.units with vmax := on } }
  | .vmin => { p with units := { p.units with vmin := on } }

/-- Setting a flag changes that flag and no other. -/
theorem get_set (p : Profile) (flag other : Flag) (on : Bool) :
    (p.set flag on).get other = if other = flag then on else p.get other := by
  cases flag <;> cases other <;> rfl

end Profile

end CssMinify
