import CssMinify.Sheet.Basic

/-!
Descriptors of properties: which longhands a shorthand stands for, the values they fall back to, and how
values are overridden, split and put together again. Descriptors refer to each other by name.
-/

namespace CssMinify

/-- When a later value of a property may replace an earlier one. -/
inductive OverrideKind where
  /-- Only if they are the same. -/
  | sameValue
  /-- Numbers with units, then functions of one name. -/
  | unit
  /-- As `unit`, with these keywords too. -/
  | unitOrKeyword (keywords : List String)
  | keyword (keywords : List String)
  | color
  | image
  /-- A whole border, compared part by part. -/
  | border
  /-- As `unit`, with the keywords of positions and sizes too. -/
  | tokens
  deriving DecidableEq, Repr

/-- How the value of a shorthand is split. -/
inductive SplitKind where
  | fourValues
  | borderRadius
  | background
  /-- A width, a style and a color in any order. -/
  | border
  | listStyle
  deriving DecidableEq, Repr

/-- How the value of a shorthand is put together. -/
inductive RestoreKind where
  | fourValues
  | borderRadius
  | background
  /-- The components that differ from their defaults, in order. -/
  | withoutDefaults
  deriving DecidableEq, Repr

/-- What the table says of a property. -/
structure PropertySpec where
  name : String
  /-- In order; empty for a longhand. -/
  components : List String := []
  override : OverrideKind
  split : Option SplitKind := none
  restore : Option RestoreKind := none
  /-- The value that the property has if nothing sets it. -/
  initial : String
  /-- A shorter text for it, if there is one. -/
  shortest : Option String := none
  /-- In a shorthand with layers only the last one has this component. -/
  lastLayerOnly : Bool := false
  /-- A value that is never merged into the shorthand. -/
  unmergeable : Option String := none
  deriving DecidableEq, Repr

namespace PropertySpec

def longhand (name : String) (override : OverrideKind) (initial : String) : PropertySpec :=
  { name, override, initial }

def shorthand (name : String) (components : List String) (split : SplitKind) (restore : RestoreKind)
    (initial : String) : PropertySpec :=
  { name, components, override := .sameValue, split := some split, restore := some restore, initial }

/-- A shorthand with one value for each side of a box. -/
def sides (name : String) (components : List String) (initial : String) : PropertySpec :=
  shorthand name components .fourValues .fourValues initial

/-- A shorthand with a width, a style and a color. -/
def line (name : String) (components : List String) (initial : String) : PropertySpec :=
  { shorthand name components .border .withoutDefaults initial with override := .border }

end PropertySpec

/-- What is known of a property once the whole table is. -/
structure Descriptor extends PropertySpec where
  /-- The shorthands that have this property as a component. -/
  componentOf : List String
  /-- The longhands that this property sets: itself, if it is one. -/
  leaves : List String
  deriving DecidableEq, Repr

namespace Descriptor

def isShorthand (d : Descriptor) : Bool := !d.components.isEmpty

/-- The tokens of a value in the table, which stand one space apart. -/
def tokensOf (text : String) : Value := Text.splitAtEach ' ' text

def initialValue (d : Descriptor) : Value := tokensOf d.initial

def shortestValue (d : Descriptor) : Value := tokensOf (d.shortest.getD d.initial)

end Descriptor

/-- A table that cannot be built. -/
inductive RegistryError where
  | unknownComponent (shorthand component : String)
  | duplicateDescriptor (name : String)
  deriving DecidableEq, Repr

namespace RegistryError

def message : RegistryError → String
  | unknownComponent shorthand component =>
    "shorthand `" ++ shorthand ++ "` lists component `" ++ component ++ "` which has no descriptor"
  | duplicateDescriptor name => "property `" ++ name ++ "` is described more than once"

end RegistryError

/-- Descriptors in the order of the table. -/
structure Registry where
  descriptors : List Descriptor
  deriving DecidableEq, Repr

namespace Registry

/-- The components of a name in a table. -/
def componentsIn (specs : List PropertySpec) (name : String) : List String :=
  ((specs.find? (·.name == name)).map PropertySpec.components).getD []

/-- The longhands reached from a name by following components, `depth` times at most; what is not
followed further counts as one. -/
def leavesWithin (specs : List PropertySpec) : Nat → String → List String
  | 0, name => [name]
  | depth + 1, name =>
    let components := componentsIn specs name
    if components.isEmpty then [name] else components.flatMap (leavesWithin specs depth)

/-- How many times components are followed. -/
def maxDepth : Nat := 9

/-- The shorthands that list a name, once for each time that they list it. -/
def parentsIn (specs : List PropertySpec) (name : String) : List String :=
  specs.flatMap fun spec => (spec.components.filter (· == name)).map fun _ => spec.name

/-- The registry of a table in which every component is described once. -/
def ofSpecs (specs : List PropertySpec) : Registry where
  descriptors := specs.map fun spec =>
    { spec with
      componentOf := parentsIn specs spec.name
      leaves := leavesWithin specs maxDepth spec.name }

/-- The first name that occurs among `seen` or before. -/
def firstDuplicate? (seen : List String) : List PropertySpec → Option String
  | [] => none
  | spec :: rest =>
    if seen.contains spec.name then some spec.name else firstDuplicate? (spec.name :: seen) rest

/-- The first shorthand with a component outside `names`, and the first such component. -/
def firstUnknown? (names : List String) : List PropertySpec → Option (String × String)
  | [] => none
  | spec :: rest =>
    match spec.components.find? (!names.contains ·) with
    | some component => some (spec.name, component)
    | none => firstUnknown? names rest

/-- Checks a table and builds its registry. A name that occurs twice is reported before a component that
occurs nowhere. -/
def build (specs : List PropertySpec) : Except RegistryError Registry :=
  match firstDuplicate? [] specs with
  | some name => .error (.duplicateDescriptor name)
  | none =>
    match firstUnknown? (specs.map PropertySpec.name) specs with
    | some (shorthand, component) => .error (.unknownComponent shorthand component)
    | none => .ok (ofSpecs specs)

def find? (r : Registry) (name : String) : Option Descriptor := r.descriptors.find? (·.name == name)

def isShorthand (r : Registry) (name : String) : Bool := (r.find? name).any Descriptor.isShorthand

/-- The longhands that a property sets. -/
def leafNames (r : Registry) (name : String) : List String :=
  ((r.find? name).map Descriptor.leaves).getD []

/-- Does `outer` set every longhand that another property `inner` sets? -/
def covers (r : Registry) (outer inner : String) : Bool :=
  match r.find? outer, r.find? inner with
  | some o, some i => o.name != i.name && i.leaves.all o.leaves.contains
  | _, _ => false

def shorthands (r : Registry) : List Descriptor := r.descriptors.filter Descriptor.isShorthand

end Registry

end CssMinify
