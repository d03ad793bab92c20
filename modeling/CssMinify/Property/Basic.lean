import CssMinify.Registry.Table
import CssMinify.Sheet.Printer
import CssMinify.Value.Word

/-!
A declaration as the optimizer of a body sees it: with the components that its value stands for, and
with marks for what has been done to it.
-/

namespace CssMinify

structure Property extends Declaration where
  /-- In the order of the table. Empty for a longhand, and for a shorthand whose value could not be
  split. -/
  components : List Property := []
  /-- Dead, and left out of the result. -/
  unused : Bool := false
  /-- The value was put together from the components. -/
  rebuilt : Bool := false
  /-- The value has layers with commas between them. -/
  layered : Bool := false
  /-- A component whose value may be chosen freely, since another declaration sets it. -/
  free : Bool := false
  /-- The value refers to a custom property. -/
  dynamic : Bool := false
  /-- The number of the declaration in its body. -/
  position : Nat := 0
  deriving Repr

/-- The separator between layers. -/
def layerSeparator : String := ","

def Value.isLayered (value : Value) : Bool := value.contains layerSeparator

/-- The layers of a value. -/
def Value.layers (value : Value) : List Value := splitWhere (· == layerSeparator) value

/-- Puts layers together to a value. -/
def Value.ofLayers (layers : List Value) : Value := [layerSeparator].intercalate layers

namespace Property

/-- A property without its components. -/
def bare (d : Declaration) (position : Nat) : Property :=
  { d with position, layered := d.value.isLayered, dynamic := d.value.any Word.isVariable }

def descriptor? (p : Property) : Option Descriptor := Registry.builtin.find? p.name

def isShorthand (p : Property) : Bool := Registry.builtin.isShorthand p.name

/-- A shorthand whose components are known. -/
def isAnalysed (p : Property) : Bool := p.isShorthand && !p.components.isEmpty

mutual

/-- The longhands among the components, at any depth; the property itself if it has no components. -/
def leaves : Property → List Property
  | p@(.mk _ components ..) => if components.isEmpty then [p] else leavesOfAll components

def leavesOfAll : List Property → List Property
  | [] => []
  | p :: rest => p.leaves ++ leavesOfAll rest

end

mutual

/-- The component of this name at any depth; one that comes first wins over one inside a later one. -/
def find? (name : String) : Property → Option Property
  | .mk _ components .. => findAmong? name components

def findAmong? (name : String) : List Property → Option Property
  | [] => none
  | p :: rest =>
    if p.name == name then some p
    else match find? name p with
      | some found => some found
      | none => findAmong? name rest

end

mutual

/-- The property with the component that `find?` finds changed, if there is one. -/
def modify? (name : String) (change : Property → Property) : Property → Option Property
  | p@(.mk _ components ..) =>
    (modifyAmong? name change components).map fun components => { p with components }

def modifyAmong? (name : String) (change : Property → Property) : List Property → Option (List Property)
  | [] => none
  | p :: rest =>
    if p.name == name then some (change p :: rest)
    else match modify? name change p with
      | some changed => some (changed :: rest)
      | none => (modifyAmong? name change rest).map (p :: ·)

end

mutual

/-- Applies a change to every component at any depth, inner ones first. -/
def mapComponents (change : Property → Property) : Property → Property
  | p@(.mk _ components ..) => { p with components := mapComponentsOfAll change components }

def mapComponentsOfAll (change : Property → Property) : List Property → List Property
  | [] => []
  | p :: rest => change (mapComponents change p) :: mapComponentsOfAll change rest

end

/-- Gives every component this value. -/
def setAll (value : Value) (p : Property) : Property :=
  p.mapComponents fun c => { c with value }

/-- The longhands that a property of this name sets. -/
def leafNames (p : Property) : List String :=
  match p.descriptor? with
  | some d => d.leaves
  | none => [p.name]

/-- Do two properties set a longhand in common? -/
def touches (p q : Property) : Bool := p.leafNames.any q.leafNames.contains

def isInherit (p : Property) : Bool :=
  match p.value with
  | [token] => Word.isInherit token
  | _ => false

/-- The size of the declaration's text. -/
def size (p : Property) : Nat := p.toDeclaration.size

/-- The declarations of the properties that are still alive. -/
def unwrapAll (properties : List Property) : List Declaration :=
  (properties.filter (!·.unused)).map toDeclaration

end Property

end CssMinify
