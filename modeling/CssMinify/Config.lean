import CssMinify.Profile

/-!
What a run is asked to do.
-/

namespace CssMinify

/-- Which rules that are not neighbours are merged. -/
inductive MergeDistant where
  | off
  /-- Those that repeat a selector list. -/
  | selector
  /-- Those that repeat a body. -/
  | body
  | all
  deriving DecidableEq, Repr

namespace MergeDistant

def bySelector : MergeDistant → Bool
  | selector | all => true
  | off | body => false

def byBody : MergeDistant → Bool
  | body | all => true
  | off | selector => false

end MergeDistant

/-- Switches of the passes. -/
structure Options where
  mergeAdjacentRules : Bool := true
  mergeIntoShorthands : Bool := true
  mergeMedia : Bool := true
  mergeDistantRules : MergeDistant := .all
  /-- Take classes of different blocks for classes that never meet, after the naming by block, element
  and modifier. -/
  mergeSemantically : Bool := false
  overrideProperties : Bool := true
  removeDuplicateFontRules : Bool := true
  removeDuplicateMediaBlocks : Bool := true
  removeDuplicateRules : Bool := true
  removeEmpty : Bool := true
  /-- Move declarations that several rules share into rules of their own. -/
  restructureRules : Bool := false
  /-- Properties that are left alone. -/
  skipProperties : List String := []
  deriving DecidableEq, Repr

namespace Options

/-- Everything on. -/
def all : Options := { mergeSemantically := true, restructureRules := true }

/-- Everything off; values are still minified. -/
def none : Options where
  mergeAdjacentRules := false
  mergeIntoShorthands := false
  mergeMedia := false
  mergeDistantRules := .off
  overrideProperties := false
  removeDuplicateFontRules := false
  removeDuplicateMediaBlocks := false
  removeDuplicateRules := false
  removeEmpty := false

def skips (o : Options) (property : String) : Bool := o.skipProperties.contains property

end Options

structure Config where
  profile : Profile := .modern
  options : Options := {}
  deriving Repr

end CssMinify
