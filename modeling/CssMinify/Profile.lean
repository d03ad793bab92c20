import CssMinify.Pattern
import CssMinify.Text.Ascii

/-!
Compatibility profiles: which changes are safe for the engines that a sheet is meant for.
-/

namespace CssMinify

structure PropertyFlags where
  /-- `background-clip` may be merged into `background`. -/
  backgroundClipMerging : Bool
  /-- `background-origin` may be merged into `background`. -/
  backgroundOriginMerging : Bool
  /-- `background-size` may be merged into `background`. -/
  backgroundSizeMerging : Bool
  /-- Colors may be written in their shortest form. -/
  colors : Bool
  /-- Longhands may be merged into shorthands. -/
  merging : Bool
  /-- `0px` may be written as `0`. -/
  zeroUnits : Bool
  deriving DecidableEq, Repr

structure SelectorFlags where
  /-- How many selectors a merged rule may have at most. -/
  mergeLimit : Nat
  /-- Selectors with more than one pseudo selector may be merged. -/
  multiplePseudoMerging : Bool
  mergeablePseudoClasses : List String
  mergeablePseudoElements : List String
  /-- Selectors in which this is found are never merged. -/
  special : Pattern
  deriving Repr

/-- Units that not every engine knows. -/
structure UnitFlags where
  ch : Bool
  inch : Bool
  pc : Bool
  pt : Bool
  rem : Bool
  /-- For `vw` too. -/
  vh : Bool
  vm : Bool
  vmax : Bool
  vmin : Bool
  deriving DecidableEq, Repr

namespace UnitFlags

/-- Units that every engine knows. The empty one is that of a plain number. -/
def common : List String :=
  ["", "%", "px", "em", "ex", "cm", "mm", "q", "deg", "rad", "grad", "turn", "s", "ms", "hz", "khz",
   "dpi", "dpcm", "dppx", "fr"]

/-- Is a number with this unit understood? -/
def allows (flags : UnitFlags) (unit : String) : Bool :=
  match Text.lower unit with
  | "ch" => flags.ch
  | "in" => flags.inch
  | "pc" => flags.pc
  | "pt" => flags.pt
  | "rem" => flags.rem
  | "vh" | "vw" => flags.vh
  | "vm" => flags.vm
  | "vmax" => flags.vmax
  | "vmin" => flags.vmin
  | unit => common.contains unit

end UnitFlags

structure Profile where
  /-- Colors with an alpha channel are understood. -/
  opacity : Bool
  properties : PropertyFlags
  selectors : SelectorFlags
  units : UnitFlags
  deriving Repr

namespace Profile

/-- Selectors that some engine may not know, which would make it drop a whole list: vendor prefixes,
pseudo selectors of paged media, of form state and of shadow trees. -/
def specialSelectors : Pattern :=
  let lowerOrHyphen : List (Char × Char) := [('a', 'z'), ('-', '-')]
  .anyOf
    [.literal "-moz-", .literal "-ms-", .literal "-o-", .literal "-webkit-",
     .inOrder [.literal ":dir(", .star (.one ⟨lowerOrHyphen, false⟩), .literal ")"],
     .inOrder [.literal ":first", .alt .finish (.one ⟨lowerOrHyphen, true⟩)],
     .literal ":fullscreen", .literal ":left", .literal ":read-only", .literal ":read-write",
     .literal ":right", .literal ":placeholder", .literal ":host", .literal "::content",
     .literal "/deep/", .literal "::shadow", .inOrder [.start, .literal ","]]

/-- Engines of today. -/
def modern : Profile where
  opacity := true
  properties := ⟨true, true, true, true, true, true⟩
  selectors :=
    { mergeLimit := 8191
      multiplePseudoMerging := true
      mergeablePseudoClasses :=
        [":active", ":after", ":before", ":checked", ":disabled", ":empty", ":enabled", ":first-child",
         ":first-letter", ":first-line", ":first-of-type", ":focus", ":hover", ":lang", ":last-child",
         ":last-of-type", ":link", ":not", ":nth-child", ":nth-last-child", ":nth-last-of-type",
         ":nth-of-type", ":only-child", ":only-of-type", ":root", ":target", ":visited"]
      mergeablePseudoElements := ["::after", "::before", "::first-letter", "::first-line"]
      special := specialSelectors }
  units := ⟨true, true, true, true, true, true, true, true, true⟩

/-- The engines `ie9` to `ie11`. -/
def ie11 : Profile := { modern with units := { modern.units with vmax := false } }

/-- The engine `ie8`: no translucent colors, no parts of `background` beyond the old ones, few pseudo
selectors and only the old units. -/
def ie8 : Profile :=
  { ie11 with
    opacity := false
    properties :=
      { ie11.properties with
        backgroundClipMerging := false
        backgroundOriginMerging := false
        backgroundSizeMerging := false }
    selectors :=
      { ie11.selectors with
        mergeablePseudoClasses :=
          [":after", ":before", ":first-child", ":first-letter", ":focus", ":hover", ":visited"]
        mergeablePseudoElements := [] }
    units := ⟨false, true, true, true, false, false, false, false, false⟩ }

/-- The engine `ie7`: as `ie8`, with fewer pseudo selectors and only one of them at a time. -/
def ie7 : Profile :=
  { ie8 with
    selectors :=
      { ie8.selectors with
        multiplePseudoMerging := false
        mergeablePseudoClasses := [":first-child", ":first-letter", ":hover", ":visited"] } }

/-- The profile of this name, in any case. -/
def preset? (name : String) : Option Profile :=
  match Text.lower name with
  | "" | "*" => some modern
  | "ie11" | "ie10" | "ie9" => some ie11
  | "ie8" => some ie8
  | "ie7" => some ie7
  | _ => none

end Profile

end CssMinify
