import CssMinify.Pattern.Parser
import CssMinify.Profile.Flag

/-!
Profile strings: an optional preset and then switches, with commas between them, such as
`ie8,+units.rem`.
-/

namespace CssMinify

inductive ProfileError where
  | unknownPreset (name : String)
  /-- The path, without its sign, names no flag. -/
  | unknownFlag (path : String)
  | malformedToggle (text : String)
  deriving DecidableEq, Repr

namespace ProfileError

def message : ProfileError → String
  | unknownPreset name => "unknown compatibility preset `" ++ name ++ "`"
  | unknownFlag path => "unknown compatibility flag `" ++ path ++ "`"
  | malformedToggle text =>
    "malformed compatibility toggle `" ++ text ++ "`, expected `+group.flag` or `-group.flag`"

end ProfileError

/-- A flag and what it is switched to. -/
structure Toggle where
  flag : Flag
  on : Bool
  deriving DecidableEq, Repr

namespace Toggle

/-- Cuts the sign off a toggle. -/
def readSign? (text : String) : Option (Bool × String) :=
  match text.toList with
  | '+' :: rest => some (true, String.ofList rest)
  | '-' :: rest => some (false, String.ofList rest)
  | _ => none

def parse (text : String) : Except ProfileError Toggle :=
  match readSign? text with
  | none => .error (.malformedToggle text)
  | some (on, path) =>
    match Text.cutAtFirst? '.' path with
    | none => .error (.malformedToggle text)
    | some (group, name) =>
      match Flag.ofPath? group name with
      | none => .error (.unknownFlag path)
      | some flag => .ok ⟨flag, on⟩

end Toggle

namespace Profile

/-- Applies toggles one after the other. -/
def applyAll (p : Profile) : List String → Except ProfileError Profile
  | [] => .ok p
  | text :: rest =>
    match Toggle.parse text with
    | .ok toggle => applyAll (p.set toggle.flag toggle.on) rest
    | .error e => .error e

/-- The parts of a profile string, trimmed and without the empty ones. -/
def parts (text : String) : List String :=
  ((Text.splitAtEach ',' text).map Text.trim).filter (!·.isEmpty)

/-- Reads a profile string. A first part without a sign names the preset. -/
def parse (text : String) : Except ProfileError Profile :=
  match parts text with
  | [] => .ok modern
  | first :: rest =>
    if Text.startsWith first "+" || Text.startsWith first "-" then applyAll modern (first :: rest)
    else match preset? first with
      | some preset => applyAll preset rest
      | none => .error (.unknownPreset first)

/-- The profile with another pattern for selectors that are never merged, if that pattern makes sense. -/
def withSpecial? (p : Profile) (pattern : String) : Option Profile :=
  (Pattern.parse? pattern).map fun special => { p with selectors := { p.selectors with special } }

end Profile

end CssMinify
