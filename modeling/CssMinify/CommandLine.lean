import CssMinify.Minify

/-!
The command line: a sheet on standard input is minified to standard output. Arguments are profile
strings, of which the last one counts, and `--restructure`.
-/

namespace CssMinify

namespace CommandLine

/-- The name that error messages start with. -/
def programName : String := "stylemin"

/-- Reads one argument after the other. -/
def configFrom (config : Config) : List String → Except ProfileError Config
  | [] => .ok config
  | argument :: rest =>
    if argument == "--restructure" then
      configFrom { config with options := { config.options with restructureRules := true } } rest
    else match Profile.parse argument with
      | .ok profile => configFrom { config with profile } rest
      | .error e => .error e

/-- What a run leaves behind. -/
structure Outcome where
  code : Nat
  output : String
  errors : String
  deriving DecidableEq, Repr

namespace Outcome

/-- A run that has failed writes no sheet. -/
def failure (code : Nat) (message : String) : Outcome := ⟨code, "", programName ++ ": " ++ message ++ "\n"⟩

/-- The end of a run with an argument that cannot be read. -/
def ofProfileError (e : ProfileError) : Outcome := failure 2 e.message

/-- The end of a run on this sheet. -/
def ofSheet (config : Config) (sheet : String) : Outcome :=
  match minify config sheet with
  | .ok css => ⟨0, css, ""⟩
  | .error .splitsCharacter => failure 101 "an attribute value ends inside a character"

end Outcome

/-- Runs the command line on these arguments and this input. -/
def run (arguments : List String) (input : String) : Outcome :=
  match configFrom {} arguments with
  | .ok config => .ofSheet config input
  | .error e => .ofProfileError e

end CommandLine

end CssMinify
