import CssMinify.Optimizer
import CssMinify.Profile.Parser
import CssMinify.Sheet.Parser

/-!
Minifying the text of a style sheet.
-/

namespace CssMinify

/-- Reads a sheet, optimizes it and prints it. -/
def minify (config : Config) (text : String) : Attempt String := do
  let sheet ← Sheet.optimize config (Sheet.parse text)
  return sheet.print

end CssMinify
