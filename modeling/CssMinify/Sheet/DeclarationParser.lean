import CssMinify.Sheet.Basic
import CssMinify.Sheet.Spacing

/-!
Reading one declaration from its tokens. What is no declaration is answered with `none` and so left out.
-/

namespace CssMinify

/-- The tokens up to the one that closes a group `depth` levels deep, and those after it. -/
def spanGroup : Nat → List Token → List Token × List Token
  | _, [] => ([], [])
  | depth, t :: rest =>
    let depth :=
      if t.kind.opensGroup then depth + 1 else if t.kind.closesGroup then depth - 1 else depth
    if depth == 0 then ([t], rest)
    else
      let (group, after) := spanGroup depth rest
      (t :: group, after)

theorem length_spanGroup_le (depth : Nat) (tokens : List Token) :
    (spanGroup depth tokens).2.length ≤ tokens.length := by
  fun_induction spanGroup depth tokens with
  | case1 => simp
  | case2 => simp
  | case3 _ _ _ _ _ _ _ _ ih => simp_all; omega

namespace Value

/-- A finished component, if there is one. -/
def flush (current : String) : Value := if current.isEmpty then [] else [current]

/-- The components of a value, the first of which continues `current`. Trivia end a component, commas
and slashes are components of their own, and a group stays in one piece. -/
def ofTokensAfter (current : String) : List Token → Value
  | [] => flush current
  | t :: rest =>
    if t.isTrivia then flush current ++ ofTokensAfter "" rest
    else if t.kind == .comma then flush current ++ "," :: ofTokensAfter "" rest
    else if t.kind == .delim '/' then flush current ++ "/" :: ofTokensAfter "" rest
    else if t.kind.opensGroup then
      let group := spanGroup 1 rest
      ofTokensAfter (current ++ Spacing.value.compact (t :: group.1)) group.2
    else ofTokensAfter (current ++ t.text) rest
termination_by tokens => tokens.length
decreasing_by
  all_goals simp
  have := length_spanGroup_le 1 rest
  omega

def ofTokens (tokens : List Token) : Value := ofTokensAfter "" tokens

/-- Cuts a backslash and one or two digits off the end of a token. -/
def cutSuffix? (token : String) : Option (String × String) :=
  match token.toList.reverse.span (· != '\\') with
  | (digits, _ :: stem) =>
    if !digits.isEmpty && digits.length ≤ 2 && digits.all Char.isDigit then
      some (String.ofList stem.reverse, String.ofList digits.reverse)
    else none
  | (_, []) => none

/-- Cuts such a suffix off the last token of a value; a token that was nothing else disappears. -/
def takeSuffix (value : Value) : Value × Option String :=
  match value.getLast?.bind cutSuffix? with
  | some (stem, digits) =>
    (value.dropLast ++ (if stem.isEmpty then [] else [stem]), some digits)
  | none => (value, none)

end Value

namespace Declaration

/-- Cuts `!important` off the end of a value. -/
def splitImportant (tokens : List Token) : List Token × Bool :=
  let trimmed := trimEnds Token.isTrivia tokens
  let before := trimEnds Token.isTrivia trimmed.dropLast
  let named := trimmed.getLast?.any fun t => t.kind == .ident && Text.sameFolded t.text "important"
  let marked := before.getLast?.any fun t => t.kind == .delim '!'
  if named && marked then (before.dropLast, true) else (tokens, false)

/-- Cuts the hack in front of a name off it, and folds the name unless it is that of a custom property. -/
def readName (starred : Bool) (text : String) : String × Hack :=
  let (hack, name) :=
    match starred, text.toList with
    | true, _ => (.star, text)
    | false, '_' :: c :: rest => (.underscore, String.ofList (c :: rest))
    | false, _ => (.none, text)
  (if isCustomName name then name else Text.lower name, hack)

/-- The value of a custom property is the text between its ends; an empty one is a value too. -/
def readValue (custom : Bool) (tokens : List Token) : Value :=
  if !custom then Value.ofTokens tokens
  else if tokens.isEmpty then []
  else [Token.source tokens]

/-- Reads what follows the colon of the declaration of `name`. -/
def readAfterColon (name : String) (hack : Hack) (tokens : List Token) : Option Declaration :=
  let custom := isCustomName name
  let (tokens, important) := splitImportant tokens
  let (value, suffix) := Value.takeSuffix (readValue custom (trimEnds Token.isTrivia tokens))
  if value.isEmpty && !custom then none
  else some { name, value, important, hack := (suffix.map Hack.suffix).getD hack }

/-- Reads a name, a colon and a value. -/
def readFromName (starred : Bool) : List Token → Option Declaration
  | t :: rest =>
    if t.kind == .ident then
      let (name, hack) := readName starred t.text
      match rest.dropWhile Token.isTrivia with
      | colon :: rest => if colon.kind == .colon then readAfterColon name hack rest else none
      | [] => none
    else none
  | [] => none

/-- Reads a declaration from the tokens before its semicolon. -/
def ofTokens? (tokens : List Token) : Option Declaration :=
  match tokens.dropWhile Token.isTrivia with
  | t :: rest => if t.kind == .delim '*' then readFromName true rest else readFromName false (t :: rest)
  | [] => none

end Declaration

end CssMinify
