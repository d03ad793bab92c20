import CssMinify.Token

/-!
Putting tokens back together with no more space than they need. Space is left out only where the place
in the sheet makes it meaningless: around combinators in a selector, say, but not in a value.
-/

namespace CssMinify

/-- The place that a run of tokens stands in. -/
inductive Spacing where
  | selector
  /-- The head of an at-rule. -/
  | head
  /-- The inside of a function or a bracket in a value. -/
  | value
  deriving DecidableEq, Repr

namespace Spacing

/-- Combinators and the sign of an attribute test. -/
def isJoint (c : Char) : Bool := c == '>' || c == '+' || c == '~' || c == '='

/-- Does space after such a token mean nothing? -/
def tightAfter (place : Spacing) : TokenKind → Bool
  | .openParen | .function | .comma => true
  | .colon => place != .value
  | .openBracket => place == .selector
  | .delim c => place == .selector && isJoint c
  | _ => false

/-- Does space before such a token mean nothing? -/
def tightBefore (place : Spacing) : TokenKind → Bool
  | .closeParen | .comma => true
  | .colon => place == .head
  | .closeBracket => place == .selector
  | .delim c => place == .selector && isJoint c
  | _ => false

/-- The text of the tokens after one of kind `last`, where `gap` says that trivia came in between. -/
def compactAfter (place : Spacing) (last : Option TokenKind) (gap : Bool) : List Token → String
  | [] => ""
  | t :: rest =>
    if t.isTrivia then compactAfter place last true rest
    else
      let spaced := gap && last.any fun kind => !place.tightAfter kind && !place.tightBefore t.kind
      (if spaced then " " else "") ++ t.text ++ compactAfter place (some t.kind) false rest

/-- The text of the tokens with comments dropped and space only where it counts. -/
def compact (place : Spacing) (tokens : List Token) : String :=
  compactAfter place none false tokens

end Spacing

end CssMinify
