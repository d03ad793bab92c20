import CssMinify.Text.Search

/-!
Tokens of a style sheet. A token keeps the text it was read from, since whatever is not changed is
written back as it stood. The tokens of a sheet stand one after the other without gaps, so the byte
range of each follows from the sizes of those before it.
-/

namespace CssMinify

inductive TokenKind where
  | ident
  /-- A name and its opening parenthesis. -/
  | function
  | atKeyword
  | hash
  | string
  /-- A `url(` with an unquoted address, up to its parenthesis. -/
  | url
  | number
  | percentage
  | dimension
  | whitespace
  | comment
  | colon
  | semicolon
  | comma
  | openBracket
  | closeBracket
  | openParen
  | closeParen
  | openBrace
  | closeBrace
  /-- Any other single character. -/
  | delim (c : Char)
  /-- The text `<!--`. -/
  | markupOpen
  /-- The text `-->`. -/
  | markupClose
  deriving DecidableEq, Repr

namespace TokenKind

/-- White space and comments separate tokens and mean nothing else. -/
def isTrivia : TokenKind → Bool
  | whitespace | comment => true
  | _ => false

/-- Does the token open a group closed by a parenthesis or a bracket? -/
def opensGroup : TokenKind → Bool
  | openParen | openBracket | function => true
  | _ => false

def closesGroup : TokenKind → Bool
  | closeParen | closeBracket => true
  | _ => false

end TokenKind

structure Token where
  kind : TokenKind
  text : String
  deriving DecidableEq, Repr

namespace Token

def isTrivia (t : Token) : Bool := t.kind.isTrivia

/-- The texts of consecutive tokens, put together again. -/
def source (tokens : List Token) : String := Text.concat (tokens.map text)

/-- The byte ranges of consecutive tokens, the first of which starts at `start`. -/
def spansFrom (start : Nat) : List Token → List (Nat × Nat)
  | [] => []
  | t :: rest =>
    let stop := start + Text.byteLength t.text
    (start, stop) :: spansFrom stop rest

/-- The byte ranges of the tokens of a whole sheet. -/
def spans (tokens : List Token) : List (Nat × Nat) := spansFrom 0 tokens

theorem length_spansFrom (start : Nat) (tokens : List Token) :
    (spansFrom start tokens).length = tokens.length := by
  induction tokens generalizing start with
  | nil => rfl
  | cons t rest ih => simp [spansFrom, ih]

end Token

end CssMinify
