import CssMinify.Text.Ascii
import CssMinify.Token

/-!
Cutting a text into tokens. Each scanner below answers how many characters it covers, so a token is a
block of the text and the next one starts where it ends: `source_tokenize` says that nothing is lost.
-/

namespace CssMinify

namespace Lexer

/-- Space, tab, line feed, carriage return and form feed. -/
def isSpace (c : Char) : Bool :=
  c == ' ' || c == '\t' || c == '\n' || c == '\r' || c == '\x0c'

/-- Letters, the underscore and everything outside ASCII start a name. -/
def startsName (c : Char) : Bool := c.isAlpha || c == '_' || !Text.isAscii c

def continuesName (c : Char) : Bool := startsName c || c.isDigit || c == '-'

/-- A backslash escapes whatever follows it, except a line feed. -/
def startsEscape : List Char → Bool
  | '\\' :: c :: _ => c != '\n'
  | _ => false

/-- The length of an escape, its backslash included: up to six hexadecimal digits and one space after
them, or a single character. -/
def escapeLength : List Char → Nat
  | _ :: c :: rest =>
    if Text.isHexDigit c then
      let digits := ((c :: rest).take 6).takeWhile Text.isHexDigit
      let closed := ((c :: rest).drop digits.length).head?.any isSpace
      1 + digits.length + (if closed then 1 else 0)
    else 2
  | s => s.length

/-- The length of the longest name at the start. -/
def nameLength : List Char → Nat
  | [] => 0
  | c :: rest =>
    if continuesName c then 1 + nameLength rest
    else if startsEscape (c :: rest) then
      let n := escapeLength (c :: rest)
      n + nameLength (rest.drop (n - 1))
    else 0
termination_by s => s.length
decreasing_by all_goals (simp only [List.length_cons, List.length_drop]; omega)

/-- Would an identifier start here? -/
def startsIdent : List Char → Bool
  | '-' :: rest =>
    match rest with
    | '-' :: _ => true
    | '\\' :: _ => startsEscape rest
    | c :: _ => startsName c
    | [] => false
  | c :: rest => startsName c || startsEscape (c :: rest)
  | [] => false

def startsWithDigit (s : List Char) : Bool := s.head?.any Char.isDigit

/-- A point and a digit after it. -/
def startsFraction : List Char → Bool
  | '.' :: rest => startsWithDigit rest
  | _ => false

/-- Would a number start here? -/
def startsNumber : List Char → Bool
  | c :: rest =>
    if c == '+' || c == '-' then startsWithDigit rest || startsFraction rest
    else c.isDigit || startsFraction (c :: rest)
  | [] => false

def digitsLength (s : List Char) : Nat := (s.takeWhile Char.isDigit).length

def signLength : List Char → Nat
  | c :: _ => if c == '+' || c == '-' then 1 else 0
  | [] => 0

def fractionLength (s : List Char) : Nat :=
  if startsFraction s then 1 + digitsLength (s.drop 1) else 0

/-- The length of an exponent; a letter `e` without digits is none. -/
def exponentLength : List Char → Nat
  | c :: rest =>
    let sign := signLength rest
    if (c == 'e' || c == 'E') && startsWithDigit (rest.drop sign) then
      1 + sign + digitsLength (rest.drop sign)
    else 0
  | [] => 0

/-- The length of a number without its unit. -/
def numberLength (s : List Char) : Nat :=
  let sign := signLength s
  let whole := sign + digitsLength (s.drop sign)
  let fraction := whole + fractionLength (s.drop whole)
  fraction + exponentLength (s.drop fraction)

/-- A number with whatever unit follows it. -/
def numeric (s : List Char) : TokenKind × Nat :=
  let n := numberLength s
  let rest := s.drop n
  if startsIdent rest then (.dimension, n + nameLength rest)
  else if rest.head? == some '%' then (.percentage, n + 1)
  else (.number, n)

/-- The length of a comment after its opening, which may lack an end. -/
def commentLength : List Char → Nat
  | '*' :: '/' :: _ => 2
  | _ :: rest => 1 + commentLength rest
  | [] => 0

/-- The length of a string after its opening quote. It ends with the quote, or with the first line feed
that is not escaped. -/
def stringLength (quote : Char) : List Char → Nat
  | [] => 0
  | '\\' :: rest =>
    match rest with
    | _ :: rest => 2 + stringLength quote rest
    | [] => 1
  | c :: rest => if c == quote || c == '\n' then 1 else 1 + stringLength quote rest

/-- The length of an unquoted address, up to and including the closing parenthesis. -/
def addressLength : List Char → Nat
  | [] => 0
  | c :: rest =>
    if c == ')' then 1
    else if startsEscape (c :: rest) then
      let n := escapeLength (c :: rest)
      n + addressLength (rest.drop (n - 1))
    else 1 + addressLength rest
termination_by s => s.length
decreasing_by all_goals (simp only [List.length_cons, List.length_drop]; omega)

def isQuote (c : Char) : Bool := c == '"' || c == '\''

/-- A name, or a name with an opening parenthesis. -/
def identLike (s : List Char) : TokenKind × Nat :=
  let n := nameLength s
  match s.drop n with
  | '(' :: rest =>
    if Text.sameFolded (String.ofList (s.take n)) "url"
        && !(rest.dropWhile isSpace).head?.any isQuote then
      (.url, n + 1 + addressLength rest)
    else (.function, n + 1)
  | _ => (.ident, n)

/-- The kind of a character that is a token of its own. -/
def single (c : Char) : TokenKind :=
  match c with
  | ':' => .colon
  | ';' => .semicolon
  | ',' => .comma
  | '[' => .openBracket
  | ']' => .closeBracket
  | '(' => .openParen
  | ')' => .closeParen
  | '\x7b' => .openBrace
  | '\x7d' => .closeBrace
  | c => .delim c

/-- The kind of the token that starts with `c`, and its length. -/
def extent (c : Char) (rest : List Char) : TokenKind × Nat :=
  let s := c :: rest
  if c == '/' && rest.head? == some '*' then (.comment, 2 + commentLength (rest.drop 1))
  else if isSpace c then (.whitespace, (s.takeWhile isSpace).length)
  else if isQuote c then (.string, 1 + stringLength c rest)
  else if c == '#' then
    if rest.head?.any continuesName || startsEscape rest then (.hash, 1 + nameLength rest)
    else (.delim c, 1)
  else if startsNumber s then numeric s
  else if ['-', '-', '>'].isPrefixOf s then (.markupClose, 3)
  else if c == '@' then
    if startsIdent rest then (.atKeyword, 1 + nameLength rest) else (.delim c, 1)
  else if ['<', '!', '-', '-'].isPrefixOf s then (.markupOpen, 4)
  else if startsIdent s then identLike s
  else (single c, 1)

/-- Cuts a list of characters into tokens. -/
def tokens : List Char → List Token
  | [] => []
  | c :: rest =>
    let (kind, n) := extent c rest
    ⟨kind, String.ofList (c :: rest.take (n - 1))⟩ :: tokens (rest.drop (n - 1))
termination_by s => s.length
decreasing_by simp only [List.length_cons, List.length_drop]; omega

/-- The tokens concatenate to the text they were cut from. -/
theorem flatMap_tokens (s : List Char) : (tokens s).flatMap (·.text.toList) = s := by
  fun_induction tokens s with
  | case1 => rfl
  | case2 c rest kind n h ih => simp [ih]

end Lexer

/-- Cuts a text into tokens. -/
def tokenize (s : String) : List Token := Lexer.tokens s.toList

theorem source_tokenize (s : String) : Token.source (tokenize s) = s := by
  rw [← String.toList_inj, Token.source, Text.toList_concat, List.flatMap_map]
  exact Lexer.flatMap_tokens s.toList

end CssMinify
