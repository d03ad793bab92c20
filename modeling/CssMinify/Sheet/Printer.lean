import CssMinify.Sheet.Basic

/-!
The minified text of a style sheet.
-/

namespace CssMinify

/-- Commas and slashes need no space around them. -/
def isSeparator (token : String) : Bool := token == "," || token == "/"

namespace Value

/-- The rest of a value, after the token `previous`. -/
def printAfter (previous : String) : Value → String
  | [] => ""
  | token :: rest =>
    let space := if isSeparator token || isSeparator previous then "" else " "
    space ++ token ++ printAfter token rest

/-- The tokens of a value, one space between them except around separators. -/
def print : Value → String
  | [] => ""
  | token :: rest => token ++ printAfter token rest

end Value

namespace Declaration

/-- `name:value` with its hack and its importance. -/
def print (d : Declaration) : String :=
  let start := match d.hack with
    | .underscore => "_"
    | .star => "*"
    | .none | .suffix _ => ""
  let suffix := match d.hack with
    | .suffix digits => "\\" ++ digits
    | _ => ""
  start ++ d.name ++ ":" ++ Value.print d.value ++ suffix ++ (if d.important then "!important" else "")

/-- Declarations with a semicolon between them. -/
def printBody (declarations : List Declaration) : String :=
  Text.joined ";" (declarations.map print)

/-- The size of a declaration's text. -/
def size (d : Declaration) : Nat := Text.byteLength d.print

end Declaration

namespace Rule

/-- Something that stands in a body. -/
inductive Item where
  | declaration (d : Declaration)
  | nested (text : String)

/-- Declarations and nested texts in their order, where `count` declarations stand before these. A nested
text comes before the first declaration whose number is at least its position. -/
def itemsFrom (count : Nat) : List Declaration → List NestedText → List Item
  | [], nested => nested.map (Item.nested ·.text)
  | d :: rest, nested =>
    let (before, after) := nested.span (·.position ≤ count)
    before.map (Item.nested ·.text) ++ Item.declaration d :: itemsFrom (count + 1) rest after

def items (r : Rule) : List Item := itemsFrom 0 r.declarations r.nested

/-- A declaration is followed by a semicolon unless it ends the body; a nested text never is. -/
def printItems : List Item → String
  | [] => ""
  | [.declaration d] => d.print
  | .declaration d :: rest => d.print ++ ";" ++ printItems rest
  | .nested text :: rest => text ++ printItems rest

def printBody (r : Rule) : String := printItems r.items

def print (r : Rule) : String :=
  Text.joined "," r.selectors ++ "\x7b" ++ r.printBody ++ "\x7d"

end Rule

namespace Node

/-- A statement gets its semicolon unless it was kept with a block. -/
def printStatement (text : String) : String :=
  if Text.endsWith text "\x7d" then text else text ++ ";"

mutual

def print : Node → String
  | rule r => r.print
  | block head children => head ++ "\x7b" ++ printAll children ++ "\x7d"
  | fields head declarations => head ++ "\x7b" ++ Declaration.printBody declarations ++ "\x7d"
  | statement text => printStatement text
  | comment text => text

def printAll : List Node → String
  | [] => ""
  | node :: rest => node.print ++ printAll rest

end

end Node

/-- The minified text of a sheet. -/
def Sheet.print (sheet : Sheet) : String := Node.printAll sheet

end CssMinify
