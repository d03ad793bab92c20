import CssMinify.Text.Ascii
import CssMinify.Text.Search

/-!
Selectors by structure. The optimizer never matches them against a document: it asks what a selector
can target and how strongly it binds.
-/

namespace CssMinify

namespace Selector

inductive Combinator where
  | descendant
  | child
  | nextSibling
  | laterSibling
  deriving DecidableEq, Repr

/-- What an attribute selector asks of the attribute. -/
inductive Test where
  | present
  | equals
  | includes
  | dashMatches
  | starts
  | ends
  | contains
  deriving DecidableEq, Repr

/-- The value that an attribute is compared with, as it is written. -/
inductive Operand where
  | ident (text : String)
  /-- A string with its quotes. The closing one may be missing. -/
  | quoted (text : String)
  deriving DecidableEq, Repr

/-- Reading a selector fails in one place only. -/
inductive Fault where
  /-- A string without its closing quote loses its last byte instead, and that byte belongs to a wider
  character. -/
  | splitsCharacter
  deriving DecidableEq, Repr

namespace Operand

/-- A string is stripped of its first and its last byte; a lone quote is the empty string. -/
def unquote (text : String) : Except Fault String :=
  match text.toList with
  | _ :: c :: rest =>
    if ((c :: rest).getLast?.any Text.isAscii) then .ok (String.ofList (c :: rest).dropLast)
    else .error .splitsCharacter
  | _ => .ok ""

/-- The text that the attribute is compared with. -/
def content : Operand → Except Fault String
  | ident text => .ok text
  | quoted text => unquote text

end Operand

inductive Simple where
  /-- A type selector, in lower case. -/
  | element (name : String)
  | universal
  | id (name : String)
  | className (name : String)
  | attribute (name : String) (test : Test) (operand : Option Operand)
  /-- The name is in lower case, the argument as written but trimmed. -/
  | pseudoClass (name : String) (argument : Option String)
  | pseudoElement (name : String) (doubleColon : Bool)
  deriving DecidableEq, Repr

/-- Simple selectors that all apply to one element. -/
abbrev Compound := List Simple

namespace Compound

def elementName? (c : Compound) : Option String :=
  c.findSome? fun
    | .element name => some name
    | _ => none

def ids (c : Compound) : List String :=
  c.filterMap fun
    | .id name => some name
    | _ => none

def classNames (c : Compound) : List String :=
  c.filterMap fun
    | .className name => some name
    | _ => none

def pseudoElement? (c : Compound) : Option String :=
  c.findSome? fun
    | .pseudoElement name _ => some name
    | _ => none

end Compound

/-- A compound and the combinator to its left, which the leftmost one lacks. -/
structure Part where
  compound : Compound
  combinator : Option Combinator
  deriving DecidableEq, Repr

/-- Compounds joined by combinators, stored from right to left. -/
structure Complex where
  parts : List Part
  deriving DecidableEq, Repr

namespace Complex

/-- The compound that says which elements are targeted. -/
def subject? (s : Complex) : Option Compound := s.parts.head?.map Part.compound

/-- Has every attribute operand a content? -/
def isReadable (s : Complex) : Bool :=
  s.parts.all fun part => part.compound.all fun
    | .attribute _ _ (some operand) => operand.content.isOk
    | _ => true

end Complex

end Selector

end CssMinify
