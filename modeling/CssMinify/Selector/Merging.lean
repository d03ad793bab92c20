import CssMinify.Profile
import CssMinify.Text.Search

/-!
Selector lists as sets, and whether selectors may share a rule. An engine drops the whole list of a rule
if it does not know one selector in it, so selectors that not every engine knows keep a rule of their
own.
-/

namespace CssMinify

namespace Selector

/-- Puts a selector into a strictly sorted list, unless it is there. -/
def insert (s : String) : List String → List String
  | [] => [s]
  | t :: rest => if s < t then s :: t :: rest else if s = t then t :: rest else t :: insert s rest

/-- The selectors of a list, sorted and without repetition. Two lists with the same key target the same
elements. -/
def key (selectors : List String) : List String := selectors.foldr insert []

/-- The selectors of both lists, sorted and without repetition. -/
def union (a b : List String) : List String := key (a ++ b)

/-- A pseudo selector as it stands in a text. -/
structure Mention where
  /-- With its colons, in lower case, without an argument. -/
  name : String
  /-- The character in front of it. -/
  before : Option Char
  /-- Nothing follows it. -/
  atEnd : Bool
  deriving DecidableEq, Repr

namespace Mention

def isNameChar (c : Char) : Bool := c.isAlpha || c == '-'

/-- The length of an argument in parentheses; one that is not closed is none. -/
def argumentLength : List Char → Nat
  | '(' :: rest => if rest.contains ')' then (rest.takeWhile (· != ')')).length + 2 else 0
  | _ => 0

/-- The colons of a pseudo selector, and what follows. -/
def readColons? : List Char → Option (List Char × List Char)
  | ':' :: ':' :: rest => some ([':', ':'], rest)
  | ':' :: rest => some ([':'], rest)
  | _ => none

/-- Reads a pseudo selector: its name, and how many characters it takes with its argument. -/
def read? (s : List Char) : Option (String × Nat) := do
  let (colons, rest) ← readColons? s
  let name := rest.takeWhile isNameChar
  if name.isEmpty then none
  else
    let argument := argumentLength (rest.drop name.length)
    some (Text.lower (String.ofList (colons ++ name)), colons.length + name.length + argument)

/-- The pseudo selectors in a text after the character `before`, where the first `skip` characters belong
to the last one found. -/
def allFrom (skip : Nat) (before : Option Char) : List Char → List Mention
  | [] => []
  | c :: rest =>
    match skip with
    | skip + 1 => allFrom skip (some c) rest
    | 0 =>
      match read? (c :: rest) with
      | some (name, length) =>
        ⟨name, before, length == rest.length + 1⟩ :: allFrom (length - 1) (some c) rest
      | none => allFrom 0 (some c) rest

/-- The pseudo selectors in a selector, from left to right; none lies in the argument of another. -/
def all (selector : String) : List Mention := allFrom 0 none selector.toList

def hasDoubleColon (m : Mention) : Bool := Text.startsWith m.name "::"

def isVendors (m : Mention) : Bool := Text.startsWith m.name "::-" || Text.startsWith m.name ":-"

/-- Pseudo-elements that may be written with one colon. -/
def oldElements : List String := [":after", ":before", ":first-letter", ":first-line"]

def isElement (m : Mention) : Bool := m.hasDoubleColon || oldElements.contains m.name

/-- Is there no compound in front of the pseudo selector that it could belong to? A place at the start of
the selector does not count. -/
def isDangling (m : Mention) : Bool :=
  m.before.any fun c => Text.isBlank c || c == '>' || c == '+' || c == '~' || c == ','

/-- Is the pseudo selector one that every engine knows, and does it stand where it makes sense to all of
them? -/
def isMergeable (flags : SelectorFlags) (m : Mention) : Bool :=
  let known := if m.hasDoubleColon then flags.mergeablePseudoElements else flags.mergeablePseudoClasses
  !m.isVendors && known.contains m.name && !m.isDangling && (!m.isElement || m.atEnd)

end Mention

/-- May this selector share a rule with others? -/
def isMergeable (flags : SelectorFlags) (selector : String) : Bool :=
  let mentions := Mention.all selector
  !selector.isEmpty && !flags.special.isFoundIn selector && !Text.contains selector "/deep/"
    && (mentions.length ≤ 1 || flags.multiplePseudoMerging) && mentions.all (·.isMergeable flags)

/-- May these selectors share a rule? -/
def areMergeable (profile : Profile) (selectors : List String) : Bool :=
  let flags := profile.selectors
  !selectors.isEmpty && selectors.length ≤ flags.mergeLimit && selectors.all (isMergeable flags)

end Selector

end CssMinify
