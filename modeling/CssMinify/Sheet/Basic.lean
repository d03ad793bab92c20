import CssMinify.Text.Ascii
import CssMinify.Text.Search

/-!
The tree of a style sheet: rules, blocks of nodes, at-rules with declarations, statements and the
comments that are kept.
-/

namespace CssMinify

/-- Spellings of a declaration that only some engines read. Each is a cascade of its own: a declaration
never overrides one with another hack. -/
inductive Hack where
  | none
  /-- `_name:value` -/
  | underscore
  /-- `*name:value` -/
  | star
  /-- `name:value\9` and its like; the suffix is kept without the backslash. -/
  | suffix (digits : String)
  deriving DecidableEq, Repr

/-- The tokens of a declaration's value. A comma or a slash at the top level is a token of its own, and
a function is one token with its spacing normalized. -/
abbrev Value := List String

structure Declaration where
  name : String
  value : Value
  important : Bool := false
  hack : Hack := .none
  deriving DecidableEq, Repr

/-- A custom property, whose value is kept as written. -/
def isCustomName (name : String) : Bool := Text.startsWith name "--"

/-- Something in a rule's body that is no declaration, kept as written. -/
structure NestedText where
  /-- How many declarations of the body stand before it. -/
  position : Nat
  text : String
  deriving DecidableEq, Repr

structure Rule where
  selectors : List String
  declarations : List Declaration
  nested : List NestedText := []
  deriving DecidableEq, Repr

inductive Node where
  | rule (rule : Rule)
  /-- An at-rule around nodes, such as `@media`. -/
  | block (head : String) (children : List Node)
  /-- An at-rule around declarations, such as `@font-face`. -/
  | fields (head : String) (declarations : List Declaration)
  /-- An at-rule without a block, or one kept as written with its block. -/
  | statement (text : String)
  | comment (text : String)
  deriving Repr

namespace Node

mutual

def decEq : (a b : Node) → Decidable (a = b)
  | rule r, rule s => if h : r = s then isTrue (by rw [h]) else isFalse (by simp [h])
  | block h cs, block k ds =>
    match decEqList cs ds with
    | isTrue e => if e' : h = k then isTrue (by rw [e, e']) else isFalse (by simp [e'])
    | isFalse e => isFalse (by simp [e])
  | fields h ds, fields k es =>
    if e : h = k ∧ ds = es then isTrue (by rw [e.1, e.2]) else isFalse (by simpa using e)
  | statement s, statement t => if h : s = t then isTrue (by rw [h]) else isFalse (by simp [h])
  | comment s, comment t => if h : s = t then isTrue (by rw [h]) else isFalse (by simp [h])
  | rule _, block .. | rule _, fields .. | rule _, statement _ | rule _, comment _
  | block .., rule _ | block .., fields .. | block .., statement _ | block .., comment _
  | fields .., rule _ | fields .., block .. | fields .., statement _ | fields .., comment _
  | statement _, rule _ | statement _, block .. | statement _, fields .. | statement _, comment _
  | comment _, rule _ | comment _, block .. | comment _, fields .. | comment _, statement _ =>
    isFalse (by simp)

def decEqList : (as bs : List Node) → Decidable (as = bs)
  | [], [] => isTrue rfl
  | a :: as, b :: bs =>
    match decEq a b, decEqList as bs with
    | isTrue h, isTrue h' => isTrue (by rw [h, h'])
    | isFalse h, _ => isFalse (by simp [h])
    | _, isFalse h => isFalse (by simp [h])
  | [], _ :: _ => isFalse (by simp)
  | _ :: _, [] => isFalse (by simp)

end

instance : DecidableEq Node := decEq

instance : Inhabited Node := ⟨comment ""⟩

def rule? : Node → Option Rule
  | rule r => some r
  | _ => none

/-- The head of a block that names a cascade layer: `@layer`, alone or followed by a blank or a
semicolon. -/
def isLayerHead (head : String) : Bool :=
  match Text.lower head |>.toList with
  | '@' :: 'l' :: 'a' :: 'y' :: 'e' :: 'r' :: rest => rest.head?.all fun c => Text.isBlank c || c == ';'
  | _ => false

/-- The head of a block of animation frames. -/
def isKeyframesHead (head : String) : Bool := Text.contains (Text.lower head) "keyframes"

mutual

/-- A node that a sheet could as well do without. A layer block is never one, since it fixes the order
of its layer. -/
def isEmpty : Node → Bool
  | rule r => r.selectors.isEmpty || (r.declarations.isEmpty && r.nested.isEmpty)
  | block head children => !isLayerHead head && allEmpty children
  | fields _ declarations => declarations.isEmpty
  | statement _ | comment _ => false

def allEmpty : List Node → Bool
  | [] => true
  | node :: rest => node.isEmpty && allEmpty rest

end

mutual

/-- How deep blocks nest inside a node. -/
def height : Node → Nat
  | block _ children => 1 + heightOfAll children
  | _ => 0

def heightOfAll : List Node → Nat
  | [] => 0
  | node :: rest => max node.height (heightOfAll rest)

end

end Node

/-- A style sheet is its list of top-level nodes. -/
abbrev Sheet := List Node

end CssMinify
