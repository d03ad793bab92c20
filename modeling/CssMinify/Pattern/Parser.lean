import CssMinify.Pattern
import CssMinify.Number.Decimal

/-!
The textual form of patterns: literals, the point, anchors, alternatives, groups, character sets and
repetitions. The text is first cut into symbols and these are then folded with a stack of open groups.
-/

namespace CssMinify

namespace Pattern

inductive Symbol where
  | item (p : Pattern)
  | openGroup
  | closeGroup
  | bar
  | times (least : Nat) (most : Option Nat)

/-- Punctuation stands for itself after a backslash. -/
def isEscapable (c : Char) : Bool :=
  c.toNat < 128 && !c.isAlphanum && c != '<' && c != '>'

/-- A character of a set, and how many characters write it. -/
def readSetChar? : List Char → Option (Char × Nat)
  | '\\' :: c :: _ => if isEscapable c then some (c, 2) else none
  | '\\' :: [] => none
  | '[' :: _ => none
  | c :: _ => some (c, 1)
  | [] => none

/-- Reads the ranges of a set up to its closing bracket, which right at the start is a character like
any other. Answers the ranges and how many characters write them, with `count` before these. -/
def readRanges? (initial : Bool) (count : Nat) (s : List Char) : Option (List (Char × Char) × Nat) :=
  match s with
  | [] => none
  | c :: rest =>
    if c == ']' && !initial then some ([], count + 1)
    else do
      let (low, n) ← readSetChar? (c :: rest)
      match _h : rest.drop (n - 1) with
      | '-' :: d :: tail =>
        if d == ']' then
          let (ranges, total) ← readRanges? false (count + n) ('-' :: d :: tail)
          return ((low, low) :: ranges, total)
        else
          let (high, m) ← readSetChar? (d :: tail)
          if low ≤ high then
            let (ranges, total) ← readRanges? false (count + n + 1 + m) (tail.drop (m - 1))
            return ((low, high) :: ranges, total)
          else none
      | after =>
        let (ranges, total) ← readRanges? false (count + n) after
        return ((low, low) :: ranges, total)
termination_by s.length
decreasing_by
  all_goals
    have hlength := congrArg List.length _h
    simp at hlength ⊢
    omega

/-- Reads a set after its opening bracket: the set and how many characters write it. -/
def readSet? : List Char → Option (CharSet × Nat)
  | '^' :: rest => (readRanges? true 1 rest).map fun (ranges, n) => (⟨ranges, true⟩, n)
  | s => (readRanges? true 0 s).map fun (ranges, n) => (⟨ranges, false⟩, n)

/-- Reads the bounds of a repetition after its opening brace: `n`, `n,` or `n,m`. -/
def readBounds? (s : List Char) : Option (Nat × Option Nat × Nat) :=
  let (inside, closing) := s.span (· != '\x7d')
  let (low, rest) := inside.span Char.isDigit
  let least := Number.ofDigits low
  if closing.isEmpty || low.isEmpty then none
  else match rest with
    | [] => some (least, some least, inside.length + 1)
    | ',' :: [] => some (least, none, inside.length + 1)
    | ',' :: high =>
      let most := Number.ofDigits high
      if high.all Char.isDigit && least ≤ most then some (least, some most, inside.length + 1) else none
    | _ => none

/-- The symbol that starts with `c`, and how many characters after `c` belong to it. A question mark
after a repetition asks for the shortest match and changes nothing in a search. -/
def readSymbol? (c : Char) (rest : List Char) : Option (Symbol × Nat) :=
  let lazyMark (n : Nat) : Nat := if (rest.drop n).head? == some '?' then n + 1 else n
  match c with
  | '(' =>
    match rest with
    | '?' :: ':' :: _ => some (.openGroup, 2)
    | '?' :: _ => none
    | _ => some (.openGroup, 0)
  | ')' => some (.closeGroup, 0)
  | '|' => some (.bar, 0)
  | '^' => some (.item start, 0)
  | '$' => some (.item finish, 0)
  | '.' => some (.item (one .exceptNewline), 0)
  | '*' => some (.times 0 none, lazyMark 0)
  | '+' => some (.times 1 none, lazyMark 0)
  | '?' => some (.times 0 (some 1), lazyMark 0)
  | '\x7b' => (readBounds? rest).map fun (least, most, n) => (.times least most, lazyMark n)
  | '[' => (readSet? rest).map fun (set, n) => (.item (one set), n)
  | '\\' =>
    match rest with
    | d :: _ => if isEscapable d then some (.item (one (.single d)), 1) else none
    | [] => none
  | c => some (.item (one (.single c)), 0)

/-- Cuts the text of a pattern into symbols. -/
def symbols? : List Char → Option (List Symbol)
  | [] => some []
  | c :: rest => do
    let (symbol, n) ← readSymbol? c rest
    return symbol :: (← symbols? (rest.drop n))
termination_by s => s.length
decreasing_by simp only [List.length_cons, List.length_drop]; omega

/-- What has been read of a group: finished alternatives and the items of the current one, both with the
last in front. -/
structure Frame where
  alternatives : List Pattern := []
  items : List Pattern := []

namespace Frame

def push (f : Frame) (p : Pattern) : Frame := { f with items := p :: f.items }

def nextAlternative (f : Frame) : Frame :=
  { alternatives := inOrder f.items.reverse :: f.alternatives }

def pattern (f : Frame) : Pattern := anyOf f.nextAlternative.alternatives.reverse

end Frame

/-- Folds symbols into a pattern, with the groups around the current one on a stack. A repetition
without an item, a parenthesis without its partner, and a group left open are mistakes. -/
def fold? (stack : List Frame) (frame : Frame) : List Symbol → Option Pattern
  | [] => if stack.isEmpty then some frame.pattern else none
  | .item p :: rest => fold? stack (frame.push p) rest
  | .bar :: rest => fold? stack frame.nextAlternative rest
  | .openGroup :: rest => fold? (frame :: stack) {} rest
  | .closeGroup :: rest =>
    match stack with
    | outer :: stack => fold? stack (outer.push frame.pattern) rest
    | [] => none
  | .times least most :: rest =>
    match frame.items with
    | p :: items => fold? stack { frame with items := repeated p least most :: items } rest
    | [] => none

/-- Reads a pattern. -/
def parse? (text : String) : Option Pattern := (symbols? text.toList).bind (fold? [] {})

end Pattern

end CssMinify
