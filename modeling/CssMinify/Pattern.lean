/-!
Patterns of characters, searched for anywhere in a text. A pattern is run on all places of the text at
once: `ends` takes the places where a match may start to those where it may end.
-/

namespace CssMinify

/-- Characters in some ranges, or those in none of them. -/
structure CharSet where
  ranges : List (Char × Char)
  negated : Bool := false
  deriving DecidableEq, Repr

namespace CharSet

def single (c : Char) : CharSet := { ranges := [(c, c)] }

/-- Every character except a line feed. -/
def exceptNewline : CharSet := { ranges := [('\n', '\n')], negated := true }

def has (s : CharSet) (c : Char) : Bool :=
  (s.ranges.any fun (low, high) => low ≤ c && c ≤ high) != s.negated

end CharSet

inductive Pattern where
  /-- Matches without taking a character. -/
  | nothing
  | one (set : CharSet)
  /-- The start of the text. -/
  | start
  /-- The end of the text. -/
  | finish
  | seq (first second : Pattern)
  | alt (left right : Pattern)
  | star (body : Pattern)
  deriving Repr

namespace Pattern

def literal (text : String) : Pattern :=
  text.toList.foldr (fun c rest => seq (one (.single c)) rest) nothing

/-- Any of the patterns; the empty list matches nothing at all. -/
def anyOf : List Pattern → Pattern
  | [] => one { ranges := [] }
  | [p] => p
  | p :: rest => alt p (anyOf rest)

/-- The patterns one after the other. -/
def inOrder : List Pattern → Pattern
  | [] => nothing
  | [p] => p
  | p :: rest => seq p (inOrder rest)

/-- At most `count` times. -/
def upTo (body : Pattern) : Nat → Pattern
  | 0 => nothing
  | count + 1 => alt nothing (seq body (upTo body count))

/-- At least `least` times, and at most `most` times if that is given. -/
def repeated (body : Pattern) (least : Nat) (most : Option Nat) : Pattern :=
  let tail := match most with
    | none => star body
    | some most => upTo body (most - least)
  inOrder (List.replicate least body ++ [tail])

/-- Two sets of places as one. -/
def union (places more : List Nat) : List Nat := places ++ more.filter (!places.contains ·)

/-- All places reached by going on from `places` any number of times, `rounds` at most. -/
def closure (next : List Nat → List Nat) : Nat → List Nat → List Nat
  | 0, places => places
  | rounds + 1, places =>
    let grown := union places (next places)
    if grown.length == places.length then places else closure next rounds grown

/-- The places where a match that starts in one of `places` may end. -/
def ends (text : List Char) : Pattern → List Nat → List Nat
  | nothing, places => places
  | one set, places => (places.filter fun i => text[i]?.any set.has).map (· + 1)
  | start, places => places.filter (· == 0)
  | finish, places => places.filter (· == text.length)
  | seq first second, places => ends text second (ends text first places)
  | alt left right, places => union (ends text left places) (ends text right places)
  | star body, places => closure (ends text body) (text.length + 1) places

/-- Does the pattern match anywhere in the text? -/
def isFoundIn (p : Pattern) (text : String) : Bool :=
  let chars := text.toList
  !(p.ends chars (List.range (chars.length + 1))).isEmpty

end Pattern

end CssMinify
