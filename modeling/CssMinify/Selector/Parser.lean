import CssMinify.Selector.Basic
import CssMinify.Token.Lexer

/-!
Reading a selector list. Comments separate nothing in a selector, so they are set aside first, yet the
argument of a pseudo-class keeps those inside it: each token therefore carries the comments before it.

Reading stops where the text makes no more sense and hands back what it left unread.
-/

namespace CssMinify

namespace Selector

/-- A token that is no comment, and the comments directly before it. -/
structure Piece where
  gap : String
  token : Token
  deriving DecidableEq, Repr

namespace Piece

def kind (p : Piece) : TokenKind := p.token.kind

/-- Sets the comments aside, the first of which follow `gap`. -/
def ofTokensAfter (gap : String) : List Token → List Piece
  | [] => []
  | t :: rest =>
    if t.kind == .comment then ofTokensAfter (gap ++ t.text) rest
    else ⟨gap, t⟩ :: ofTokensAfter "" rest

def ofTokens (tokens : List Token) : List Piece := ofTokensAfter "" tokens

/-- The text from the first piece to the last, with the comments in between. -/
def source : List Piece → String
  | [] => ""
  | p :: rest => p.token.text ++ Text.concat (rest.map fun p => p.gap ++ p.token.text)

def skipSpace (pieces : List Piece) : List Piece := pieces.dropWhile (·.kind == .whitespace)

theorem length_skipSpace_le (pieces : List Piece) : (skipSpace pieces).length ≤ pieces.length :=
  (List.dropWhile_sublist _).length_le

end Piece

/-- The pieces up to the parenthesis that closes an argument `depth` levels deep, and those after it. -/
def spanArgument : Nat → List Piece → List Piece × List Piece
  | _, [] => ([], [])
  | depth, p :: rest =>
    let depth :=
      if p.kind == .openParen || p.kind == .function then depth + 1
      else if p.kind == .closeParen then depth - 1
      else depth
    if depth == 0 then ([p], rest)
    else
      let (inside, after) := spanArgument depth rest
      (p :: inside, after)

theorem length_spanArgument_le (depth : Nat) (pieces : List Piece) :
    (spanArgument depth pieces).2.length ≤ pieces.length := by
  fun_induction spanArgument depth pieces with
  | case1 => simp
  | case2 => simp
  | case3 _ _ _ _ _ _ _ h ih => rw [h] at ih; exact Nat.le_succ_of_le ih

/-- The text of an argument, without a parenthesis at its end. -/
def argumentText (inside : List Piece) : String :=
  let closed := inside.getLast?.any (·.kind == .closeParen)
  Text.trim (Piece.source (if closed then inside.dropLast else inside))

def skipPastBracket : List Piece → List Piece
  | [] => []
  | p :: rest => if p.kind == .closeBracket then rest else skipPastBracket rest

theorem length_skipPastBracket_le (pieces : List Piece) :
    (skipPastBracket pieces).length ≤ pieces.length := by
  fun_induction skipPastBracket pieces with
  | case1 => simp
  | case2 => simp
  | case3 _ _ _ ih => exact Nat.le_succ_of_le ih

namespace Test

/-- The test written as this character and an equals sign. -/
def ofSign? : Char → Option Test
  | '~' => some includes
  | '|' => some dashMatches
  | '^' => some starts
  | '$' => some ends
  | '*' => some contains
  | _ => none

/-- The sign of a test and the pieces after it. -/
def read? : List Piece → Option (Test × List Piece)
  | p :: rest =>
    match p.kind with
    | .delim '=' => some (equals, rest)
    | .delim c =>
      match rest with
      | q :: rest => if q.kind == .delim '=' then (ofSign? c).map (·, rest) else none
      | [] => none
    | _ => none
  | [] => none

end Test

/-- The operand of a test, if an identifier or a string follows. -/
def readOperand? : List Piece → Option Operand
  | p :: _ =>
    match p.kind with
    | .ident => some (.ident p.token.text)
    | .string => some (.quoted p.token.text)
    | _ => none
  | [] => none

/-- Reads an attribute selector after its opening bracket. What makes no sense is skipped up to the
closing bracket. -/
def readAttribute (pieces : List Piece) : Option Simple × List Piece :=
  match Piece.skipSpace pieces with
  | [] => (none, [])
  | p :: rest =>
    if p.kind == .ident then
      match Piece.skipSpace rest with
      | [] => (none, [])
      | q :: after =>
        if q.kind == .closeBracket then (some (.attribute p.token.text .present none), after)
        else match Test.read? (q :: after) with
          | some (test, after) =>
            let operand := readOperand? (Piece.skipSpace after)
            (some (.attribute p.token.text test operand), skipPastBracket (Piece.skipSpace after))
          | none => (none, skipPastBracket (q :: after))
    else (none, skipPastBracket (p :: rest))

theorem length_read?_le {pieces rest : List Piece} {test : Test}
    (h : Test.read? pieces = some (test, rest)) : rest.length ≤ pieces.length := by
  rw [Test.read?.eq_def] at h
  repeat' split at h
  all_goals first
    | simp at h; done
    | simp at h; obtain ⟨_, rfl⟩ := h; simp; done
    | simp at h; obtain ⟨_, _, _, rfl⟩ := h; simp; omega

theorem length_readAttribute_le (pieces : List Piece) :
    (readAttribute pieces).2.length ≤ pieces.length := by
  have hspace := Piece.length_skipSpace_le pieces
  rw [readAttribute]
  generalize Piece.skipSpace pieces = spaced at hspace
  cases spaced with
  | nil => simp
  | cons p rest =>
    simp only [List.length_cons] at hspace
    have hpast := length_skipPastBracket_le (p :: rest)
    have hrest := Piece.length_skipSpace_le rest
    simp only [List.length_cons] at hpast
    dsimp only
    split
    · generalize Piece.skipSpace rest = spaced at hrest
      cases spaced with
      | nil => simp
      | cons q after =>
        simp only [List.length_cons] at hrest
        have hpast' := length_skipPastBracket_le (q :: after)
        simp only [List.length_cons] at hpast'
        dsimp only
        split
        · dsimp only; omega
        · cases hread : Test.read? (q :: after) with
          | none => dsimp only; omega
          | some found =>
            have h1 := length_read?_le hread
            have h2 := Piece.length_skipSpace_le found.2
            have h3 := length_skipPastBracket_le (Piece.skipSpace found.2)
            simp only [List.length_cons] at h1
            dsimp only; omega
    · dsimp only; omega

/-- Pseudo-elements that may be written with one colon. -/
def isLegacyPseudoElement (name : String) : Bool :=
  ["before", "after", "first-line", "first-letter"].contains name

/-- What one step of reading a compound finds. -/
inductive SimpleStep where
  | found (simple : Simple) (rest : List Piece)
  /-- Something that is no simple selector but does not end the compound. -/
  | skipped (rest : List Piece)
  | stopped (rest : List Piece)

namespace SimpleStep

def rest : SimpleStep → List Piece
  | found _ rest | skipped rest | stopped rest => rest

/-- Reads the name of a pseudo-class or pseudo-element after its colons. -/
def readPseudo (doubleColon : Bool) : List Piece → SimpleStep
  | [] => stopped []
  | p :: rest =>
    match p.kind with
    | .ident =>
      let name := Text.lower p.token.text
      if doubleColon || isLegacyPseudoElement name then found (.pseudoElement name doubleColon) rest
      else found (.pseudoClass name none) rest
    | .function =>
      let name := Text.lower (String.ofList p.token.text.toList.dropLast)
      let argument := spanArgument 1 rest
      if doubleColon then found (.pseudoElement name doubleColon) argument.2
      else found (.pseudoClass name (some (argumentText argument.1))) argument.2
    | _ => stopped (p :: rest)

/-- Reads the simple selector that starts with `p`; `started` says that the compound has one already. -/
def read (started : Bool) (p : Piece) (rest : List Piece) : SimpleStep :=
  match p.kind with
  | .ident =>
    if started then stopped (p :: rest) else found (.element (Text.lower p.token.text)) rest
  | .hash => found (.id (String.ofList (p.token.text.toList.drop 1))) rest
  | .delim '*' => if started then stopped (p :: rest) else found .universal rest
  | .delim '.' =>
    match rest with
    | q :: after =>
      if q.kind == .ident then found (.className q.token.text) after else stopped (p :: rest)
    | [] => stopped (p :: rest)
  | .openBracket =>
    match readAttribute rest with
    | (some simple, after) => found simple after
    | (none, after) => skipped after
  | .colon =>
    match rest with
    | q :: after => if q.kind == .colon then readPseudo true after else readPseudo false rest
    | [] => readPseudo false rest
  | _ => stopped (p :: rest)

theorem length_rest_readPseudo_le (doubleColon : Bool) (pieces : List Piece) :
    (readPseudo doubleColon pieces).rest.length ≤ pieces.length := by
  cases pieces with
  | nil => simp [readPseudo, rest]
  | cons p after =>
    have hinside := length_spanArgument_le 1 after
    simp only [readPseudo, List.length_cons]
    split
    · split <;> simp [rest]
    · split <;> simp only [rest] <;> omega
    · simp [rest]

/-- A step that stops may give its colons up, but adds nothing. -/
theorem length_rest_read_stopped_le {started : Bool} {p : Piece} {pieces after : List Piece}
    (h : read started p pieces = stopped after) : after.length ≤ (p :: pieces).length := by
  have hpseudo := fun d ps => length_rest_readPseudo_le d ps
  rw [read.eq_def] at h
  split at h
  case h_6 =>
    cases pieces with
    | nil =>
      have := hpseudo false []
      simp_all [rest]
    | cons q pieces =>
      dsimp only at h
      split at h
      · have := hpseudo true pieces
        rw [h] at this
        exact Nat.le_trans this (by simp; omega)
      · have := hpseudo false (q :: pieces)
        rw [h] at this
        exact Nat.le_trans this (by simp)
  all_goals repeat' split at h
  all_goals simp at h
  all_goals subst h
  all_goals simp

/-- A step that goes on takes at least a piece. -/
theorem length_rest_read_le (started : Bool) (p : Piece) (pieces : List Piece)
    (h : ∀ after, read started p pieces ≠ stopped after) :
    (read started p pieces).rest.length ≤ pieces.length := by
  have hattribute := length_readAttribute_le pieces
  revert h
  rw [read.eq_def]
  split
  all_goals intro h
  case h_1 => split <;> simp_all [rest]
  case h_3 => split <;> simp_all [rest]
  case h_4 =>
    cases pieces with
    | nil => simp at h
    | cons q after => dsimp only at h ⊢; split <;> simp_all [rest]
  case h_5 =>
    split
    all_goals rename_i heq; rw [heq] at hattribute; exact hattribute
  case h_6 =>
    cases pieces with
    | nil => exact length_rest_readPseudo_le _ _
    | cons q after =>
      dsimp only
      split
      · exact Nat.le_succ_of_le (length_rest_readPseudo_le _ _)
      · exact length_rest_readPseudo_le _ _
  all_goals simp_all [rest]

end SimpleStep

/-- Reads a compound, of which `started` says that something has been read. Answers its simple selectors
and the pieces after them. -/
def compoundFrom (started : Bool) : List Piece → Compound × List Piece
  | [] => ([], [])
  | p :: pieces =>
    match _h : SimpleStep.read started p pieces with
    | .found simple rest =>
      let (simples, after) := compoundFrom true rest
      (simple :: simples, after)
    | .skipped rest => compoundFrom started rest
    | .stopped rest => ([], rest)
termination_by pieces => pieces.length
decreasing_by
  all_goals
    have hle := SimpleStep.length_rest_read_le started p pieces (by simp [_h])
    simp [_h, SimpleStep.rest] at hle
    simp; omega

/-- Reading a compound never goes back. -/
theorem length_compoundFrom_le (started : Bool) (pieces : List Piece) :
    (compoundFrom started pieces).2.length ≤ pieces.length ∧
      ((compoundFrom started pieces).1 ≠ [] → (compoundFrom started pieces).2.length < pieces.length) := by
  fun_induction compoundFrom started pieces with
  | case1 => simp
  | case2 started p pieces simple rest h simples after hc ih =>
    have hle := SimpleStep.length_rest_read_le started p pieces (by simp [h])
    simp only [h, SimpleStep.rest] at hle
    rw [hc] at ih
    have hafter : after.length ≤ rest.length := ih.1
    simp only [List.length_cons]
    omega
  | case3 started p pieces rest h ih =>
    have hle := SimpleStep.length_rest_read_le started p pieces (by simp [h])
    simp only [h, SimpleStep.rest] at hle
    simp only [List.length_cons]
    omega
  | case4 started p pieces rest h =>
    have hle := SimpleStep.length_rest_read_stopped_le h
    simpa using hle

/-- The combinator to the left of the next compound, if one can follow, and the pieces after it. -/
def readCombinator? (spaced : Bool) : List Piece → Option (Combinator × List Piece)
  | [] => none
  | p :: rest =>
    match p.kind with
    | .delim '>' => some (.child, Piece.skipSpace rest)
    | .delim '+' => some (.nextSibling, Piece.skipSpace rest)
    | .delim '~' => some (.laterSibling, Piece.skipSpace rest)
    | _ => if spaced then some (.descendant, p :: rest) else none

theorem length_readCombinator?_le {spaced : Bool} {pieces rest : List Piece} {combinator : Combinator}
    (h : readCombinator? spaced pieces = some (combinator, rest)) : rest.length ≤ pieces.length := by
  cases pieces with
  | nil => simp [readCombinator?] at h
  | cons p pieces =>
    have hspace := Piece.length_skipSpace_le pieces
    rw [readCombinator?.eq_def] at h
    simp only at h
    repeat' split at h
    all_goals simp at h
    all_goals obtain ⟨_, rfl⟩ := h
    all_goals simp only [List.length_cons]
    all_goals omega

/-- Reads combinators and compounds after the first compound. -/
def linksFrom (pieces : List Piece) : List Part × List Piece :=
  let spaced := Piece.skipSpace pieces
  match _h : readCombinator? (spaced.length < pieces.length) spaced with
  | none => ([], spaced)
  | some (combinator, start) =>
    match _h' : compoundFrom false start with
    | ([], _) => ([], start)
    | (simple :: simples, rest) =>
      let (links, after) := linksFrom rest
      (⟨simple :: simples, some combinator⟩ :: links, after)
termination_by pieces.length
decreasing_by
  have h1 : spaced.length ≤ pieces.length := Piece.length_skipSpace_le pieces
  have h2 := length_readCombinator?_le _h
  have h3 := (length_compoundFrom_le false start).2 (by simp [_h'])
  simp only [_h'] at h3
  omega

theorem length_linksFrom_le (pieces : List Piece) : (linksFrom pieces).2.length ≤ pieces.length := by
  fun_induction linksFrom pieces with
  | case1 pieces spaced h => exact Piece.length_skipSpace_le pieces
  | case2 pieces spaced combinator start h _ h' =>
    exact Nat.le_trans (length_readCombinator?_le h) (Piece.length_skipSpace_le pieces)
  | case3 pieces spaced combinator start h simple simples rest h' links after hl ih =>
    have h1 : spaced.length ≤ pieces.length := Piece.length_skipSpace_le pieces
    have h2 := length_readCombinator?_le h
    have h3 := (length_compoundFrom_le false start).1
    rw [hl] at ih
    rw [h'] at h3
    simp only at ih h3 ⊢
    omega

/-- Reads a complex selector. There is none if the first compound is empty. -/
def complexFrom (pieces : List Piece) : Option Complex × List Piece :=
  match compoundFrom false pieces with
  | ([], rest) => (none, rest)
  | (simple :: simples, rest) =>
    let (links, after) := linksFrom rest
    (some ⟨(⟨simple :: simples, none⟩ :: links).reverse⟩, after)

theorem length_complexFrom_le (pieces : List Piece) :
    (complexFrom pieces).2.length ≤ pieces.length := by
  have hcompound := (length_compoundFrom_le false pieces).1
  rw [complexFrom]
  generalize compoundFrom false pieces = read at hcompound
  obtain ⟨simples, rest⟩ := read
  have hlinks := length_linksFrom_le rest
  cases simples with
  | nil => exact hcompound
  | cons simple simples => exact Nat.le_trans hlinks hcompound

/-- Reads complex selectors with commas between them, up to the end or to what cannot be read. -/
def listFrom (pieces : List Piece) : List Complex × List Piece :=
  match pieces with
  | [] => ([], [])
  | first :: pieces =>
    let complex := complexFrom (first :: pieces)
    match _h : Piece.skipSpace complex.2 with
    | [] => (complex.1.toList, [])
    | p :: rest =>
      if p.kind == .comma then
        let (more, unread) := listFrom (Piece.skipSpace rest)
        (complex.1.toList ++ more, unread)
      else (complex.1.toList, p :: rest)
termination_by pieces.length
decreasing_by
  have h1 : complex.2.length ≤ (first :: pieces).length := length_complexFrom_le (first :: pieces)
  have h2 := Piece.length_skipSpace_le complex.2
  have h3 := Piece.length_skipSpace_le rest
  simp only [_h, List.length_cons] at h2
  omega

/-- Reads a selector list from a text: the selectors and the pieces left unread. -/
def readList (text : String) : List Complex × List Piece :=
  listFrom (Piece.skipSpace (Piece.ofTokens (tokenize text)))

/-- The selectors of a list, provided that their attribute operands can be read. -/
def parseList (text : String) : Except Fault (List Complex) :=
  let selectors := (readList text).1
  if selectors.all Complex.isReadable then .ok selectors else .error .splitsCharacter

end Selector

end CssMinify
