import CssMinify.Proofs.Selector.Respacing
import Mathlib.Data.List.Forall2

/-!
What is read on both sides. Two selectors agree if they have the same parts up to the arguments of pseudo-classes, and
two arguments if they are the same pieces of the source, as they stand and compacted. The steps of the reader are
followed one by one: each finds the same on both sides and leaves the two sides respaced.
-/

namespace CssMinify

namespace Selector

/-- An argument as it stands in the source, and compacted. -/
def SameArgument (source : List Piece) (x y : String) : Prop :=
  ∃ inside, inside <:+: source ∧ x = Text.trim (Piece.source inside)
    ∧ y = Text.trim (Spacing.selector.compact (inside.map Piece.token))

/-- The same simple selector, its argument as it stands and compacted. -/
inductive Simple.Agrees (source : List Piece) : Simple → Simple → Prop
  | same (simple : Simple) : Agrees source simple simple
  | argument {name x y : String} (h : SameArgument source x y) :
      Agrees source (.pseudoClass name (some x)) (.pseudoClass name (some y))

structure Part.Agrees (source : List Piece) (a b : Part) : Prop where
  compound : List.Forall₂ (Simple.Agrees source) a.compound b.compound
  combinator : a.combinator = b.combinator

def Complex.Agrees (source : List Piece) (a b : Complex) : Prop := List.Forall₂ (Part.Agrees source) a.parts b.parts

section Heads

variable {source l r : List Piece} {last : Option TokenKind}

/-- The kinds that a simple selector may end with, and a colon, behind which white space counts nevertheless. -/
def endsSimple (kind : TokenKind) : Bool := !Spacing.selector.tightAfter kind || kind == .colon

/-- The kinds that no simple selector starts with, and on which the two sides may differ. -/
def isIdle (kind : TokenKind) : Bool := kind == .whitespace || Spacing.selector.tightBefore kind || isNumeric kind

def IsIdle (pieces : List Piece) : Prop := ∀ p ∈ pieces.head?, isIdle p.kind = true

/-- Both sides start with the same piece. -/
inductive Meets (source : List Piece) : List Piece → List Piece → Prop
  | mk {p : Piece} {rest rest' : List Piece} (hp : p.token.isTrivia = false)
      (hclosed : p.kind = .function → IsClosed source rest) (h : Respaced source (some p.kind) rest rest') :
      Meets source (p :: rest) (Piece.bare p.token :: rest')

theorem Meets.respaced (h : Meets source l r) (last : Option TokenKind) : Respaced source last l r := by
  obtain ⟨hp, hclosed, h⟩ := h
  have hnone : ∀ p, spaceBefore last [] p = [] := fun p => by simp [spaceBefore]
  have hnext := @Respaced.next source last [] _ _ _ (by simp [IsWhite]) hp ⟨by simp, by simp⟩ hclosed h
  rwa [hnone] at hnext

theorem isIdle_of_isWhite {white : List Piece} (hwhite : IsWhite white) (hne : white ≠ []) (rest : List Piece) :
    IsIdle (white ++ rest) := by
  obtain ⟨w, white, rfl⟩ := List.exists_cons_of_ne_nil hne
  rintro p ⟨⟩
  simp [isIdle, hwhite w List.mem_cons_self]

/-- White space that is dropped behind the end of a simple selector is dropped because of what follows. -/
theorem IsPlainWhite.tightBefore {white : List Piece} {p : Piece} (h : IsPlainWhite last white p)
    (hlast : last.any endsSimple = true) (hne : white ≠ []) (hspace : spaceBefore last white p = []) :
    Spacing.selector.tightBefore p.kind = true := by
  cases last with
  | none => cases hlast
  | some kind =>
      simp only [endsSimple, Option.any_some, Bool.or_eq_true, Bool.not_eq_true', beq_iff_eq] at hlast
      rcases hlast with hloose | rfl
      · simpa [spaceBefore, hne, isLoose, hloose] using hspace
      · exact h.colon hne rfl

/-- Where a simple selector may start, both sides have the same piece, or neither has anything of one. -/
theorem Respaced.meets (h : Respaced source last l r)
    (hstart : last.any endsSimple = true ∨ ∀ p ∈ l.head?, p.kind ≠ .whitespace) :
    Meets source l r ∨ IsIdle l ∧ IsIdle r := by
  cases h with
  | done hwhite =>
      right
      refine ⟨fun p hp => ?_, by simp [IsIdle]⟩
      simp [isIdle, hwhite p (List.mem_of_head? hp)]
  | @next _ white rest rest' p hwhite hp hplain hclosed h =>
      by_cases hne : white = []
      · subst hne
        left
        simpa [spaceBefore] using Meets.mk hp hclosed h
      · right
        refine ⟨isIdle_of_isWhite hwhite hne _, ?_⟩
        have hends : last.any endsSimple = true := by
          refine hstart.resolve_right fun hhead => ?_
          obtain ⟨w, white, rfl⟩ := List.exists_cons_of_ne_nil hne
          exact hhead w rfl (hwhite w List.mem_cons_self)
        by_cases hspace : spaceBefore last white p = []
        · have htight := hplain.tightBefore hends hne hspace
          rw [hspace]
          rintro q ⟨⟩
          simp [isIdle, show Spacing.selector.tightBefore p.token.kind = true from htight]
        · exact isIdle_of_isWhite (isWhite_spaceBefore _ _ _) hspace _
  | @glued _ white inner rest rest' plus u hwhite hplus hinner hu h =>
      right
      constructor
      · by_cases hne : white = []
        · subst hne
          rintro q ⟨⟩
          rw [kind_of_plus hplus]
          rfl
        · exact isIdle_of_isWhite hwhite hne _
      · rintro q ⟨⟩
        have hkind : (Piece.bare ⟨u.kind, "+" ++ u.token.text⟩).kind = u.kind := rfl
        rw [isIdle, hkind, hu]
        simp

end Heads

section Attributes

variable {source l r : List Piece} {last : Option TokenKind}

/-- Both sides behind the white space before them. -/
inductive Aligned (source : List Piece) : List Piece → List Piece → Prop
  | done : Aligned source [] []
  | meets {l r : List Piece} (h : Meets source l r) : Aligned source l r
  | glued {inner rest rest' : List Piece} {plus u : Piece} (hplus : plus.token = Token.plus) (hinner : IsWhite inner)
      (hu : isNumeric u.kind = true) (h : Respaced source (some u.kind) rest rest') :
      Aligned source (plus :: (inner ++ u :: rest)) (Piece.bare ⟨u.kind, "+" ++ u.token.text⟩ :: rest')

theorem Aligned.respaced (h : Aligned source l r) (last : Option TokenKind) : Respaced source last l r := by
  cases h with
  | done => exact .done (by simp [IsWhite])
  | meets h => exact h.respaced last
  | glued hplus hinner hu h => exact .glued (show IsWhite [] by simp [IsWhite]) hplus hinner hu h

theorem skipSpace_append {white : List Piece} (hwhite : IsWhite white) (rest : List Piece) :
    Piece.skipSpace (white ++ rest) = Piece.skipSpace rest :=
  List.dropWhile_append_of_pos fun p hp => by simpa using hwhite p hp

theorem ne_whitespace_of_isTrivia {p : Piece} (hp : p.token.isTrivia = false) : p.kind ≠ .whitespace := by
  intro hkind
  rw [Token.isTrivia, show p.token.kind = .whitespace from hkind] at hp
  cases hp

theorem Respaced.skipSpace (h : Respaced source last l r) :
    Aligned source (Piece.skipSpace l) (Piece.skipSpace r) := by
  cases h with
  | done hwhite =>
      rw [← List.append_nil l, skipSpace_append hwhite]
      exact .done
  | @next _ white rest rest' p hwhite hp hplain hclosed h =>
      have hkind := ne_whitespace_of_isTrivia hp
      rw [skipSpace_append hwhite, skipSpace_append (isWhite_spaceBefore last white p), Piece.skipSpace_of_ne hkind,
        Piece.skipSpace_of_ne (p := Piece.bare p.token) hkind]
      exact .meets (.mk hp hclosed h)
  | @glued _ white inner rest rest' plus u hwhite hplus hinner hu h =>
      have hkind : plus.kind ≠ .whitespace := by
        rw [kind_of_plus hplus]
        decide
      have hnumber : (Piece.bare ⟨u.kind, "+" ++ u.token.text⟩).kind ≠ .whitespace :=
        ne_whitespace_of_isTrivia (isTrivia_of_isNumeric hu)
      rw [skipSpace_append hwhite, Piece.skipSpace_of_ne hkind, Piece.skipSpace_of_ne hnumber]
      exact .glued hplus hinner hu h

theorem skipPastBracket_append {x : List Piece} (hx : ∀ p ∈ x, p.kind ≠ .closeBracket) (rest : List Piece) :
    skipPastBracket (x ++ rest) = skipPastBracket rest := by
  induction x with
  | nil => rfl
  | cons p x ih =>
      rw [List.cons_append, skipPastBracket, if_neg (by simpa using hx p List.mem_cons_self),
        ih fun q hq => hx q (List.mem_cons_of_mem p hq)]

theorem IsWhite.ne_closeBracket {white : List Piece} (hwhite : IsWhite white) :
    ∀ p ∈ white, p.kind ≠ .closeBracket := by
  intro p hp
  rw [hwhite p hp]
  decide

theorem Respaced.skipPastBracket (h : Respaced source last l r) :
    Respaced source (some .closeBracket) (skipPastBracket l) (skipPastBracket r) := by
  induction h with
  | @done last white hwhite =>
      rw [← List.append_nil white, skipPastBracket_append hwhite.ne_closeBracket]
      exact .done (by simp [IsWhite, Selector.skipPastBracket])
  | @next last white rest rest' p hwhite hp hplain hclosed h ih =>
      have hkind : (Piece.bare p.token).kind = p.kind := rfl
      rw [skipPastBracket_append hwhite.ne_closeBracket,
        skipPastBracket_append (isWhite_spaceBefore last white p).ne_closeBracket, Selector.skipPastBracket,
        Selector.skipPastBracket, hkind]
      by_cases hclose : p.kind = .closeBracket
      · rw [if_pos (by simpa using hclose), if_pos (by simpa using hclose), ← hclose]
        exact h
      · rw [if_neg (by simpa using hclose), if_neg (by simpa using hclose)]
        exact ih
  | @glued last white inner rest rest' plus u hwhite hplus hinner hu h ih =>
      have hnumber : u.kind ≠ .closeBracket := by
        rcases isNumeric_iff.mp hu with hu | hu | hu <;> rw [hu] <;> decide
      have hside : ∀ p ∈ white ++ plus :: (inner ++ [u]), p.kind ≠ .closeBracket := by
        intro p hp hclose
        have hkind := kind_of_mem_glued hwhite hplus hinner hu hp
        rw [hclose] at hkind
        revert hkind
        decide
      have hsplit : white ++ plus :: (inner ++ u :: rest) = (white ++ plus :: (inner ++ [u])) ++ rest := by simp
      have hkind : (Piece.bare ⟨u.kind, "+" ++ u.token.text⟩).kind = u.kind := rfl
      rw [hsplit, skipPastBracket_append hside, Selector.skipPastBracket, hkind, if_neg (by simpa using hnumber)]
      exact ih

/-- The first of two pieces that make up a test. -/
theorem read?_delim {p : Piece} {c : Char} (hp : p.kind = .delim c) (hc : c ≠ '=') (rest : List Piece) :
    Test.read? (p :: rest) = if rest.head?.any (·.kind == .delim '=') = true then
      (Test.ofSign? c).map fun test => (test, rest.tail) else none := by
  cases rest with
  | nil => simp [Test.read?, hp]
  | cons q rest => simp [Test.read?, hp]

/-- Behind the first sign of a test the second one stands on both sides or on neither. -/
theorem Respaced.head?_equals {c : Char} (h : Respaced source (some (.delim c)) l r)
    (hsign : isTestSign (.delim c) = true) :
    (∃ p rest rest', l = p :: rest ∧ r = Piece.bare p.token :: rest' ∧ p.kind = .delim '='
        ∧ Respaced source (some p.kind) rest rest')
      ∨ l.head?.any (·.kind == .delim '=') = false ∧ r.head?.any (·.kind == .delim '=') = false := by
  have hidle : ∀ {white : List Piece} (rest : List Piece), IsWhite white → white ≠ [] →
      (white ++ rest).head?.any (·.kind == .delim '=') = false := by
    intro white rest hwhite hne
    obtain ⟨w, white, rfl⟩ := List.exists_cons_of_ne_nil hne
    simp [hwhite w List.mem_cons_self]
  cases h with
  | done hwhite =>
      right
      refine ⟨?_, rfl⟩
      by_cases hne : l = []
      · rw [hne]
        rfl
      · rw [← List.append_nil l]
        exact hidle [] hwhite hne
  | @next _ white rest rest' p hwhite hp hplain hclosed h =>
      have hq : (Piece.bare p.token).kind = p.kind := rfl
      by_cases hne : white = []
      · subst hne
        by_cases hequals : p.kind = .delim '='
        · exact .inl ⟨p, rest, rest', rfl, by simp [spaceBefore], hequals, h⟩
        · right
          simp [spaceBefore, hequals, hq]
      · right
        refine ⟨hidle _ hwhite hne, ?_⟩
        by_cases hspace : spaceBefore (some (.delim c)) white p = []
        · have hequals := hplain.test hne hsign
          simp [hspace, hq, hequals]
        · exact hidle _ (isWhite_spaceBefore _ _ _) hspace
  | @glued _ white inner rest rest' plus u hwhite hplus hinner hu h =>
      right
      constructor
      · by_cases hne : white = []
        · subst hne
          simp [Piece.kind, hplus, Token.plus]
        · exact hidle _ hwhite hne
      · have hkind : (Piece.bare ⟨u.kind, "+" ++ u.token.text⟩).kind = u.kind := rfl
        rw [List.head?_cons, Option.any_some, hkind]
        rcases isNumeric_iff.mp hu with hu | hu | hu <;> rw [hu] <;> rfl

/-- A test is read on both sides or on neither. -/
theorem Aligned.read? (h : Aligned source l r) :
    Test.read? l = none ∧ Test.read? r = none
      ∨ ∃ test last rest rest', Test.read? l = some (test, rest) ∧ Test.read? r = some (test, rest')
        ∧ Respaced source last rest rest' := by
  cases h with
  | done => exact .inl ⟨rfl, rfl⟩
  | meets h =>
      obtain @⟨p, rest, rest', hp, hclosed, h⟩ := h
      have hq : (Piece.bare p.token).kind = p.kind := rfl
      by_cases hdelim : ∃ c, p.kind = .delim c
      · obtain ⟨c, hc⟩ := hdelim
        by_cases hequals : c = '='
        · subst hequals
          exact .inr ⟨.equals, _, rest, rest', by simp [Test.read?, hc], by simp [Test.read?, hq, hc], h⟩
        · rw [read?_delim hc hequals, read?_delim (hq.trans hc) hequals]
          by_cases hsign : isTestSign (.delim c) = true
          · rw [hc] at h
            rcases h.head?_equals hsign with ⟨q, after, after', rfl, rfl, hkind, hafter⟩ | ⟨hl, hr⟩
            · right
              obtain ⟨test, htest⟩ := Option.isSome_iff_exists.mp hsign
              have hq' : (Piece.bare q.token).kind = q.kind := rfl
              exact ⟨test, _, after, after', by simp [hkind, htest], by simp [hq', hkind, htest], hafter⟩
            · left
              simp [hl, hr]
          · left
            have hnone : Test.ofSign? c = none := by simpa [isTestSign] using hsign
            simp [hnone]
      · left
        have hnone : ∀ {q : Piece} (more : List Piece), q.kind = p.kind → Test.read? (q :: more) = none := by
          intro q more hkind
          rw [Test.read?.eq_def]
          simp only [hkind]
          split
          · next heq => exact absurd ⟨_, heq⟩ hdelim
          · next heq => exact absurd ⟨_, heq⟩ hdelim
          · rfl
        exact ⟨hnone rest rfl, hnone rest' hq⟩
  | @glued inner rest rest' plus u hplus hinner hu h =>
      left
      have hsign : Test.ofSign? '+' = none := rfl
      have hdelim := kind_of_plus hplus
      rw [read?_delim hdelim (by decide), hsign]
      constructor
      · split <;> rfl
      · rcases isNumeric_iff.mp hu with hu | hu | hu <;> simp [Test.read?, hu]

theorem Aligned.readOperand? (h : Aligned source l r) : readOperand? l = readOperand? r := by
  cases h with
  | done => rfl
  | meets h =>
      obtain ⟨hp, hclosed, h⟩ := h
      rfl
  | @glued inner rest rest' plus u hplus hinner hu h =>
      have hdelim := kind_of_plus hplus
      rcases isNumeric_iff.mp hu with hu | hu | hu <;> simp [Selector.readOperand?, hdelim, hu]

/-- The rest of an attribute selector, behind its name. -/
def attributeFrom (name : String) (pieces : List Piece) : Option Simple × List Piece :=
  if pieces.head?.any (·.kind == .closeBracket) then (some (.attribute name .present none), pieces.tail)
  else match Test.read? pieces with
    | some (test, after) =>
      (some (.attribute name test (readOperand? (Piece.skipSpace after))), skipPastBracket (Piece.skipSpace after))
    | none => (none, skipPastBracket pieces)

theorem readAttribute_eq (pieces : List Piece) :
    readAttribute pieces = match Piece.skipSpace pieces with
      | [] => (none, [])
      | p :: rest =>
        if p.kind = .ident then attributeFrom p.token.text (Piece.skipSpace rest)
        else (none, skipPastBracket (p :: rest)) := by
  rw [readAttribute]
  cases Piece.skipSpace pieces with
  | nil => rfl
  | cons p rest =>
      dsimp only
      by_cases hident : p.kind = .ident
      · rw [if_pos (by simpa using hident), if_pos hident]
        cases Piece.skipSpace rest with
        | nil => rfl
        | cons q after => rfl
      · rw [if_neg (by simpa using hident), if_neg hident]

theorem Aligned.attributeFrom (h : Aligned source l r) (name : String) :
    (attributeFrom name l).1 = (attributeFrom name r).1
      ∧ Respaced source (some .closeBracket) (attributeFrom name l).2 (attributeFrom name r).2 := by
  have htest : l.head?.any (·.kind == .closeBracket) = false → r.head?.any (·.kind == .closeBracket) = false →
      (Selector.attributeFrom name l).1 = (Selector.attributeFrom name r).1
        ∧ Respaced source (some .closeBracket) (Selector.attributeFrom name l).2
          (Selector.attributeFrom name r).2 := by
    intro hl hr
    rw [Selector.attributeFrom, Selector.attributeFrom, hl, hr]
    rcases h.read? with ⟨hnone, hnone'⟩ | ⟨test, last, rest, rest', hsome, hsome', hrest⟩
    · rw [hnone, hnone']
      exact ⟨rfl, (h.respaced none).skipPastBracket⟩
    · have hspace := hrest.skipSpace
      rw [hsome, hsome']
      simp only [Bool.false_eq_true, if_false, hspace.readOperand?, true_and]
      exact (hspace.respaced none).skipPastBracket
  cases h with
  | done => exact htest rfl rfl
  | meets h =>
      obtain @⟨p, rest, rest', hp, hclosed, h⟩ := h
      by_cases hclose : p.kind = .closeBracket
      · have hclose' : p.token.kind = .closeBracket := hclose
        simp only [Selector.attributeFrom, List.head?_cons, Option.any_some, Piece.kind_bare, hclose, hclose',
          beq_self_eq_true, if_true, List.tail_cons, true_and]
        rw [← hclose]
        exact h
      · have hnot : (p.kind == .closeBracket) = false := by simpa using hclose
        exact htest hnot hnot
  | @glued inner rest rest' plus u hplus hinner hu h =>
      refine htest ?_ ?_
      · rw [List.head?_cons, Option.any_some, kind_of_plus hplus]
        rfl
      · rw [List.head?_cons, Option.any_some, Piece.kind_bare]
        rcases isNumeric_iff.mp hu with hu | hu | hu <;> rw [hu] <;> rfl

/-- An attribute selector is the same on both sides. -/
theorem Respaced.readAttribute (h : Respaced source last l r) :
    (readAttribute l).1 = (readAttribute r).1
      ∧ Respaced source (some .closeBracket) (readAttribute l).2 (readAttribute r).2 := by
  have hspace := h.skipSpace
  have hskip := (hspace.respaced none).skipPastBracket
  rw [readAttribute_eq, readAttribute_eq]
  generalize Piece.skipSpace l = l at hspace hskip ⊢
  generalize Piece.skipSpace r = r at hspace hskip ⊢
  cases hspace with
  | done => exact ⟨rfl, .done (by simp [IsWhite])⟩
  | meets h =>
      obtain @⟨p, rest, rest', hp, hclosed, h⟩ := h
      by_cases hident : p.kind = .ident
      · have hident' : p.token.kind = .ident := hident
        simp only [hident, Piece.kind_bare, hident', if_true]
        exact h.skipSpace.attributeFrom p.token.text
      · have hident' : p.token.kind ≠ .ident := hident
        simp only [hident, Piece.kind_bare, hident', if_false, true_and]
        exact hskip
  | @glued inner rest rest' plus u hplus hinner hu h =>
      have hnot : plus.kind ≠ .ident := by
        rw [kind_of_plus hplus]
        decide
      have hnot' : u.kind ≠ .ident := by
        rcases isNumeric_iff.mp hu with hu | hu | hu <;> rw [hu] <;> decide
      simp only [hnot, Piece.kind_bare, hnot', if_false, true_and]
      exact hskip

end Attributes

section Steps

variable {source l r : List Piece} {last : Option TokenKind}

/-- One step finds the same on both sides, and leaves them behind the end of a simple selector or where they were. -/
inductive SimpleStep.Agrees (source : List Piece) (last : Option TokenKind) : SimpleStep → SimpleStep → Prop
  | found {a b : Simple} {l r : List Piece} {kind : TokenKind} (hsimple : a.Agrees source b)
      (hkind : endsSimple kind = true) (h : Respaced source (some kind) l r) :
      Agrees source last (.found a l) (.found b r)
  | skipped {l r : List Piece} {kind : TokenKind} (hkind : endsSimple kind = true)
      (h : Respaced source (some kind) l r) : Agrees source last (.skipped l) (.skipped r)
  | stopped {l r : List Piece} {last' : Option TokenKind} (hlast : last' = last ∨ last'.any endsSimple = true)
      (h : Respaced source last' l r) : Agrees source last (.stopped l) (.stopped r)

theorem readPseudo_of_isIdle (doubleColon : Bool) (h : IsIdle l) :
    SimpleStep.readPseudo doubleColon l = .stopped l := by
  cases l with
  | nil => rfl
  | cons p rest =>
      have hp := h p rfl
      rw [SimpleStep.readPseudo]
      split
      · next hkind =>
          rw [hkind] at hp
          cases hp
      · next hkind =>
          rw [hkind] at hp
          cases hp
      · rfl

theorem read_of_isIdle {p : Piece} (started : Bool) (h : isIdle p.kind = true) (rest : List Piece) :
    SimpleStep.read started p rest = .stopped (p :: rest) := by
  rw [SimpleStep.read.eq_def]
  split
  all_goals first | rfl | skip
  all_goals
    next hkind =>
      rw [hkind] at h
      cases h

theorem source_map_bare (vs : List Token) : Piece.source (vs.map Piece.bare) = Token.source vs := by
  cases vs with
  | nil => rfl
  | cons v vs =>
      rw [List.map_cons, Piece.source, Token.source, List.map_cons, Text.concat, List.map_map]
      congr 2

/-- Behind an opening parenthesis the compact text starts as at its beginning. -/
theorem compactAfter_of_tightAfter {kind : TokenKind} (htight : Spacing.selector.tightAfter kind = true)
    (spaced : Bool) (ts : List Token) :
    Spacing.selector.compactAfter (some kind) spaced ts = Spacing.selector.compactAfter none spaced ts := by
  induction ts generalizing spaced with
  | nil => rfl
  | cons t ts ih =>
      rw [Spacing.compactAfter, Spacing.compactAfter, ih]
      simp [htight]

/-- The argument of a function, as it stands and compacted. -/
theorem Respaced.argument (h : Respaced source (some .function) l r) (hclosed : IsClosed source l) :
    SameArgument source (argumentText (Selector.spanArgument 1 l).1) (argumentText (Selector.spanArgument 1 r).1)
      ∧ Respaced source (some .closeParen) (Selector.spanArgument 1 l).2 (Selector.spanArgument 1 r).2 := by
  obtain ⟨x, c, vs, hx, hc, hvs, hsource, hafter⟩ := h.spanArgument one_ne_zero hclosed.closed
  refine ⟨⟨x, ?_, ?_, ?_⟩, hafter⟩
  · have hsplit := (spanArgument_spec one_ne_zero l).1
    rw [hx, List.append_assoc] at hsplit
    exact (hsplit ▸ List.prefix_append x _).isInfix.trans hclosed.suffix.isInfix
  · rw [hx, argumentText]
    simp [hc]
  · rw [hvs, argumentText]
    have hkind : c.token.kind = .closeParen := hc
    have htight : Spacing.selector.tightAfter .function = true := rfl
    simp [hkind, source_map_bare, hsource, Spacing.compact, compactAfter_of_tightAfter htight]

theorem readPseudo_ident {p : Piece} (hp : p.kind = .ident) (doubleColon : Bool) (rest : List Piece) :
    SimpleStep.readPseudo doubleColon (p :: rest) = .found
      (if doubleColon || isLegacyPseudoElement (Text.lower p.token.text) then
        .pseudoElement (Text.lower p.token.text) doubleColon
      else .pseudoClass (Text.lower p.token.text) none) rest := by
  simp only [SimpleStep.readPseudo, hp]
  split <;> rfl

theorem Respaced.readPseudo (h : Respaced source (some .colon) l r) (doubleColon : Bool) :
    SimpleStep.Agrees source (some .colon) (SimpleStep.readPseudo doubleColon l)
      (SimpleStep.readPseudo doubleColon r) := by
  rcases h.meets (.inl rfl) with hmeets | ⟨hl, hr⟩
  · have hstay := hmeets.respaced (some .colon)
    obtain @⟨p, rest, rest', hp, hclosed, hrest⟩ := hmeets
    have hkind' : (Piece.bare p.token).kind = p.kind := rfl
    cases hkind : p.kind with
    | ident =>
        rw [hkind] at hrest
        rw [readPseudo_ident hkind, readPseudo_ident (hkind'.trans hkind)]
        exact .found (.same _) rfl hrest
    | function =>
        rw [hkind] at hrest
        obtain ⟨hargument, hafter⟩ := hrest.argument (hclosed hkind)
        simp only [SimpleStep.readPseudo, hkind', hkind]
        split
        · exact .found (.same _) rfl hafter
        · exact .found (.argument hargument) rfl hafter
    | _ =>
        simp only [SimpleStep.readPseudo, hkind', hkind]
        exact .stopped (.inl rfl) hstay
  · rw [readPseudo_of_isIdle _ hl, readPseudo_of_isIdle _ hr]
    exact .stopped (.inl rfl) h

theorem SimpleStep.Agrees.of_endsSimple {a b : SimpleStep} (hlast : last.any endsSimple = true)
    (h : SimpleStep.Agrees source last a b) (last' : Option TokenKind) : SimpleStep.Agrees source last' a b := by
  cases h with
  | found hsimple hkind h => exact .found hsimple hkind h
  | skipped hkind h => exact .skipped hkind h
  | stopped hends h =>
      refine .stopped (.inr ?_) h
      rcases hends with rfl | hends
      · exact hlast
      · exact hends

theorem read_colon {p : Piece} (hp : p.kind = .colon) (started : Bool) (rest : List Piece) :
    SimpleStep.read started p rest = if rest.head?.any (·.kind == .colon) = true then
      SimpleStep.readPseudo true rest.tail else SimpleStep.readPseudo false rest := by
  cases rest <;> simp [SimpleStep.read, hp]

theorem read_point {p : Piece} (hp : p.kind = .delim '.') (started : Bool) (q : Piece) (rest : List Piece) :
    SimpleStep.read started p (q :: rest) = if q.kind = .ident then .found (.className q.token.text) rest
      else .stopped (p :: q :: rest) := by
  simp [SimpleStep.read, hp]

theorem read_point_of_isIdle {p : Piece} (hp : p.kind = .delim '.') (started : Bool) {rest : List Piece}
    (h : IsIdle rest) : SimpleStep.read started p rest = .stopped (p :: rest) := by
  cases rest with
  | nil => simp [SimpleStep.read, hp]
  | cons q rest =>
      rw [read_point hp, if_neg]
      intro hident
      have hq := h q rfl
      rw [hident] at hq
      cases hq

/-- A pseudo-class or a pseudo-element is the same on both sides. -/
theorem Respaced.read_colon {p q : Piece} (hp : p.kind = .colon) (hq : q.kind = .colon)
    (h : Respaced source (some .colon) l r) (started : Bool) :
    SimpleStep.Agrees source (some .colon) (SimpleStep.read started p l) (SimpleStep.read started q r) := by
  rw [Selector.read_colon hp, Selector.read_colon hq]
  rcases h.meets (.inl rfl) with hmeets | ⟨hl, hr⟩
  · obtain @⟨u, rest, rest', hu, hclosed, hrest⟩ := hmeets
    by_cases hcolon : u.kind = .colon
    · have hcolon' : u.token.kind = .colon := hcolon
      rw [hcolon] at hrest
      simp only [List.head?_cons, Option.any_some, Piece.kind_bare, hcolon, hcolon', beq_self_eq_true, if_true,
        List.tail_cons]
      exact hrest.readPseudo true
    · have hnot : (u.kind == .colon) = false := by simpa using hcolon
      have hnot' : (u.token.kind == .colon) = false := hnot
      simp only [List.head?_cons, Option.any_some, Piece.kind_bare, hnot, hnot', Bool.false_eq_true, if_false]
      exact h.readPseudo false
  · have hnone : ∀ {pieces : List Piece}, IsIdle pieces → pieces.head?.any (·.kind == .colon) = false := by
      intro pieces hidle
      cases pieces with
      | nil => rfl
      | cons u rest =>
          have hu := hidle u rfl
          rw [List.head?_cons, Option.any_some, beq_eq_false_iff_ne]
          intro hcolon
          rw [hcolon] at hu
          cases hu
    rw [hnone hl, hnone hr]
    exact h.readPseudo false

/-- A step from the same piece. -/
theorem Meets.read {p q : Piece} {rest rest' : List Piece} (hmeets : Meets source (p :: rest) (q :: rest'))
    (started : Bool) (last : Option TokenKind) :
    SimpleStep.Agrees source last (SimpleStep.read started p rest) (SimpleStep.read started q rest') := by
  have hstay : SimpleStep.Agrees source last (.stopped (p :: rest)) (.stopped (q :: rest')) :=
    .stopped (.inl rfl) (hmeets.respaced last)
  obtain ⟨hp, hclosed, h⟩ := hmeets
  have hkind' : (Piece.bare p.token).kind = p.kind := rfl
  cases hkind : p.kind with
  | ident =>
      rw [hkind] at h
      simp only [SimpleStep.read, hkind', hkind]
      split
      · exact hstay
      · exact .found (.same _) rfl h
  | hash =>
      rw [hkind] at h
      simp only [SimpleStep.read, hkind', hkind]
      exact .found (.same _) rfl h
  | openBracket =>
      obtain ⟨hsame, hafter⟩ := h.readAttribute
      simp only [SimpleStep.read, hkind', hkind]
      cases hread : readAttribute rest with
      | mk simple after =>
          cases hread' : readAttribute rest' with
          | mk simple' after' =>
              rw [hread, hread'] at hsame hafter
              obtain rfl : simple = simple' := hsame
              cases simple with
              | none => exact .skipped rfl hafter
              | some simple => exact .found (.same _) rfl hafter
  | colon =>
      rw [hkind] at h
      exact (h.read_colon hkind (hkind'.trans hkind) started).of_endsSimple rfl last
  | delim c =>
      rw [hkind] at h
      by_cases hstar : c = '*'
      · subst hstar
        simp only [SimpleStep.read, hkind', hkind]
        split
        · exact hstay
        · exact .found (.same _) rfl h
      · by_cases hpoint : c = '.'
        · subst hpoint
          rcases h.meets (.inl rfl) with hmeets | ⟨hl, hr⟩
          · obtain @⟨u, rest, rest', hu, hclosed', hrest⟩ := hmeets
            rw [read_point hkind, read_point (hkind'.trans hkind), Piece.kind_bare]
            by_cases hident : u.kind = .ident
            · have hident' : u.token.kind = .ident := hident
              rw [hident] at hrest
              rw [if_pos hident, if_pos hident']
              exact .found (.same _) rfl hrest
            · have hident' : u.token.kind ≠ .ident := hident
              rw [if_neg hident, if_neg hident']
              exact hstay
          · rw [read_point_of_isIdle hkind started hl, read_point_of_isIdle (hkind'.trans hkind) started hr]
            exact hstay
        · have hstop : ∀ {q : Piece} (more : List Piece), q.kind = .delim c →
              SimpleStep.read started q more = .stopped (q :: more) := by
            intro q more hq
            simp [SimpleStep.read, hq, hstar, hpoint]
          rw [hstop rest hkind, hstop rest' (hkind'.trans hkind)]
          exact hstay
  | _ =>
      simp only [SimpleStep.read, hkind', hkind]
      exact hstay

end Steps

section Compounds

variable {source l r : List Piece} {last : Option TokenKind}

theorem compoundFrom_of_isIdle (started : Bool) (h : IsIdle l) : compoundFrom started l = ([], l) := by
  cases l with
  | nil => simp
  | cons p rest => rw [compoundFrom_stopped (read_of_isIdle started (h p rfl) rest)]

/-- A compound is the same on both sides. Behind a compound that has a simple selector, white space counts. -/
theorem Respaced.compoundFrom (started : Bool) (h : Respaced source last l r)
    (hstart : last.any endsSimple = true ∨ ∀ p ∈ l.head?, p.kind ≠ .whitespace)
    (hstarted : started = true → last.any endsSimple = true) :
    List.Forall₂ (Simple.Agrees source) (compoundFrom started l).1 (compoundFrom started r).1
      ∧ ∃ last', Respaced source last' (Selector.compoundFrom started l).2 (Selector.compoundFrom started r).2
        ∧ (started = true ∨ (Selector.compoundFrom started l).1 ≠ [] → last'.any endsSimple = true) := by
  induction hn : l.length using Nat.strong_induction_on generalizing l r last started with
  | _ n ih =>
      subst hn
      rcases h.meets hstart with hmeets | ⟨hl, hr⟩
      · obtain @⟨p, rest, rest', hp, hclosed, hrest⟩ := hmeets
        have hstep := (Meets.mk hp hclosed hrest).read started last
        have hle := SimpleStep.length_rest_read_le started p rest
        generalize hread : SimpleStep.read started p rest = step at hstep hle
        generalize hread' : SimpleStep.read started (Piece.bare p.token) rest' = step' at hstep
        cases hstep with
        | @found a b l r kind hsimple hkind hafter =>
            rw [compoundFrom_found hread, compoundFrom_found hread']
            have hshort : l.length < (p :: rest).length := Nat.lt_succ_of_le (hle (by simp))
            obtain ⟨hsimples, last', hmore, hends⟩ := ih l.length hshort true hafter (.inl hkind) (fun _ => hkind) rfl
            exact ⟨.cons hsimple hsimples, last', hmore, fun _ => hends (.inl rfl)⟩
        | @skipped l r kind hkind hafter =>
            rw [compoundFrom_skipped hread, compoundFrom_skipped hread']
            have hshort : l.length < (p :: rest).length := Nat.lt_succ_of_le (hle (by simp))
            exact ih l.length hshort started hafter (.inl hkind) (fun _ => hkind) rfl
        | @stopped l r last' hlast hafter =>
            rw [compoundFrom_stopped hread, compoundFrom_stopped hread']
            refine ⟨.nil, last', hafter, fun hsome => ?_⟩
            rcases hlast with rfl | hends
            · exact hstarted (by simpa using hsome)
            · exact hends
      · rw [compoundFrom_of_isIdle started hl, compoundFrom_of_isIdle started hr]
        exact ⟨.nil, last, h, fun hsome => hstarted (by simpa using hsome)⟩

end Compounds

section Links

variable {source l r : List Piece} {last : Option TokenKind}

/-- The combinators that have a sign. -/
def combinatorOf? : TokenKind → Option Combinator
  | .delim '>' => some .child
  | .delim '+' => some .nextSibling
  | .delim '~' => some .laterSibling
  | _ => none

theorem readCombinator?_cons (spaced : Bool) (p : Piece) (rest : List Piece) :
    readCombinator? spaced (p :: rest) = match combinatorOf? p.kind with
      | some combinator => some (combinator, Piece.skipSpace rest)
      | none => if spaced then some (.descendant, p :: rest) else none := by
  rw [readCombinator?, combinatorOf?.eq_def]
  split <;> simp_all

/-- The links that start with this combinator. -/
def linksBehind (combinator : Combinator) (start : List Piece) : List Part × List Piece :=
  if (compoundFrom false start).1 = [] then ([], start)
  else
    (⟨(compoundFrom false start).1, some combinator⟩ :: (linksFrom (compoundFrom false start).2).1,
      (linksFrom (compoundFrom false start).2).2)

/-- Two sides that are respaced, or that have come to numbers, at which reading ends. -/
def Rests (source l r : List Piece) : Prop :=
  (∃ last, Respaced source last l r) ∨ (∃ p rest, l = p :: rest ∧ isNumeric p.kind = true)
    ∧ ∃ p rest, r = p :: rest ∧ isNumeric p.kind = true

theorem linksFrom_eq_linksBehind (pieces : List Piece) :
    linksFrom pieces
      = match readCombinator? ((Piece.skipSpace pieces).length < pieces.length) (Piece.skipSpace pieces) with
        | none => ([], Piece.skipSpace pieces)
        | some (combinator, start) => linksBehind combinator start :=
  linksFrom_eq pieces

theorem Aligned.head?_ne (h : Aligned source l r) : ∀ p ∈ l.head?, p.kind ≠ .whitespace := by
  cases h with
  | done => simp
  | meets h =>
      obtain ⟨hp, hclosed, h⟩ := h
      rintro p ⟨⟩
      exact ne_whitespace_of_isTrivia hp
  | glued hplus hinner hu h =>
      rintro p ⟨⟩
      rw [kind_of_plus hplus]
      decide

/-- The links are the same on both sides. -/
theorem Respaced.linksFrom (h : Respaced source last l r) (hlast : last.any endsSimple = true) :
    List.Forall₂ (Part.Agrees source) (linksFrom l).1 (linksFrom r).1
      ∧ Rests source (Selector.linksFrom l).2 (Selector.linksFrom r).2 := by
  induction hn : l.length using Nat.strong_induction_on generalizing l r last with
  | _ n ih =>
      subst hn
      have hbehind : ∀ {start start' : List Piece} (combinator : Combinator), Aligned source start start' →
          start.length ≤ l.length →
          List.Forall₂ (Part.Agrees source) (linksBehind combinator start).1 (linksBehind combinator start').1
            ∧ Rests source (linksBehind combinator start).2 (linksBehind combinator start').2 := by
        intro start start' combinator hstart hle
        obtain ⟨hsimples, last', hafter, hends⟩ :=
          (hstart.respaced none).compoundFrom false (.inr hstart.head?_ne) (by simp)
        have hshort := (length_compoundFrom_le false start).2
        simp only [linksBehind]
        generalize Selector.compoundFrom false start = read at hsimples hafter hends hshort ⊢
        generalize Selector.compoundFrom false start' = read' at hsimples hafter ⊢
        obtain ⟨simples, after⟩ := read
        obtain ⟨simples', after'⟩ := read'
        cases hsimples with
        | nil => exact ⟨.nil, .inl ⟨none, hstart.respaced none⟩⟩
        | @cons a b simples simples' hab hsimples =>
            have hlt : after.length < l.length := Nat.lt_of_lt_of_le (hshort (by simp)) hle
            have hmore := ih after.length hlt hafter (hends (.inr (by simp))) rfl
            simp only [List.cons_ne_nil, if_false]
            exact ⟨.cons ⟨.cons hab hsimples, rfl⟩ hmore.1, hmore.2⟩
      rw [linksFrom_eq_linksBehind, linksFrom_eq_linksBehind]
      cases h with
      | done hwhite =>
          have hnone : Piece.skipSpace l = [] := by
            rw [← List.append_nil l, skipSpace_append hwhite]
            rfl
          rw [hnone]
          exact ⟨.nil, .inl ⟨none, .done (show IsWhite [] by simp [IsWhite])⟩⟩
      | @next _ white rest rest' p hwhite hp hplain hclosed h =>
          have hkind := ne_whitespace_of_isTrivia hp
          have hmeets : Meets source (p :: rest) (Piece.bare p.token :: rest') := .mk hp hclosed h
          rw [skipSpace_append hwhite, skipSpace_append (isWhite_spaceBefore last white p), Piece.skipSpace_of_ne hkind,
            Piece.skipSpace_of_ne (p := Piece.bare p.token) hkind, readCombinator?_cons, readCombinator?_cons]
          have hkind' : (Piece.bare p.token).kind = p.kind := rfl
          rw [hkind']
          cases combinatorOf? p.kind with
          | some combinator =>
              refine hbehind combinator h.skipSpace ?_
              have hle := Piece.length_skipSpace_le rest
              simp only [List.length_append, List.length_cons]
              omega
          | none =>
              by_cases hne : white = []
              · have hspace : spaceBefore last white p = [] := by simp [spaceBefore, hne]
                rw [hspace, hne]
                simp only [List.nil_append, Nat.lt_irrefl, decide_false]
                exact ⟨.nil, .inl ⟨none, hmeets.respaced none⟩⟩
              · have hlonger : (p :: rest).length < (white ++ p :: rest).length := by
                  have hpos := List.length_pos_of_ne_nil hne
                  rw [List.length_append]
                  omega
                simp only [hlonger, decide_true, if_true]
                by_cases hspace : spaceBefore last white p = []
                · -- The sign that follows ends the selector on the left, where white space announced a compound.
                  have hidle : IsIdle (p :: rest) := by
                    rintro q ⟨⟩
                    simp [isIdle, hplain.tightBefore hlast hne hspace]
                  rw [hspace]
                  simp only [List.nil_append, Nat.lt_irrefl, decide_false, linksBehind, compoundFrom_of_isIdle _ hidle]
                  exact ⟨.nil, .inl ⟨none, hmeets.respaced none⟩⟩
                · have hlonger' : (Piece.bare p.token :: rest').length
                      < (spaceBefore last white p ++ Piece.bare p.token :: rest').length := by
                    have hpos := List.length_pos_of_ne_nil hspace
                    rw [List.length_append]
                    omega
                  simp only [hlonger', decide_true, if_true]
                  exact hbehind .descendant (.meets hmeets) hlonger.le
      | @glued _ white inner rest rest' plus u hwhite hplus hinner hu h =>
          have hdelim := kind_of_plus hplus
          have hnumber : u.kind ≠ .whitespace := ne_whitespace_of_isTrivia (isTrivia_of_isNumeric hu)
          have hnone : combinatorOf? u.kind = none := by
            rcases isNumeric_iff.mp hu with hu | hu | hu <;> rw [hu] <;> rfl
          have hidle : IsIdle (u :: rest) := by
            rintro q ⟨⟩
            simp [isIdle, hu]
          have hright : (Piece.bare ⟨u.kind, "+" ++ u.token.text⟩).kind = u.kind := rfl
          rw [skipSpace_append hwhite, Piece.skipSpace_of_ne (by rw [hdelim]; decide),
            Piece.skipSpace_of_ne (by rw [hright]; exact hnumber), readCombinator?_cons, readCombinator?_cons, hdelim,
            hright, hnone, skipSpace_append hinner, Piece.skipSpace_of_ne hnumber]
          simp only [combinatorOf?, Nat.lt_irrefl, decide_false, linksBehind, compoundFrom_of_isIdle _ hidle]
          exact ⟨.nil, .inr ⟨⟨u, rest, rfl, hu⟩, _, rest', rfl, hu⟩⟩

end Links

section Lists

variable {source l r : List Piece}

/-- A complex selector is the same on both sides. -/
theorem Aligned.complexFrom (h : Aligned source l r) :
    List.Forall₂ (Complex.Agrees source) (complexFrom l).1.toList (complexFrom r).1.toList
      ∧ Rests source (Selector.complexFrom l).2 (Selector.complexFrom r).2 := by
  obtain ⟨hsimples, last, hafter, hends⟩ :=
    (h.respaced none).compoundFrom false (.inr h.head?_ne) (by simp)
  rw [complexFrom_eq, complexFrom_eq]
  generalize compoundFrom false l = read at hsimples hafter hends ⊢
  generalize compoundFrom false r = read' at hsimples hafter ⊢
  obtain ⟨simples, after⟩ := read
  obtain ⟨simples', after'⟩ := read'
  cases hsimples with
  | nil => exact ⟨.nil, .inl ⟨last, hafter⟩⟩
  | @cons a b simples simples' hab hsimples =>
      obtain ⟨hlinks, hrests⟩ := hafter.linksFrom (hends (.inr (by simp)))
      simp only [List.cons_ne_nil, if_false, Option.toList_some]
      refine ⟨.cons ?_ .nil, hrests⟩
      exact List.rel_reverse (.cons ⟨.cons hab hsimples, rfl⟩ hlinks)

/-- What a list is read from starts with a comma on both sides, or on neither. -/
theorem Rests.comma (h : Rests source l r) :
    (∃ p rest rest', Piece.skipSpace l = p :: rest ∧ Piece.skipSpace r = Piece.bare p.token :: rest'
        ∧ p.kind = .comma ∧ ∃ last, Respaced source last rest rest')
      ∨ (Piece.skipSpace l).head?.any (·.kind == .comma) = false
        ∧ (Piece.skipSpace r).head?.any (·.kind == .comma) = false := by
  have hnumeric : ∀ {p : Piece}, isNumeric p.kind = true → (p.kind == .comma) = false := by
    intro p hp
    rcases isNumeric_iff.mp hp with hp | hp | hp <;> rw [hp] <;> rfl
  rcases h with ⟨last, h⟩ | ⟨⟨p, rest, rfl, hp⟩, q, rest', rfl, hq⟩
  · have hspace := h.skipSpace
    generalize Piece.skipSpace l = l at hspace ⊢
    generalize Piece.skipSpace r = r at hspace ⊢
    cases hspace with
    | done => exact .inr ⟨rfl, rfl⟩
    | meets h =>
        obtain @⟨p, rest, rest', hp, hclosed, h⟩ := h
        by_cases hcomma : p.kind = .comma
        · exact .inl ⟨p, rest, rest', rfl, rfl, hcomma, _, h⟩
        · have hnot : (p.kind == .comma) = false := by simpa using hcomma
          exact .inr ⟨hnot, hnot⟩
    | @glued inner rest rest' plus u hplus hinner hu h =>
        right
        refine ⟨?_, hnumeric (p := Piece.bare ⟨u.kind, "+" ++ u.token.text⟩) hu⟩
        rw [List.head?_cons, Option.any_some, kind_of_plus hplus]
        rfl
  · right
    rw [Piece.skipSpace_of_ne (ne_whitespace_of_isTrivia (isTrivia_of_isNumeric hp)),
      Piece.skipSpace_of_ne (ne_whitespace_of_isTrivia (isTrivia_of_isNumeric hq))]
    exact ⟨hnumeric hp, hnumeric hq⟩

theorem listFrom_of_not_comma {pieces : List Piece} (hne : pieces ≠ [])
    (h : (Piece.skipSpace (complexFrom pieces).2).head?.any (·.kind == .comma) = false) :
    (listFrom pieces).1 = (complexFrom pieces).1.toList := by
  rw [listFrom_eq hne]
  cases hspace : Piece.skipSpace (complexFrom pieces).2 with
  | nil => rfl
  | cons p rest =>
      rw [hspace] at h
      have hcomma : p.kind ≠ .comma := by simpa using h
      simp only [hcomma, if_false]

theorem listFrom_of_comma {pieces rest : List Piece} {p : Piece} (hne : pieces ≠ [])
    (hspace : Piece.skipSpace (complexFrom pieces).2 = p :: rest) (hcomma : p.kind = .comma) :
    (listFrom pieces).1 = (complexFrom pieces).1.toList ++ (listFrom (Piece.skipSpace rest)).1 := by
  rw [listFrom_eq hne, hspace]
  simp only [hcomma, if_true]

/-- A list of selectors is the same on both sides. -/
theorem Aligned.listFrom (h : Aligned source l r) :
    List.Forall₂ (Complex.Agrees source) (listFrom l).1 (listFrom r).1 := by
  induction hn : l.length using Nat.strong_induction_on generalizing l r with
  | _ n ih =>
      subst hn
      by_cases hnil : l = []
      · subst hnil
        obtain rfl := (h.respaced none).eq_nil
        rw [listFrom_nil]
        exact .nil
      · have hnil' : r ≠ [] := by
          cases h with
          | done => exact absurd rfl hnil
          | meets h =>
              obtain ⟨hp, hclosed, h⟩ := h
              simp
          | glued => simp
        obtain ⟨hcomplex, hrests⟩ := h.complexFrom
        rcases hrests.comma with ⟨p, rest, rest', hl, hr, hcomma, last, hrest⟩ | ⟨hl, hr⟩
        · rw [listFrom_of_comma hnil hl hcomma, listFrom_of_comma hnil' hr hcomma]
          refine List.rel_append hcomplex (ih (Piece.skipSpace rest).length ?_ hrest.skipSpace rfl)
          have hle := length_complexFrom_le l
          have hle' := Piece.length_skipSpace_le (Selector.complexFrom l).2
          have hle'' := Piece.length_skipSpace_le rest
          rw [hl, List.length_cons] at hle'
          omega
        · rw [listFrom_of_not_comma hnil hl, listFrom_of_not_comma hnil' hr]
          exact hcomplex

/-- Two readings agree if both fail in the same way, or both find selectors that agree. -/
inductive ReadingsAgree (source : List Piece) : Except Fault (List Complex) → Except Fault (List Complex) → Prop
  | failed (fault : Fault) : ReadingsAgree source (.error fault) (.error fault)
  | found {a b : List Complex} (h : List.Forall₂ (Complex.Agrees source) a b) : ReadingsAgree source (.ok a) (.ok b)

theorem all_eq_of_forall₂ {α : Type} {R : α → α → Prop} {p : α → Bool} (hp : ∀ a b, R a b → p a = p b) {as bs : List α}
    (h : List.Forall₂ R as bs) : as.all p = bs.all p := by
  induction h with
  | nil => rfl
  | cons hab _ ih => rw [List.all_cons, List.all_cons, hp _ _ hab, ih]

theorem Complex.Agrees.isReadable_eq {a b : Complex} (h : a.Agrees source b) : a.isReadable = b.isReadable := by
  refine all_eq_of_forall₂ (fun p q hpart => ?_) h
  refine all_eq_of_forall₂ (fun s t hsimple => ?_) hpart.compound
  cases hsimple <;> rfl

end Lists

/-- Every function closes its argument. -/
def closesArguments : List Piece → Bool
  | [] => true
  | p :: rest =>
    (p.kind != .function || (spanArgument 1 rest).1.getLast?.any (·.kind == .closeParen)) && closesArguments rest

theorem closesArguments_of_suffix {pieces rest : List Piece} {p : Piece} (h : closesArguments pieces = true)
    (hsuffix : p :: rest <:+ pieces) (hp : p.kind = .function) :
    (spanArgument 1 rest).1.getLast?.any (·.kind == .closeParen) = true := by
  induction pieces with
  | nil => cases List.suffix_nil.mp hsuffix
  | cons q pieces ih =>
      rw [closesArguments, Bool.and_eq_true] at h
      rcases List.suffix_cons_iff.mp hsuffix with heq | hsuffix
      · obtain ⟨rfl, rfl⟩ := List.cons.inj heq
        simpa [hp] using h.1
      · exact ih h.2 hsuffix

/-- A selector that reads the same in its compact form. -/
structure IsCompactable (ts : List Token) : Prop where
  gaps : HasPlainGaps none [] ts
  arguments : closesArguments (Piece.ofTokens ts) = true

instance (ts : List Token) : Decidable (IsCompactable ts) :=
  decidable_of_iff (HasPlainGaps none [] ts ∧ closesArguments (Piece.ofTokens ts) = true)
    ⟨fun ⟨gaps, arguments⟩ => ⟨gaps, arguments⟩, fun ⟨gaps, arguments⟩ => ⟨gaps, arguments⟩⟩

/-- Compacting does not change what is read. -/
theorem IsCompactable.readingsAgree {ts : List Token} {c : Char} {after : List Char} (h : IsCompactable ts)
    (hstands : Lexer.Stands ts (c :: after)) (hspace : Lexer.isSpace c = false) (hquote : Lexer.isQuote c = false) :
    ReadingsAgree (Piece.ofTokens ts) (parseList (Token.source ts)) (parseList (Spacing.selector.compact ts)) := by
  obtain ⟨us, hus⟩ := exists_compacts (show IsGap [] by simp [IsGap]) (eq_plus_of_stands hstands) h.gaps
  rw [List.nil_append] at hus
  have hverbatim : tokenize (Token.source ts) = ts := by
    rw [tokenize, Lexer.toList_tokenSource]
    exact Lexer.tokens_of_stands hstands hspace hquote
  have hcompact : tokenize (Spacing.selector.compact ts) = us := by
    rw [tokenize, Spacing.compact, show (none : Option TokenKind) = Option.map Token.kind none from rfl,
      hus.toList_compactAfter]
    exact (hus.tokens_chars hstands hspace hquote).1
  have hrespaced := hus.respaced (List.suffix_refl (Piece.ofTokens ts))
    fun p rest hsuffix hp => closesArguments_of_suffix h.arguments hsuffix hp
  have hlist := hrespaced.skipSpace.listFrom
  have hreadable : ∀ {as bs : List Complex}, List.Forall₂ (Complex.Agrees (Piece.ofTokens ts)) as bs →
      as.all Complex.isReadable = bs.all Complex.isReadable :=
    fun hlist => all_eq_of_forall₂ (fun a b hab => hab.isReadable_eq) hlist
  rw [parseList, parseList, readList, readList, hverbatim, hcompact, Piece.ofTokens_of_forall hus.kind_ne,
    Piece.ofTokens, ← hreadable hlist]
  split
  · exact .found hlist
  · exact .failed _

end Selector

end CssMinify
