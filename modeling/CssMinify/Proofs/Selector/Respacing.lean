import CssMinify.Proofs.Printing.Selectors
import CssMinify.Proofs.Selector.Compacting
import CssMinify.Proofs.Selector.Places

/-!
Reading a selector and its compact form side by side. The reader sets comments aside, so both sides are the same pieces
up to white space (`Respaced`): it is gone at the end, where it was dropped, and one space elsewhere. Each function of
the reader takes such a pair to such a pair and finds the same on both sides, the text of an argument apart, which is
kept as it stands.
-/

namespace CssMinify

namespace Selector

@[simp] theorem Piece.kind_bare (t : Token) : (Piece.bare t).kind = t.kind := rfl

/-- White space only. -/
def IsWhite (pieces : List Piece) : Prop := ∀ p ∈ pieces, p.kind = .whitespace

/-- The space that is kept of the white space before a piece. -/
def spaceBefore (last : Option TokenKind) (white : List Piece) (p : Piece) : List Piece :=
  if !white.isEmpty && last.any fun kind => isLoose kind p.kind then [Piece.bare Token.space] else []

/-- White space that separates no colon and no first sign of a test from what it is read with. -/
structure IsPlainWhite (last : Option TokenKind) (white : List Piece) (p : Piece) : Prop where
  colon : white ≠ [] → last = some .colon → Spacing.selector.tightBefore p.kind = true
  test : white ≠ [] → last.any isTestSign = true → p.kind ≠ .delim '='

/-- The argument of a function whose parenthesis `pieces` follow is closed, and is a part of `source`. -/
structure IsClosed (source pieces : List Piece) : Prop where
  suffix : pieces <:+ source
  closed : (spanArgument 1 pieces).1.getLast?.any (·.kind == .closeParen) = true

/-- Pieces of `source` behind one of kind `last`, as they stand and in the compact text. -/
inductive Respaced (source : List Piece) : Option TokenKind → List Piece → List Piece → Prop
  | done {last : Option TokenKind} {white : List Piece} (hwhite : IsWhite white) : Respaced source last white []
  | next {last : Option TokenKind} {white rest rest' : List Piece} {p : Piece} (hwhite : IsWhite white)
      (hp : p.token.isTrivia = false) (hplain : IsPlainWhite last white p)
      (hclosed : p.kind = .function → IsClosed source rest) (h : Respaced source (some p.kind) rest rest') :
      Respaced source last (white ++ p :: rest) (spaceBefore last white p ++ Piece.bare p.token :: rest')
  | glued {last : Option TokenKind} {white inner rest rest' : List Piece} {plus u : Piece} (hwhite : IsWhite white)
      (hplus : plus.token = Token.plus) (hinner : IsWhite inner) (hu : isNumeric u.kind = true)
      (h : Respaced source (some u.kind) rest rest') :
      Respaced source last (white ++ plus :: (inner ++ u :: rest))
        (Piece.bare ⟨u.kind, "+" ++ u.token.text⟩ :: rest')

section Pieces

/-- The pieces of a gap are its white space. -/
theorem ofTokensAfter_gap {gap : List Token} (hgap : IsGap gap) (before : String) :
    ∃ white before', IsWhite white ∧ (white ≠ [] ↔ hasWhite gap = true)
      ∧ ∀ ts, Piece.ofTokensAfter before (gap ++ ts) = white ++ Piece.ofTokensAfter before' ts := by
  induction gap generalizing before with
  | nil => exact ⟨[], before, by simp [IsWhite], by simp [hasWhite], fun ts => rfl⟩
  | cons g gap ih =>
      have hrest : IsGap gap := fun u hu => hgap u (List.mem_cons_of_mem g hu)
      by_cases hcomment : g.kind = .comment
      · obtain ⟨white, before', hwhite, hiff, hsplit⟩ := ih hrest (before ++ g.text)
        refine ⟨white, before', hwhite, by simpa [hasWhite, hcomment] using hiff, fun ts => ?_⟩
        rw [List.cons_append, Piece.ofTokensAfter, if_pos (by simpa using hcomment), hsplit]
      · have hkind : g.kind = .whitespace := by
          have htrivia := hgap g List.mem_cons_self
          rw [Token.isTrivia] at htrivia
          cases hg : g.kind <;> simp_all [TokenKind.isTrivia]
        obtain ⟨white, before', hwhite, -, hsplit⟩ := ih hrest ""
        refine ⟨⟨before, g⟩ :: white, before', ?_, by simp [hasWhite, hkind], fun ts => ?_⟩
        · intro p hp
          rcases List.mem_cons.mp hp with rfl | hp
          · exact hkind
          · exact hwhite p hp
        · rw [List.cons_append, Piece.ofTokensAfter, if_neg (by simpa using hcomment), hsplit, List.cons_append]

theorem ofTokensAfter_cons {t : Token} (ht : t.isTrivia = false) (before : String) (ts : List Token) :
    Piece.ofTokensAfter before (t :: ts) = ⟨before, t⟩ :: Piece.ofTokensAfter "" ts := by
  rw [Piece.ofTokensAfter, if_neg]
  intro hcomment
  rw [Token.isTrivia, beq_iff_eq.mp hcomment] at ht
  cases ht

theorem map_spaceIn {last : Option Token} {gap : List Token} {t : Token} {white : List Piece}
    (hplain : ∀ l ∈ last, IsPlainGap l gap t) (hwhite : white ≠ [] ↔ hasWhite gap = true) (before : String) :
    (spaceIn last gap t).map Piece.bare = spaceBefore (last.map Token.kind) white ⟨before, t⟩ := by
  cases last with
  | none => simp [spaceIn, spaceBefore]
  | some l =>
      have hsame : isLoose l.kind t.kind = true → (gap = [] ↔ white = []) := by
        intro hloose
        refine ⟨?_, fun hnone => ?_⟩
        · rintro rfl
          by_contra hne
          cases hwhite.mp hne
        · by_contra hne
          exact hwhite.mpr ((hplain l rfl).white hne hloose) hnone
      by_cases hloose : isLoose l.kind t.kind = true
      · by_cases hgap : gap = []
        · simp [spaceIn, spaceBefore, hgap, (hsame hloose).mp hgap]
        · simp [spaceIn, spaceBefore, Piece.kind, hloose, hgap, (hsame hloose).not.mp hgap]
      · simp [spaceIn, spaceBefore, Piece.kind, hloose]

/-- The pieces of a text and of its compact form. -/
theorem Compacts.respaced {source : List Piece} {last : Option Token} {ts us : List Token} (h : Compacts last ts us)
    {before : String} (hsource : Piece.ofTokensAfter before ts <:+ source)
    (hclosed : ∀ p rest, p :: rest <:+ source → p.kind = .function →
      (spanArgument 1 rest).1.getLast?.any (·.kind == .closeParen) = true) :
    Respaced source (last.map Token.kind) (Piece.ofTokensAfter before ts) (us.map Piece.bare) := by
  induction h generalizing before with
  | @done last gap hgap =>
      obtain ⟨white, before', hwhite, -, hsplit⟩ := ofTokensAfter_gap hgap before
      have hpieces : Piece.ofTokensAfter before gap = white := by
        rw [← List.append_nil gap, hsplit, Piece.ofTokensAfter, List.append_nil]
      rw [hpieces]
      exact .done hwhite
  | @next last gap rest us t hgap ht hplain hplus h ih =>
      obtain ⟨white, before', hwhite, hiff, hsplit⟩ := ofTokensAfter_gap hgap before
      rw [hsplit, ofTokensAfter_cons ht] at hsource ⊢
      have hsuffix := (List.suffix_append white _).trans hsource
      have hrest := (List.suffix_cons _ _).trans hsuffix
      rw [List.map_append, map_spaceIn hplain hiff before', List.map_cons]
      refine .next hwhite ht ⟨fun hne hcolon => ?_, fun hne htest => ?_⟩
        (fun hfunction => ⟨hrest, hclosed _ _ hsuffix hfunction⟩) (ih hrest)
      · obtain ⟨l, rfl, hl⟩ := Option.map_eq_some_iff.mp hcolon
        exact (hplain l rfl).colon (hiff.mp hne) hl
      · rw [Option.any_map] at htest
        cases last with
        | none => cases htest
        | some l => exact (hplain l rfl).test (hiff.mp hne) htest
  | @glued last gap inner rest us u hgap hplain hinner hu h ih =>
      obtain ⟨white, before', hwhite, -, hsplit⟩ := ofTokensAfter_gap hgap before
      obtain ⟨white', before'', hwhite', -, hsplit'⟩ := ofTokensAfter_gap hinner ""
      have htrivia := isTrivia_of_isNumeric (Bool.and_eq_true_iff.mp hu).1
      rw [hsplit, ofTokensAfter_cons rfl, hsplit', ofTokensAfter_cons htrivia] at hsource ⊢
      have hrest := (List.suffix_cons _ _).trans ((List.suffix_append white' _).trans
        ((List.suffix_cons _ _).trans ((List.suffix_append white _).trans hsource)))
      rw [List.map_cons]
      exact .glued hwhite rfl hwhite' (Bool.and_eq_true_iff.mp hu).1 (ih hrest)

end Pieces

section Glue

variable {white inner : List Piece} {plus u : Piece}

theorem kind_of_plus (hplus : plus.token = Token.plus) : plus.kind = .delim '+' := by
  rw [Piece.kind, hplus]
  rfl

/-- A plus sign and the number that it is glued to, with the white space around it. -/
theorem kind_of_mem_glued (hwhite : IsWhite white) (hplus : plus.token = Token.plus) (hinner : IsWhite inner)
    (hu : isNumeric u.kind = true) {p : Piece} (hp : p ∈ white ++ plus :: (inner ++ [u])) :
    p.kind = .whitespace ∨ p.kind = .delim '+' ∨ isNumeric p.kind = true := by
  simp only [List.mem_append, List.mem_cons, List.not_mem_nil, or_false] at hp
  rcases hp with hp | rfl | hp | rfl
  · exact .inl (hwhite p hp)
  · exact .inr (.inl (kind_of_plus hplus))
  · exact .inl (hinner p hp)
  · exact .inr (.inr hu)

end Glue

section Arguments

variable {source l r : List Piece} {last : Option TokenKind}

/-- How deep in parentheses the pieces after one of this kind are. -/
def argumentDepth (depth : Nat) (kind : TokenKind) : Nat :=
  if kind == .openParen || kind == .function then depth + 1 else if kind == .closeParen then depth - 1 else depth

theorem spanArgument_cons (depth : Nat) (p : Piece) (rest : List Piece) :
    spanArgument depth (p :: rest) = if argumentDepth depth p.kind = 0 then ([p], rest)
      else (p :: (spanArgument (argumentDepth depth p.kind) rest).1,
        (spanArgument (argumentDepth depth p.kind) rest).2) := by
  rw [spanArgument]
  simp only [argumentDepth, beq_iff_eq]

/-- Pieces that are no parentheses are inside of an argument. -/
theorem spanArgument_append {depth : Nat} (hdepth : depth ≠ 0) {x : List Piece}
    (hx : ∀ p ∈ x, argumentDepth depth p.kind = depth) (rest : List Piece) :
    spanArgument depth (x ++ rest) = (x ++ (spanArgument depth rest).1, (spanArgument depth rest).2) := by
  induction x with
  | nil => rfl
  | cons p x ih =>
      have hp := hx p List.mem_cons_self
      rw [List.cons_append, spanArgument_cons, hp, if_neg hdepth, ih fun q hq => hx q (List.mem_cons_of_mem p hq)]
      rfl

theorem spanArgument_eq_nil {depth : Nat} {pieces : List Piece} (h : (spanArgument depth pieces).1 = []) :
    pieces = [] := by
  cases pieces with
  | nil => rfl
  | cons p rest =>
      rw [spanArgument_cons] at h
      split at h <;> cases h

theorem IsWhite.argumentDepth {white : List Piece} (hwhite : IsWhite white) (depth : Nat) :
    ∀ p ∈ white, argumentDepth depth p.kind = depth := by
  intro p hp
  rw [hwhite p hp]
  rfl

theorem isWhite_spaceBefore (last : Option TokenKind) (white : List Piece) (p : Piece) :
    IsWhite (spaceBefore last white p) := by
  rw [spaceBefore]
  split
  · intro q hq
    rw [List.mem_singleton.mp hq]
    rfl
  · intro q hq
    cases hq

theorem argumentDepth_isNumeric {kind : TokenKind} (h : isNumeric kind = true) (depth : Nat) :
    argumentDepth depth kind = depth := by
  rcases isNumeric_iff.mp h with rfl | rfl | rfl <;> rfl

theorem IsWhite.isGap {white : List Piece} (hwhite : IsWhite white) : IsGap (white.map Piece.token) := by
  intro t ht
  obtain ⟨p, hp, rfl⟩ := List.mem_map.mp ht
  rw [Token.isTrivia, show p.token.kind = .whitespace from hwhite p hp]
  rfl

theorem compactAfter_white {white : List Piece} (hwhite : IsWhite white) :
    Spacing.selector.compactAfter last false (white.map Piece.token) = "" := by
  rw [← List.append_nil (white.map Piece.token), compactAfter_append _ _ hwhite.isGap, Spacing.compactAfter]

/-- One piece of a compact text and the space before it. -/
theorem compactAfter_next {white x : List Piece} {p : Piece} (hwhite : IsWhite white) (hp : p.token.isTrivia = false) :
    Spacing.selector.compactAfter last false ((white ++ p :: x).map Piece.token)
      = Token.source ((spaceBefore last white p).map Piece.token)
        ++ (p.token.text ++ Spacing.selector.compactAfter (some p.kind) false (x.map Piece.token)) := by
  have hspace : Token.source ((spaceBefore last white p).map Piece.token)
      = if (!white.isEmpty && last.any fun kind => isLoose kind p.kind) = true then " " else "" := by
    rw [spaceBefore]
    split <;> rfl
  rw [List.map_append, List.map_cons, compactAfter_append _ _ hwhite.isGap, Spacing.compactAfter, if_neg (by simp [hp]),
    hspace, Bool.false_or, List.isEmpty_map, String.append_assoc]
  rfl

theorem spaceBefore_of_tightBefore {white : List Piece} {p : Piece}
    (h : Spacing.selector.tightBefore p.kind = true) : spaceBefore last white p = [] := by
  have hnone : ∀ kind, isLoose kind p.kind = false := fun kind => by simp [isLoose, h]
  simp [spaceBefore, hnone]

theorem map_bare_spaceBefore (last : Option TokenKind) (white : List Piece) (p : Piece) :
    ((spaceBefore last white p).map Piece.token).map Piece.bare = spaceBefore last white p := by
  rw [spaceBefore]
  split <;> rfl

theorem Respaced.eq_nil (h : Respaced source last [] r) : r = [] := by
  generalize hl : ([] : List Piece) = l at h
  cases h with
  | done => exact hl
  | next => simp at hl
  | glued => simp at hl

/-- An argument that is closed is closed in the compact text, and what it holds there is its compact form. -/
theorem Respaced.spanArgument (h : Respaced source last l r) {depth : Nat} (hdepth : depth ≠ 0)
    (hclosed : (spanArgument depth l).1.getLast?.any (·.kind == .closeParen) = true) :
    ∃ x c vs, (Selector.spanArgument depth l).1 = x ++ [c] ∧ c.kind = .closeParen
      ∧ (Selector.spanArgument depth r).1 = vs.map Piece.bare ++ [Piece.bare c.token]
      ∧ Token.source vs = Spacing.selector.compactAfter last false (x.map Piece.token)
      ∧ Respaced source (some .closeParen) (Selector.spanArgument depth l).2 (Selector.spanArgument depth r).2 := by
  induction h generalizing depth with
  | @done last white hwhite =>
      have hspan := spanArgument_append hdepth (hwhite.argumentDepth depth) []
      rw [List.append_nil, Selector.spanArgument, List.append_nil] at hspan
      rw [hspan] at hclosed
      cases hlast : white.getLast? with
      | none => simp [hlast] at hclosed
      | some p =>
          rw [hlast, Option.any_some, hwhite p (List.mem_of_getLast? hlast)] at hclosed
          cases hclosed
  | @next last white rest rest' p hwhite hp hplain hfunction h ih =>
      rw [spanArgument_append hdepth (hwhite.argumentDepth depth)] at hclosed ⊢
      rw [spanArgument_append hdepth ((isWhite_spaceBefore last white p).argumentDepth depth)]
      have hkind : (Piece.bare p.token).kind = p.kind := rfl
      rw [spanArgument_cons] at hclosed ⊢
      rw [spanArgument_cons, hkind]
      have hlast : ∀ after after', p.kind = .closeParen → Respaced source (some p.kind) after after' →
          ∃ x c vs, white ++ [p] = x ++ [c] ∧ c.kind = .closeParen
            ∧ spaceBefore last white p ++ [Piece.bare p.token] = vs.map Piece.bare ++ [Piece.bare c.token]
            ∧ Token.source vs = Spacing.selector.compactAfter last false (x.map Piece.token)
            ∧ Respaced source (some .closeParen) after after' := by
        intro after after' hclose hafter
        rw [spaceBefore_of_tightBefore (by rw [hclose]; rfl)]
        exact ⟨white, p, [], rfl, hclose, rfl, (compactAfter_white hwhite).symm, hclose ▸ hafter⟩
      by_cases hzero : argumentDepth depth p.kind = 0
      · have hclose : p.kind = .closeParen := by
          by_contra hne
          simp only [argumentDepth, beq_iff_eq, hne, if_false] at hzero
          split at hzero <;> omega
        rw [if_pos hzero, if_pos hzero]
        exact hlast rest rest' hclose h
      · rw [if_neg hzero] at hclosed ⊢
        rw [if_neg hzero]
        by_cases hend : (Selector.spanArgument (argumentDepth depth p.kind) rest).1 = []
        · -- The text ends with this piece, which is then a parenthesis.
          obtain rfl := spanArgument_eq_nil hend
          obtain rfl := h.eq_nil
          have hclose : p.kind = .closeParen := by
            simpa [Selector.spanArgument] using hclosed
          exact hlast [] [] hclose h
        · rw [List.getLast?_append_of_ne_nil _ (by simp), List.getLast?_cons_of_ne_nil hend] at hclosed
          obtain ⟨x, c, vs, hx, hc, hvs, hsource, hafter⟩ := ih hzero hclosed
          refine ⟨white ++ p :: x, c, (spaceBefore last white p).map Piece.token ++ p.token :: vs, ?_, hc, ?_, ?_,
            hafter⟩
          · simp only [hx, List.append_assoc, List.cons_append]
          · simp only [hvs, List.map_append, map_bare_spaceBefore, List.map_cons, List.append_assoc, List.cons_append]
          · rw [compactAfter_next hwhite hp, ← hsource, Token.source_append]
            rfl
  | @glued last white inner rest rest' plus u hwhite hplus hinner hu h ih =>
      have hdepths : ∀ p ∈ white ++ plus :: (inner ++ [u]), argumentDepth depth p.kind = depth := by
        intro p hp
        rcases kind_of_mem_glued hwhite hplus hinner hu hp with hkind | hkind | hkind
        · rw [hkind]
          rfl
        · rw [hkind]
          rfl
        · exact argumentDepth_isNumeric hkind depth
      have hsplit : white ++ plus :: (inner ++ u :: rest) = (white ++ plus :: (inner ++ [u])) ++ rest := by simp
      rw [hsplit, spanArgument_append hdepth hdepths] at hclosed ⊢
      have hnumber := argumentDepth_isNumeric hu depth
      have hkind : (Piece.bare ⟨u.kind, "+" ++ u.token.text⟩).kind = u.kind := rfl
      rw [spanArgument_cons, hkind, hnumber, if_neg hdepth]
      have hmore : (Selector.spanArgument depth rest).1 ≠ [] := by
        intro hnil
        have hlast : (white ++ plus :: (inner ++ [u]) ++ []).getLast? = some u := by
          rw [List.append_nil, ← List.cons_append, ← List.append_assoc, List.getLast?_concat]
        rw [hnil, hlast, Option.any_some, beq_iff_eq] at hclosed
        rw [hclosed] at hu
        cases hu
      rw [List.getLast?_append_of_ne_nil _ hmore] at hclosed
      obtain ⟨x, c, vs, hx, hc, hvs, hsource, hafter⟩ := ih hdepth hclosed
      refine ⟨white ++ plus :: (inner ++ u :: x), c, ⟨u.kind, "+" ++ u.token.text⟩ :: vs, ?_, hc, ?_, ?_, hafter⟩
      · simp [hx]
      · simp [hvs]
      · have hnone : spaceBefore last white plus = [] :=
          spaceBefore_of_tightBefore (by rw [kind_of_plus hplus]; rfl)
        have hnone' : spaceBefore (some plus.kind) inner u = [] := by
          have htight : ∀ kind, isLoose (.delim '+') kind = false := fun kind => rfl
          simp [spaceBefore, kind_of_plus hplus, htight]
        rw [compactAfter_next hwhite (by rw [hplus]; rfl), compactAfter_next hinner (isTrivia_of_isNumeric hu), hnone,
          hnone', ← hsource, hplus]
        simp [Token.source, Text.concat, Token.plus, String.append_assoc]

end Arguments

end Selector

end CssMinify
