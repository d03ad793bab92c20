import CssMinify.Proofs.Selector.Reader

/-!
Where simple selectors are found. The reader only looks for a simple selector at the start of the text, behind another
simple selector, behind a combinator or behind a comma, so never between the two colons of a pseudo-element. Each step
hands on what follows such a place, and so does the whole reading.
-/

namespace CssMinify

namespace Selector

/-- The kinds of piece behind which a simple selector may start. -/
def isSeam : TokenKind → Bool
  | .ident | .hash | .delim _ | .closeBracket | .closeParen | .whitespace | .comma => true
  | _ => false

/-- What is left right behind a seam, if anything is left at all. -/
def Behind (pieces rest : List Piece) : Prop :=
  rest = [] ∨ ∃ front p, pieces = front ++ p :: rest ∧ isSeam p.kind = true

/-- What is left after some simple selectors, combinators and commas. -/
def Reaches (pieces rest : List Piece) : Prop := rest = pieces ∨ Behind pieces rest

section Reach

variable {pieces rest after : List Piece}

theorem Behind.of_suffix (hsuffix : rest <:+ pieces) (h : Behind rest after) : Behind pieces after := by
  rcases h with rfl | ⟨front, p, rfl, hp⟩
  · exact .inl rfl
  · obtain ⟨start, rfl⟩ := hsuffix
    exact .inr ⟨start ++ front, p, by simp, hp⟩

theorem Behind.suffix (h : Behind pieces rest) : rest <:+ pieces := by
  rcases h with rfl | ⟨front, p, rfl, -⟩
  · exact List.nil_suffix
  · exact ⟨front ++ [p], by simp⟩

theorem behind_cons {p : Piece} (hp : isSeam p.kind = true) : Behind (p :: rest) rest := .inr ⟨[], p, rfl, hp⟩

theorem Reaches.suffix (h : Reaches pieces rest) : rest <:+ pieces := by
  rcases h with rfl | h
  · exact List.suffix_refl rest
  · exact h.suffix

theorem Reaches.trans (h : Reaches pieces rest) (h' : Reaches rest after) : Reaches pieces after := by
  rcases h' with rfl | h'
  · exact h
  · exact .inr (h'.of_suffix h.suffix)

theorem Behind.reaches (h : Behind pieces rest) (h' : Reaches rest after) : Behind pieces after := by
  rcases h' with rfl | h'
  · exact h
  · exact h'.of_suffix h.suffix

end Reach

section Steps

theorem suffix_skipSpace (pieces : List Piece) : Piece.skipSpace pieces <:+ pieces := List.dropWhile_suffix _

/-- Skipping space goes nowhere, or behind a space. -/
theorem reaches_skipSpace (pieces : List Piece) : Reaches pieces (Piece.skipSpace pieces) := by
  induction pieces with
  | nil => exact .inl rfl
  | cons p pieces ih =>
      by_cases hspace : p.kind = .whitespace
      · rw [Piece.skipSpace_of_eq hspace]
        exact .inr ((behind_cons (by rw [hspace]; rfl)).reaches ih)
      · rw [Piece.skipSpace_of_ne hspace]
        exact .inl rfl

theorem behind_skipPastBracket (pieces : List Piece) : Behind pieces (skipPastBracket pieces) := by
  fun_induction skipPastBracket pieces with
  | case1 => exact .inl rfl
  | case2 p rest hclose =>
      have hkind : p.kind = .closeBracket := by simpa using hclose
      exact behind_cons (by rw [hkind]; rfl)
  | case3 p rest _ ih => exact ih.of_suffix (List.suffix_cons p rest)

/-- An argument goes on to its parenthesis, or to the end. -/
theorem spanArgument_spec {depth : Nat} (h : depth ≠ 0) (pieces : List Piece) :
    (spanArgument depth pieces).1 ++ (spanArgument depth pieces).2 = pieces
      ∧ ((spanArgument depth pieces).2 = []
        ∨ ∃ inside p, (spanArgument depth pieces).1 = inside ++ [p] ∧ p.kind = .closeParen) := by
  fun_induction spanArgument depth pieces with
  | case1 => exact ⟨rfl, .inl rfl⟩
  | case2 depth p rest depth' hzero =>
      have hkind : p.kind = .closeParen := by
        by_contra hne
        have hsame : depth' = depth + 1 ∨ depth' = depth := by
          simp only [depth', beq_iff_eq, hne, if_false]
          split
          · exact .inl rfl
          · exact .inr rfl
        have hnone : depth' = 0 := by simpa using hzero
        omega
      exact ⟨rfl, .inr ⟨[], p, rfl, hkind⟩⟩
  | case3 depth p rest depth' hzero inside after hspan ih =>
      obtain ⟨hsplit, hend⟩ := ih (by simpa using hzero)
      rw [hspan] at hsplit hend
      refine ⟨congrArg (p :: ·) hsplit, hend.imp id ?_⟩
      rintro ⟨inside, q, rfl, hq⟩
      exact ⟨p :: inside, q, rfl, hq⟩

theorem behind_spanArgument {depth : Nat} (h : depth ≠ 0) (pieces : List Piece) :
    Behind pieces (spanArgument depth pieces).2 := by
  obtain ⟨hsplit, hend⟩ := spanArgument_spec h pieces
  refine hend.imp id ?_
  rintro ⟨inside, p, hinside, hp⟩
  refine ⟨inside, p, hsplit.symm.trans ?_, by rw [hp]; rfl⟩
  rw [hinside, List.append_assoc, List.singleton_append]

theorem suffix_read? {pieces rest : List Piece} {test : Test} (h : Test.read? pieces = some (test, rest)) :
    rest <:+ pieces := by
  rw [Test.read?.eq_def] at h
  split at h
  · next p more =>
      split at h
      · obtain ⟨-, rfl⟩ := Prod.mk.inj (Option.some.inj h)
        exact List.suffix_cons p more
      · split at h
        · next q more =>
            split at h
            · obtain ⟨sign, -, hpair⟩ := Option.map_eq_some_iff.mp h
              obtain ⟨-, rfl⟩ := Prod.mk.inj hpair
              exact (List.suffix_cons q more).trans (List.suffix_cons p _)
            · cases h
        · cases h
      · cases h
  · cases h

theorem behind_readAttribute (pieces : List Piece) : Behind pieces (readAttribute pieces).2 := by
  have hspace := suffix_skipSpace pieces
  rw [readAttribute]
  split
  · exact .inl rfl
  · next p rest heq =>
      rw [heq] at hspace
      have hrest : Piece.skipSpace rest <:+ pieces :=
        (suffix_skipSpace rest).trans ((List.suffix_cons p rest).trans hspace)
      split
      · split
        · exact .inl rfl
        · next q after heq =>
            rw [heq] at hrest
            split
            · next hclose =>
                have hkind : q.kind = .closeBracket := by simpa using hclose
                exact (behind_cons (by rw [hkind]; rfl)).of_suffix hrest
            · split
              · next test after hread =>
                  have hafter : Piece.skipSpace after <:+ pieces :=
                    (suffix_skipSpace after).trans ((suffix_read? hread).trans hrest)
                  exact (behind_skipPastBracket _).of_suffix hafter
              · exact (behind_skipPastBracket _).of_suffix hrest
      · exact (behind_skipPastBracket _).of_suffix hspace

namespace SimpleStep

/-- The name of a pseudo selector leads behind it, or the reader stays. -/
theorem rest_readPseudo (doubleColon : Bool) (pieces : List Piece) :
    (∃ simple rest, readPseudo doubleColon pieces = found simple rest ∧ Behind pieces rest)
      ∨ readPseudo doubleColon pieces = stopped pieces := by
  cases pieces with
  | nil => exact .inr rfl
  | cons p pieces =>
      cases hkind : p.kind with
      | ident =>
          have hbehind : Behind (p :: pieces) pieces := behind_cons (by rw [hkind]; rfl)
          simp only [readPseudo, hkind]
          split
          · exact .inl ⟨_, _, rfl, hbehind⟩
          · exact .inl ⟨_, _, rfl, hbehind⟩
      | function =>
          have hbehind : Behind (p :: pieces) (spanArgument 1 pieces).2 :=
            (behind_spanArgument (by decide) pieces).of_suffix (List.suffix_cons p pieces)
          simp only [readPseudo, hkind]
          split
          · exact .inl ⟨_, _, rfl, hbehind⟩
          · exact .inl ⟨_, _, rfl, hbehind⟩
      | _ =>
          right
          simp only [readPseudo, hkind]

/-- What one step leaves: the next simple selector starts behind a seam, and a step that stops adds nothing. -/
def Leaves (pieces : List Piece) : SimpleStep → Prop
  | found _ rest | skipped rest => Behind pieces rest
  | stopped rest => rest <:+ pieces

theorem leaves_readPseudo (doubleColon : Bool) {pieces rest : List Piece} (h : rest <:+ pieces) :
    Leaves pieces (readPseudo doubleColon rest) := by
  rcases rest_readPseudo doubleColon rest with ⟨simple, after, heq, hbehind⟩ | heq
  · rw [heq]
    exact hbehind.of_suffix h
  · rw [heq]
    exact h

theorem leaves_read (started : Bool) (p : Piece) (pieces : List Piece) :
    Leaves (p :: pieces) (read started p pieces) := by
  have hstay : Leaves (p :: pieces) (stopped (p :: pieces)) := List.suffix_refl _
  cases hkind : p.kind with
  | ident =>
      simp only [read, hkind]
      split
      · exact hstay
      · exact behind_cons (by rw [hkind]; rfl)
  | hash =>
      simp only [read, hkind]
      exact behind_cons (by rw [hkind]; rfl)
  | delim c =>
      have hbehind : Behind (p :: pieces) pieces := behind_cons (by rw [hkind]; rfl)
      rw [read.eq_def, hkind]
      split
      · next heq => cases heq
      · next heq => cases heq
      · split
        · exact hstay
        · exact hbehind
      · split
        · next q after =>
            split
            · next hident =>
                have hq : q.kind = .ident := by simpa using hident
                exact (behind_cons (by rw [hq]; rfl)).of_suffix (List.suffix_cons p _)
            · exact hstay
        · exact hstay
      · next heq => cases heq
      · next heq => cases heq
      · exact hstay
  | openBracket =>
      have hbehind := (behind_readAttribute pieces).of_suffix (List.suffix_cons p pieces)
      simp only [read, hkind]
      split
      · next heq =>
          rw [heq] at hbehind
          exact hbehind
      · next heq =>
          rw [heq] at hbehind
          exact hbehind
  | colon =>
      simp only [read, hkind]
      split
      · next q after =>
          split
          · exact leaves_readPseudo true ((List.suffix_cons q after).trans (List.suffix_cons p _))
          · exact leaves_readPseudo false (List.suffix_cons p _)
      · exact leaves_readPseudo false (List.suffix_cons p [])
  | _ =>
      simp only [read, hkind]
      exact hstay

end SimpleStep

end Steps

/-- A simple selector that one step finds at a place that the reading of `pieces` reaches. -/
def FoundIn (pieces : List Piece) (simple : Simple) : Prop :=
  ∃ started p rest after, Reaches pieces (p :: rest) ∧ SimpleStep.read started p rest = .found simple after

theorem FoundIn.of_reaches {pieces rest : List Piece} {simple : Simple} (h : Reaches pieces rest)
    (hfound : FoundIn rest simple) : FoundIn pieces simple := by
  obtain ⟨started, p, more, after, hreach, hread⟩ := hfound
  exact ⟨started, p, more, after, h.trans hreach, hread⟩

/-- A compound is found piece by piece, and what is left is a part of what there was. -/
theorem foundIn_compoundFrom (started : Bool) (pieces : List Piece) :
    (∀ simple ∈ (compoundFrom started pieces).1, FoundIn pieces simple)
      ∧ (compoundFrom started pieces).2 <:+ pieces := by
  fun_induction compoundFrom started pieces with
  | case1 => simp
  | case2 started p pieces simple rest hread simples after heq ih =>
      rw [heq] at ih
      have hleaves := SimpleStep.leaves_read started p pieces
      rw [hread] at hleaves
      have hbehind : Behind (p :: pieces) rest := hleaves
      refine ⟨List.forall_mem_cons.mpr ⟨⟨started, p, pieces, rest, .inl rfl, hread⟩, fun s hs => ?_⟩, ?_⟩
      · exact (ih.1 s hs).of_reaches (.inr hbehind)
      · exact ih.2.trans hbehind.suffix
  | case3 started p pieces rest hread ih =>
      have hleaves := SimpleStep.leaves_read started p pieces
      rw [hread] at hleaves
      have hbehind : Behind (p :: pieces) rest := hleaves
      exact ⟨fun s hs => (ih.1 s hs).of_reaches (.inr hbehind), ih.2.trans hbehind.suffix⟩
  | case4 started p pieces rest hread =>
      have hleaves := SimpleStep.leaves_read started p pieces
      rw [hread] at hleaves
      exact ⟨by simp, hleaves⟩

/-- A compound that follows a combinator starts behind the combinator, or behind the space that is one. -/
theorem behind_readCombinator? {pieces start : List Piece} {combinator : Combinator}
    (h : readCombinator? ((Piece.skipSpace pieces).length < pieces.length) (Piece.skipSpace pieces)
      = some (combinator, start)) : Behind pieces start := by
  have hspace := reaches_skipSpace pieces
  cases hskip : Piece.skipSpace pieces with
  | nil =>
      rw [hskip] at h
      cases h
  | cons p rest =>
      rw [hskip] at h hspace
      have hsign : ∀ c, p.kind = .delim c → Behind pieces (Piece.skipSpace rest) := fun c hkind =>
        ((behind_cons (by rw [hkind]; rfl)).reaches (reaches_skipSpace rest)).of_suffix hspace.suffix
      rw [readCombinator?.eq_def] at h
      simp only at h
      split at h
      · next hkind =>
          obtain ⟨-, rfl⟩ := Prod.mk.inj (Option.some.inj h)
          exact hsign _ hkind
      · next hkind =>
          obtain ⟨-, rfl⟩ := Prod.mk.inj (Option.some.inj h)
          exact hsign _ hkind
      · next hkind =>
          obtain ⟨-, rfl⟩ := Prod.mk.inj (Option.some.inj h)
          exact hsign _ hkind
      · split at h
        · next hshorter =>
            obtain ⟨-, rfl⟩ := Prod.mk.inj (Option.some.inj h)
            rcases hspace with heq | hbehind
            · -- Nothing was skipped, so there was no space to stand for a combinator.
              rw [heq] at hshorter
              simp at hshorter
            · exact hbehind
        · cases h

/-- The compounds of the links start behind a seam each. -/
theorem foundIn_linksFrom (pieces : List Piece) :
    (∀ part ∈ (linksFrom pieces).1, ∀ simple ∈ part.compound, ∃ start, Behind pieces start ∧ FoundIn start simple)
      ∧ (linksFrom pieces).2 <:+ pieces := by
  fun_induction linksFrom pieces with
  | case1 pieces spaced hnone => exact ⟨by simp, suffix_skipSpace pieces⟩
  | case2 pieces spaced combinator start hsome unread hnil =>
      exact ⟨by simp, (behind_readCombinator? hsome).suffix⟩
  | case3 pieces spaced combinator start hsome simple simples rest hcompound links after hlinks ih =>
      have hbehind : Behind pieces start := behind_readCombinator? hsome
      obtain ⟨hfound, hrest⟩ := foundIn_compoundFrom false start
      rw [hcompound] at hfound hrest
      rw [hlinks] at ih
      have hsuffix : rest <:+ pieces := hrest.trans hbehind.suffix
      refine ⟨List.forall_mem_cons.mpr ⟨fun s hs => ⟨start, hbehind, hfound s hs⟩, fun part hpart s hs => ?_⟩,
        ih.2.trans hsuffix⟩
      obtain ⟨start, hstart, hfound⟩ := ih.1 part hpart s hs
      exact ⟨start, hstart.of_suffix hsuffix, hfound⟩

theorem foundIn_complexFrom (pieces : List Piece) :
    (∀ complex ∈ (complexFrom pieces).1, ∀ part ∈ complex.parts, ∀ simple ∈ part.compound, FoundIn pieces simple)
      ∧ (complexFrom pieces).2 <:+ pieces := by
  obtain ⟨hfound, hrest⟩ := foundIn_compoundFrom false pieces
  obtain ⟨hlinks, hafter⟩ := foundIn_linksFrom (compoundFrom false pieces).2
  rw [complexFrom_eq]
  split
  · exact ⟨by simp, hrest⟩
  · refine ⟨fun complex hcomplex part hpart simple hsimple => ?_, hafter.trans hrest⟩
    obtain rfl := Option.some.inj hcomplex
    rcases List.mem_cons.mp (List.mem_reverse.mp hpart) with rfl | hpart
    · exact hfound simple hsimple
    · obtain ⟨start, hstart, hfound⟩ := hlinks part hpart simple hsimple
      exact hfound.of_reaches (.inr (hstart.of_suffix hrest))

/-- Every simple selector of a list is found at a place that the reading reaches. -/
theorem foundIn_listFrom (pieces : List Piece) :
    ∀ complex ∈ (listFrom pieces).1, ∀ part ∈ complex.parts, ∀ simple ∈ part.compound, FoundIn pieces simple := by
  have hfirst : ∀ (pieces : List Piece), ∀ complex ∈ (complexFrom pieces).1.toList, ∀ part ∈ complex.parts,
      ∀ simple ∈ part.compound, FoundIn pieces simple :=
    fun pieces complex hcomplex => (foundIn_complexFrom pieces).1 complex (by simpa using hcomplex)
  fun_induction listFrom pieces with
  | case1 => simp
  | case2 first pieces => exact hfirst (first :: pieces)
  | case3 first pieces complex p rest hspace hcomma more unread hlist ih =>
      rw [hlist] at ih
      intro s hs part hpart simple hsimple
      rcases List.mem_append.mp hs with hs | hs
      · exact hfirst (first :: pieces) s hs part hpart simple hsimple
      · have hkind : p.kind = .comma := by simpa using hcomma
        have hsuffix : p :: rest <:+ first :: pieces := by
          rw [← hspace]
          exact (suffix_skipSpace _).trans (foundIn_complexFrom (first :: pieces)).2
        have hbehind : Behind (first :: pieces) (Piece.skipSpace rest) :=
          ((behind_cons (by rw [hkind]; rfl)).reaches (reaches_skipSpace rest)).of_suffix hsuffix
        exact (ih s hs part hpart simple hsimple).of_reaches (.inr hbehind)
  | case4 first pieces => exact hfirst (first :: pieces)

/-- All simple selectors that are read from a text, of whatever compound. -/
def simplesOf (selectors : List Complex) : List Simple := selectors.flatMap fun s => s.parts.flatMap Part.compound

theorem foundIn_readList {text : String} {simple : Simple} (h : simple ∈ simplesOf (readList text).1) :
    FoundIn (Piece.ofTokens (tokenize text)) simple := by
  obtain ⟨complex, hcomplex, hparts⟩ := List.mem_flatMap.mp h
  obtain ⟨part, hpart, hsimple⟩ := List.mem_flatMap.mp hparts
  exact (foundIn_listFrom _ complex hcomplex part hpart simple hsimple).of_reaches (reaches_skipSpace _)

section Pieces

variable {gap : String} {ts : List Token} {p : Piece} {front rest : List Piece}

/-- The first piece is the first token that is no comment. -/
theorem exists_tokens_of_cons (h : Piece.ofTokensAfter gap ts = p :: rest) :
    ∃ comments vs, ts = comments ++ p.token :: vs ∧ (∀ t ∈ comments, t.kind = .comment)
      ∧ p.gap = gap ++ Token.source comments ∧ Piece.ofTokens vs = rest := by
  induction ts generalizing gap with
  | nil => cases h
  | cons t ts ih =>
      rw [Piece.ofTokensAfter] at h
      split at h
      · next hcomment =>
          obtain ⟨comments, vs, rfl, hall, hgap, hrest⟩ := ih h
          refine ⟨t :: comments, vs, rfl, List.forall_mem_cons.mpr ⟨by simpa using hcomment, hall⟩, ?_, hrest⟩
          rw [hgap, String.append_assoc]
          rfl
      · obtain ⟨rfl, rfl⟩ := List.cons.inj h
        exact ⟨[], ts, rfl, by simp, by simp [Token.source, Text.concat], rfl⟩

/-- What follows a piece comes from the tokens behind its own. -/
theorem exists_tokens_of_append (h : Piece.ofTokensAfter gap ts = front ++ p :: rest) :
    ∃ us vs, ts = us ++ p.token :: vs ∧ Piece.ofTokens vs = rest := by
  induction front generalizing gap ts with
  | nil =>
      obtain ⟨comments, vs, hts, -, -, hrest⟩ := exists_tokens_of_cons h
      exact ⟨comments, vs, hts, hrest⟩
  | cons q front ih =>
      obtain ⟨comments, vs, rfl, -, -, hvs⟩ := exists_tokens_of_cons h
      obtain ⟨us, vs, rfl, hrest⟩ := ih hvs
      exact ⟨comments ++ q.token :: us, vs, by simp, hrest⟩

/-- A place that is reached starts with a token behind a comment or a seam. -/
theorem exists_tokens_of_reaches (h : Reaches (Piece.ofTokens ts) (p :: rest)) :
    ∃ us vs, ts = us ++ p.token :: vs ∧ Piece.ofTokens vs = rest
      ∧ ∀ t ∈ us.getLast?, t.kind = .comment ∨ isSeam t.kind = true := by
  have hlast : ∀ {us comments : List Token}, (∀ t ∈ comments, t.kind = .comment) →
      (∀ t ∈ us.getLast?, isSeam t.kind = true) →
        ∀ t ∈ (us ++ comments).getLast?, t.kind = .comment ∨ isSeam t.kind = true := by
    intro us comments hcomments hus t ht
    rw [List.getLast?_append] at ht
    cases hend : comments.getLast? with
    | none => exact .inr (hus t (by simpa [hend] using ht))
    | some c =>
        obtain rfl : c = t := by simpa [hend] using ht
        exact .inl (hcomments c (List.mem_of_getLast? hend))
  rcases h with heq | hnil | ⟨front, q, heq, hq⟩
  · obtain ⟨comments, vs, rfl, hcomments, -, hrest⟩ := exists_tokens_of_cons heq.symm
    refine ⟨comments, vs, rfl, hrest, ?_⟩
    rw [← List.nil_append comments]
    exact hlast hcomments (by simp)
  · cases hnil
  · obtain ⟨us, vs, rfl, hvs⟩ := exists_tokens_of_append heq
    obtain ⟨comments, vs, rfl, hcomments, -, hrest⟩ := exists_tokens_of_cons hvs
    refine ⟨us ++ [q.token] ++ comments, vs, by simp, hrest, hlast hcomments ?_⟩
    intro t ht
    obtain rfl : q.token = t := by simpa using ht
    exact hq

end Pieces

end Selector

end CssMinify
