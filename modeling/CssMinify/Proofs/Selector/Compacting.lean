import CssMinify.Proofs.Token.Behind
import CssMinify.Selector.Parser

/-!
The tokens of a compacted selector. Compacting drops comments and leaves a space only where white space could count;
in between the tokens stay what they were. `IsPlainGap` says where: not where a comment alone would come to be a space,
not where the space that is dropped kept two tokens apart, and not where the space that is written would be taken by
the token before it. A plus sign that comes to stand before a number is read as its sign.
-/

namespace CssMinify

def Token.plus : Token := ⟨.delim '+', "+"⟩

namespace Lexer

section Tight

variable {kind : TokenKind} {text old new : List Char}

theorem Reads.exists_single (h : Reads kind text old) (hkind : isLoneKind kind = true) :
    ∃ c, text = [c] ∧ single c = kind := by
  cases h with
  | lone hsingle => exact ⟨_, rfl, hsingle⟩
  | _ => cases hkind

/-- Space is dropped before characters that go on with no token. -/
theorem isQuiet_of_tightBefore {c : Char} (h : Spacing.selector.tightBefore (single c) = true) : isQuiet c = true := by
  unfold single at h
  split at h
  all_goals first | rfl | cases h | skip
  simp only [Spacing.tightBefore, beq_self_eq_true, Bool.true_and] at h
  simp [isQuiet, h]

theorem tightBefore_isLoneKind {kind : TokenKind} (h : Spacing.selector.tightBefore kind = true) :
    isLoneKind kind = true := by
  cases kind <;> first | rfl | cases h

/-- Where no space is needed behind a token it is read before any text, a number behind a plus sign and an address
apart. -/
theorem Reads.of_tightAfter (h : Reads kind text old) (htight : Spacing.selector.tightAfter kind = true)
    (hplus : kind = .delim '+' → startsNumber ('+' :: new) = false)
    (hquote : kind = .function → (old.dropWhile isSpace).head?.any isQuote = true →
      (new.dropWhile isSpace).head?.any isQuote = true) : Reads kind text new := by
  cases h with
  | function hstart hend hurl =>
      exact .function ((isNameBefore_of_nameLength hend).startsIdent hstart _)
        (isNameBefore_paren hend new).nameLength_eq fun hname => hquote rfl (hurl hname)
  | @lone _ c _ hkind hlone =>
      have hc : c = '(' ∨ c = ',' ∨ c = ':' ∨ c = '[' ∨ c = '>' ∨ c = '~' ∨ c = '=' ∨ c = '+' := by
        subst hkind
        unfold single at htight
        split at htight
        all_goals first | simp; done | cases htight | skip
        simp only [Spacing.tightAfter, Spacing.isJoint, beq_self_eq_true, Bool.true_and, Bool.or_eq_true,
          beq_iff_eq] at htight
        rcases htight with ((h | h) | h) | h <;> simp [h]
      refine .lone hkind ?_
      rcases hc with rfl | rfl | rfl | rfl | rfl | rfl | rfl | rfl
      all_goals exact ⟨by simp, rfl, rfl, by simp, by first | rfl | exact hplus hkind.symm, by simp, rfl, rfl⟩
  | _ => cases htight

/-- A number takes the sign in front of it. -/
theorem Reads.signed (h : Reads kind text new) (hkind : kind = .number ∨ kind = .percentage ∨ kind = .dimension)
    (hsign : signLength text = 0) : Reads kind ('+' :: text) new := by
  have hhead : ∀ {num more : List Char}, startsNumber (num ++ more) = true →
      numberLength (num ++ more) = num.length → signLength num = 0 →
      startsNumber ('+' :: num ++ more) = true ∧ numberLength ('+' :: num ++ more) = ('+' :: num).length := by
    intro num more hstart hend hnum
    have hmore : signLength (num ++ more) = 0 := by
      cases num with
      | nil => exact absurd hend (numberLength_pos hstart).ne'
      | cons c num => exact hnum
    rw [List.cons_append, startsNumber_sign rfl, numberLength_sign rfl hmore, hend, List.length_cons, Nat.add_comm]
    exact ⟨⟨hmore, hstart⟩, rfl⟩
  have happend : ∀ {num more : List Char}, signLength (num ++ more) = 0 → num ≠ [] → signLength num = 0 := by
    intro num more hnum hne
    obtain ⟨c, num, rfl⟩ := List.exists_cons_of_ne_nil hne
    exact hnum
  cases h with
  | number hstart hend hunit hpercent =>
      obtain ⟨hstart', hend'⟩ := hhead hstart hend hsign
      exact .number hstart' hend' hunit hpercent
  | @percentage num _ hstart hend =>
      have hne : num ≠ [] := by
        rintro rfl
        exact absurd hend (numberLength_pos hstart).ne'
      obtain ⟨hstart', hend'⟩ := hhead hstart hend (happend hsign hne)
      exact Reads.percentage hstart' hend'
  | @dimension num unit _ hstart hend hunit hname =>
      have hne : num ≠ [] := by
        rintro rfl
        exact absurd hend (numberLength_pos hstart).ne'
      obtain ⟨hstart', hend'⟩ := hhead hstart hend (happend hsign hne)
      exact Reads.dimension hstart' hend' hunit hname
  | lone hsingle =>
      subst hsingle
      rcases hkind with hkind | hkind | hkind <;> exact absurd hkind (single_ne rfl)
  | _ => simp at hkind

/-- An exponent is made out of a token's own text, or out of a lone sign. -/
theorem Reads.startsExponent (hold : Reads kind text old) (h : startsExponent (text ++ new) = true) :
    kind = .delim '+' ∨ Spacing.selector.tightBefore kind = false ∧ startsExponent (text ++ old) = true := by
  match text with
  | [] => exact absurd rfl hold.ne_nil
  | [c] =>
      by_cases hc : c = '+'
      · subst hc
        exact .inl (hold.kind_eq (hold.isLone (by simp)))
      · rw [List.singleton_append, Lexer.startsExponent] at h
        · cases h
        · rintro rest heq
          exact hc (List.cons.inj heq).1
  | c :: d :: cs =>
      by_cases hc : c = '+'
      · subst hc
        refine .inr ⟨?_, h⟩
        rw [Bool.eq_false_iff]
        intro htight
        obtain ⟨e, heq, -⟩ := hold.exists_single (tightBefore_isLoneKind htight)
        cases heq
      · rw [List.cons_append, Lexer.startsExponent] at h
        · cases h
        · rintro rest heq
          exact hc (List.cons.inj heq).1

theorem kind_numeric (s : List Char) :
    (numeric s).1 = .number ∨ (numeric s).1 = .percentage ∨ (numeric s).1 = .dimension := by
  simp only [numeric]
  generalize s.drop (numberLength s) = rest
  by_cases hunit : startsIdent rest = true
  · simp [hunit]
  · by_cases hpercent : rest.head? = some '%' <;> simp [hunit, hpercent]

/-- Trivia are white space throughout or start with a slash. -/
theorem Reads.trivia (h : Reads kind text old) (hkind : kind.isTrivia = true) :
    kind = .whitespace ∧ (∀ c ∈ text, isSpace c = true) ∨ kind = .comment ∧ text.head? = some '/' := by
  cases h with
  | whitespace hne hall => exact .inl ⟨rfl, hall⟩
  | comment => exact .inr ⟨rfl, rfl⟩
  | @lone _ c _ hsingle =>
      have hlone := isLoneKind_single c
      rw [hsingle] at hlone
      cases kind <;> contradiction
  | _ => cases hkind

end Tight

end Lexer

namespace Selector

/-- White space and comments only. -/
def IsGap (gap : List Token) : Prop := ∀ t ∈ gap, t.isTrivia = true

/-- Is a space written between two tokens of these kinds, if there is a gap? -/
def isLoose (last next : TokenKind) : Bool := !Spacing.selector.tightAfter last && !Spacing.selector.tightBefore next

/-- The first sign of an attribute test that is written with two. -/
def isTestSign : TokenKind → Bool
  | .delim c => (Test.ofSign? c).isSome
  | _ => false

/-- A dimension whose unit ends in the letter of an exponent. -/
def endsInExponent (t : Token) : Bool :=
  t.kind == .dimension && (t.text.toList.getLast? == some 'e' || t.text.toList.getLast? == some 'E')

def hasWhite (gap : List Token) : Bool := gap.any (·.kind == .whitespace)

/-- A gap between two tokens that compacting changes without changing what is read on either side of it. -/
structure IsPlainGap (t : Token) (gap : List Token) (u : Token) : Prop where
  /-- A comment separates nothing, while the space that is written for it does. -/
  white : gap ≠ [] → isLoose t.kind u.kind = true → hasWhite gap = true
  /-- A colon is read with what stands directly behind it, and so is the first sign of a test. -/
  colon : hasWhite gap = true → t.kind = .colon → Spacing.selector.tightBefore u.kind = true
  test : hasWhite gap = true → isTestSign t.kind = true → u.kind ≠ .delim '='
  /-- A backslash, two hyphens, the letter of an exponent and an escape by number go on with what comes to stand
  behind them. -/
  slash : t.kind ≠ .delim '\\'
  close : gap ≠ [] → t.text = "--" → u.kind ≠ .delim '>'
  exponent : endsInExponent t = true → u.kind ≠ .delim '+'
  escape : isLoose t.kind u.kind = true → gap.head?.any (·.kind == .comment) = true →
    Lexer.endsInEscape t.text.toList = false

instance (t : Token) (gap : List Token) (u : Token) : Decidable (IsPlainGap t gap u) :=
  decidable_of_iff
    ((gap ≠ [] → isLoose t.kind u.kind = true → hasWhite gap = true)
      ∧ (hasWhite gap = true → t.kind = .colon → Spacing.selector.tightBefore u.kind = true)
      ∧ (hasWhite gap = true → isTestSign t.kind = true → u.kind ≠ .delim '=')
      ∧ t.kind ≠ .delim '\\' ∧ (gap ≠ [] → t.text = "--" → u.kind ≠ .delim '>')
      ∧ (endsInExponent t = true → u.kind ≠ .delim '+')
      ∧ (isLoose t.kind u.kind = true → gap.head?.any (·.kind == .comment) = true →
        Lexer.endsInEscape t.text.toList = false))
    ⟨fun ⟨white, colon, test, slash, close, exponent, escape⟩ => ⟨white, colon, test, slash, close, exponent, escape⟩,
      fun ⟨white, colon, test, slash, close, exponent, escape⟩ => ⟨white, colon, test, slash, close, exponent, escape⟩⟩

/-- The gaps of a text are plain, the first of which is the rest of one that starts with `gap` behind `last`. -/
def HasPlainGaps (last : Option Token) (gap : List Token) : List Token → Prop
  | [] => True
  | t :: rest =>
    if t.isTrivia then HasPlainGaps last (gap ++ [t]) rest
    else (∀ l ∈ last, IsPlainGap l gap t) ∧ HasPlainGaps (some t) [] rest

instance HasPlainGaps.decidable : (last : Option Token) → (gap ts : List Token) → Decidable (HasPlainGaps last gap ts)
  | _, _, [] => .isTrue trivial
  | last, gap, t :: rest =>
    have := decidable last (gap ++ [t]) rest
    have := decidable (some t) [] rest
    inferInstanceAs (Decidable (if t.isTrivia = true then HasPlainGaps last (gap ++ [t]) rest
      else (∀ l ∈ last, IsPlainGap l gap t) ∧ HasPlainGaps (some t) [] rest))

/-- The kinds of tokens that a number is read as. -/
def isNumeric (kind : TokenKind) : Bool := kind == .number || kind == .percentage || kind == .dimension

theorem isNumeric_iff {kind : TokenKind} :
    isNumeric kind = true ↔ kind = .number ∨ kind = .percentage ∨ kind = .dimension := by
  simp [isNumeric, or_assoc]

theorem isTrivia_of_isNumeric {kind : TokenKind} (h : isNumeric kind = true) : kind.isTrivia = false := by
  rcases isNumeric_iff.mp h with rfl | rfl | rfl <;> rfl

/-- A number that a sign before it would belong to. -/
def isUnsigned (t : Token) : Bool := isNumeric t.kind && Lexer.signLength t.text.toList == 0

/-- The space that is written in a gap between two tokens. -/
def spaceIn (last : Option Token) (gap : List Token) (t : Token) : List Token :=
  if !gap.isEmpty && last.any fun l => isLoose l.kind t.kind then [Token.space] else []

/-- The tokens after `last`, as they stand and in the compact text. -/
inductive Compacts : Option Token → List Token → List Token → Prop
  | done {last : Option Token} {gap : List Token} (hgap : IsGap gap) : Compacts last gap []
  | next {last : Option Token} {gap rest us : List Token} {t : Token} (hgap : IsGap gap) (ht : t.isTrivia = false)
      (hplain : ∀ l ∈ last, IsPlainGap l gap t)
      (hplus : t.kind = .delim '+' → us.head?.any isUnsigned = false) (h : Compacts (some t) rest us) :
      Compacts last (gap ++ t :: rest) (spaceIn last gap t ++ t :: us)
  | glued {last : Option Token} {gap inner rest us : List Token} {u : Token} (hgap : IsGap gap)
      (hplain : ∀ l ∈ last, IsPlainGap l gap Token.plus) (hinner : IsGap inner) (hu : isUnsigned u = true)
      (h : Compacts (some u) rest us) :
      Compacts last (gap ++ Token.plus :: (inner ++ u :: rest)) (⟨u.kind, "+" ++ u.text⟩ :: us)

theorem not_isUnsigned_glued (u : Token) : isUnsigned ⟨u.kind, "+" ++ u.text⟩ = false := by
  simp [isUnsigned, Lexer.signLength]

/-- A text with plain gaps has a compact form. -/
theorem exists_compacts {last : Option Token} {gap ts : List Token} (hgap : IsGap gap)
    (hts : ∀ t ∈ ts, t.kind = .delim '+' → t = Token.plus) (h : HasPlainGaps last gap ts) :
    ∃ us, Compacts last (gap ++ ts) us := by
  induction ts generalizing last gap with
  | nil => exact ⟨[], by rw [List.append_nil]; exact .done hgap⟩
  | cons t rest ih =>
      have hrest : ∀ u ∈ rest, u.kind = .delim '+' → u = Token.plus := fun u hu => hts u (List.mem_cons_of_mem t hu)
      rw [HasPlainGaps] at h
      split at h
      · next ht =>
          have hmore : IsGap (gap ++ [t]) := by
            intro u hu
            rcases List.mem_append.mp hu with hu | hu
            · exact hgap u hu
            · rw [List.mem_singleton.mp hu]
              exact ht
          obtain ⟨us, hus⟩ := ih hmore hrest h
          exact ⟨us, by simpa using hus⟩
      · next ht =>
          obtain ⟨hplain, h⟩ := h
          have htrivia : t.isTrivia = false := Bool.eq_false_iff.mpr ht
          obtain ⟨us, hus⟩ := ih (show IsGap [] by intro u hu; cases hu) hrest h
          rw [List.nil_append] at hus
          by_cases hplus : t.kind = .delim '+' ∧ us.head?.any isUnsigned = true
          · -- A number without a sign comes next, so the sign is glued to it.
            obtain ⟨hkind, hhead⟩ := hplus
            obtain rfl := hts t List.mem_cons_self hkind
            cases hus with
            | done => cases hhead
            | @next _ inner rest us u hinner hu hplain' hplus' h' =>
                have htight : spaceIn (some Token.plus) inner u = [] := by
                  simp [spaceIn, isLoose, Spacing.tightAfter, Spacing.isJoint, Token.plus]
                rw [htight] at hhead
                exact ⟨_, .glued hgap hplain hinner hhead h'⟩
            | @glued _ inner inner' rest us u hinner hplain' hinner' hu h' =>
                rw [List.head?_cons, Option.any_some, not_isUnsigned_glued] at hhead
                cases hhead
          · rw [not_and, Bool.not_eq_true] at hplus
            exact ⟨_, .next hgap htrivia hplain hplus hus⟩

section Text

variable {last : Option Token} {gap ts us : List Token}

theorem compactAfter_append (place : Spacing) (kind : Option TokenKind) (hgap : IsGap gap) (spaced : Bool) :
    place.compactAfter kind spaced (gap ++ ts) = place.compactAfter kind (spaced || !gap.isEmpty) ts := by
  induction gap generalizing spaced with
  | nil => simp
  | cons t gap ih =>
      rw [List.cons_append, Spacing.compactAfter, if_pos (hgap t List.mem_cons_self),
        ih fun u hu => hgap u (List.mem_cons_of_mem t hu)]
      simp

/-- The compact tokens make up the compact text. -/
theorem Compacts.toList_compactAfter (h : Compacts last ts us) :
    (Spacing.selector.compactAfter (last.map Token.kind) false ts).toList = Lexer.chars us := by
  have hchars : ∀ (u : Token) (vs : List Token), Lexer.chars (u :: vs) = u.text.toList ++ Lexer.chars vs :=
    fun u vs => List.flatMap_cons
  induction h with
  | @done last gap hgap =>
      rw [← List.append_nil gap, compactAfter_append _ _ hgap, Spacing.compactAfter]
      rfl
  | @next last gap rest us t hgap ht hplain hplus h ih =>
      have hspace : (if !gap.isEmpty && (last.map Token.kind).any fun kind =>
          !Spacing.selector.tightAfter kind && !Spacing.selector.tightBefore t.kind then " " else "").toList
            = Lexer.chars (spaceIn last gap t) := by
        rw [spaceIn, Option.any_map]
        change (if (!gap.isEmpty && last.any fun l => isLoose l.kind t.kind) = true then " " else "").toList = _
        cases (!gap.isEmpty && last.any fun l => isLoose l.kind t.kind) <;> rfl
      rw [compactAfter_append _ _ hgap, Bool.false_or, Spacing.compactAfter, if_neg (by simp [ht])]
      simp only [String.toList_append, hspace]
      rw [Lexer.chars_append, hchars, ← ih, List.append_assoc]
      rfl
  | @glued last gap inner rest us u hgap hplain hinner hu h ih =>
      have hplus : Token.plus.isTrivia = false := rfl
      have htrivia : u.isTrivia = false := isTrivia_of_isNumeric (Bool.and_eq_true_iff.mp hu).1
      have hbefore : Spacing.selector.tightBefore Token.plus.kind = true := rfl
      have hafter : Spacing.selector.tightAfter Token.plus.kind = true := rfl
      rw [compactAfter_append _ _ hgap, Spacing.compactAfter, if_neg (by simp [hplus]), compactAfter_append _ _ hinner,
        Spacing.compactAfter, if_neg (by simp [htrivia])]
      simp only [hbefore, hafter, Bool.not_true, Bool.and_false, Option.any_some, Bool.false_and]
      rw [hchars, ← ih]
      simp [Token.plus]

end Text

section Lexing

open Lexer

variable {l t : Token} {gap : List Token} {x y : List Char}

/-- White space at the start of a gap is a space behind the token before it. -/
theorem head?_gap {g : Token} (hgap : IsGap (g :: gap)) (hstands : Stands (g :: gap) x) :
    (chars (g :: gap) ++ x).head?.any isSpace = true ∨ g.kind = .comment := by
  obtain ⟨hreads, -⟩ := reads_of_stands hstands
  obtain ⟨c, cs, hcs⟩ := List.exists_cons_of_ne_nil hreads.ne_nil
  rcases hreads.trivia (hgap g List.mem_cons_self) with ⟨-, hspace⟩ | ⟨hkind, -⟩
  · left
    rw [chars, List.flatMap_cons, hcs]
    exact hspace c (by simp [hcs])
  · exact .inr hkind

/-- A string behind a gap stands behind white space only. -/
theorem isQuote_gap (hgap : IsGap gap) (hstands : Stands gap x)
    (h : ((chars gap ++ x).dropWhile isSpace).head?.any isQuote = true) :
    (x.dropWhile isSpace).head?.any isQuote = true := by
  induction gap with
  | nil => exact h
  | cons g gap ih =>
      obtain ⟨hreads, hrest⟩ := reads_of_stands hstands
      have htext : chars (g :: gap) ++ x = g.text.toList ++ (chars gap ++ x) := by
        rw [chars, List.flatMap_cons, List.append_assoc]
        rfl
      rw [htext] at h
      rcases hreads.trivia (hgap g List.mem_cons_self) with ⟨-, hspace⟩ | ⟨-, hslash⟩
      · rw [List.dropWhile_append_of_pos hspace] at h
        exact ih (fun u hu => hgap u (List.mem_cons_of_mem g hu)) hrest h
      · obtain ⟨cs, hcs⟩ := exists_cons_of_head? hslash
        rw [hcs] at h
        cases h

theorem spaceIn_eq (hloose : Spacing.selector.tightAfter l.kind = false) (gap : List Token) (t : Token) :
    spaceIn (some l) gap t = [Token.space] ∧ gap ≠ [] ∧ isLoose l.kind t.kind = true
      ∨ spaceIn (some l) gap t = [] ∧ (gap = [] ∨ Spacing.selector.tightBefore t.kind = true) := by
  rw [spaceIn, Option.any_some]
  split
  · next hspaced =>
      rw [Bool.and_eq_true] at hspaced
      exact .inl ⟨rfl, by simpa using hspaced.1, hspaced.2⟩
  · next hspaced =>
      refine .inr ⟨rfl, ?_⟩
      simpa [isLoose, hloose, or_iff_not_imp_left] using hspaced

theorem spaceIn_of_tightAfter (htight : Spacing.selector.tightAfter l.kind = true) : spaceIn (some l) gap t = [] := by
  simp [spaceIn, isLoose, htight]

/-- What compacting puts behind a token in place of a gap and the text `x`: the text `y`, which starts like it and may
have a space before it. -/
structure Crosses (l : Token) (gap : List Token) (t : Token) (x y : List Char) : Prop where
  isGap : IsGap gap
  stands : Stands gap x
  plain : IsPlainGap l gap t
  head : y.head? = x.head?
  ne_nil : x ≠ []
  space : x.head?.any isSpace = false
  quiet : Spacing.selector.tightBefore t.kind = true → x.head?.all isQuiet = true
  calm : gap = [] → Spacing.selector.tightAfter l.kind = false → Calmer x y
  close : x.head? = some '>' → t.kind = .delim '>'
  exponent : startsExponent y = true →
    t.kind = .delim '+' ∨ Spacing.selector.tightBefore t.kind = false ∧ startsExponent x = true
  plus : l.kind = .delim '+' → startsNumber ('+' :: y) = false

namespace Crosses

theorem calmer (h : Crosses l gap t x y) (hloose : Spacing.selector.tightAfter l.kind = false) :
    Calmer (chars gap ++ x) (chars (spaceIn (some l) gap t) ++ y) := by
  rcases spaceIn_eq hloose gap t with ⟨hsome, -⟩ | ⟨hnone, hgap | htight⟩
  · rw [hsome]
    exact calmer_of_isQuiet rfl
  · rw [hnone, hgap]
    exact h.calm hgap hloose
  · rw [hnone]
    refine calmer_of_isQuiet ?_
    rw [chars, List.flatMap_nil, List.nil_append, h.head]
    exact h.quiet htight

/-- Behind a token that space may count behind, the new text suits it. -/
theorem suits (h : Crosses l gap t x y) (hl : l.isTrivia = false)
    (hreads : Reads l.kind l.text.toList (chars gap ++ x)) (hloose : Spacing.selector.tightAfter l.kind = false) :
    Suits l.kind l.text.toList (chars gap ++ x) (chars (spaceIn (some l) gap t) ++ y) := by
  have hspaceIn := spaceIn_eq hloose gap t
  constructor
  case calm => exact h.calmer hloose
  case space =>
    intro hnew
    refine ⟨?_, ?_⟩
    · intro hkind
      rw [Token.isTrivia, hkind] at hl
      cases hl
    rcases hspaceIn with ⟨-, hne, hspaced⟩ | ⟨hnone, -⟩
    · obtain ⟨g, gap, rfl⟩ := List.exists_cons_of_ne_nil hne
      refine (head?_gap h.isGap h.stands).imp_right fun hcomment => h.plain.escape hspaced ?_
      simp [hcomment]
    · rw [hnone, chars, List.flatMap_nil, List.nil_append, h.head, h.space] at hnew
      cases hnew
  case slash =>
    intro htext
    rw [htext] at hreads
    exact absurd (hreads.kind_eq (hreads.isLone (by simp))) h.plain.slash
  case close =>
    intro htext hnew
    rcases hspaceIn with ⟨hsome, -⟩ | ⟨hnone, -⟩
    · rw [hsome] at hnew
      cases hnew
    · rw [hnone, chars, List.flatMap_nil, List.nil_append, h.head] at hnew
      have hempty : gap = [] := by
        by_contra hne
        exact h.plain.close hne (String.toList_inj.mp htext) (h.close hnew)
      rw [hempty]
      exact hnew
  case exponent =>
    intro hkind hletter hnew
    rcases hspaceIn with ⟨hsome, -⟩ | ⟨hnone, htight⟩
    · rw [hsome] at hnew
      cases hnew
    · rw [hnone, chars, List.flatMap_nil, List.nil_append] at hnew
      rcases h.exponent hnew with hplus | ⟨hnot, hx⟩
      · exact absurd hplus (h.plain.exponent (by simpa [endsInExponent, hkind] using hletter))
      · rcases htight with rfl | htight
        · exact hx
        · rw [hnot] at htight
          cases htight
  case quote =>
    intro hkind
    rw [hkind] at hloose
    cases hloose

/-- The token before a plain gap is read as before. -/
theorem reads (h : Crosses l gap t x y) (hl : l.isTrivia = false)
    (hreads : Reads l.kind l.text.toList (chars gap ++ x)) :
    Reads l.kind l.text.toList (chars (spaceIn (some l) gap t) ++ y) := by
  by_cases htight : Spacing.selector.tightAfter l.kind = true
  · rw [spaceIn_of_tightAfter htight, chars, List.flatMap_nil, List.nil_append]
    refine hreads.of_tightAfter htight h.plus fun _ hquote => ?_
    have hx := isQuote_gap h.isGap h.stands hquote
    have hhead := h.head
    have hspace := h.space
    obtain ⟨c, x, rfl⟩ := List.exists_cons_of_ne_nil h.ne_nil
    obtain ⟨y, rfl⟩ := exists_cons_of_head? hhead
    have hc : isSpace c = false := hspace
    rw [List.dropWhile_cons_of_neg (by simp [hc])] at hx ⊢
    exact hx
  · exact hreads.replace (by simp [h.ne_nil]) (h.suits hl hreads (Bool.eq_false_iff.mpr htight))

end Crosses

theorem chars_cons (t : Token) (ts : List Token) : chars (t :: ts) = t.text.toList ++ chars ts := List.flatMap_cons

/-- A part of some tokens stands before the others. -/
theorem stands_append {ts us : List Token} {rest : List Char} (h : Stands (ts ++ us) rest) :
    Stands ts (chars us ++ rest) ∧ Stands us rest := by
  induction ts with
  | nil => exact ⟨Stands.nil, h⟩
  | cons t ts ih =>
      rw [List.cons_append] at h
      obtain ⟨hreads, hrest⟩ := reads_of_stands h
      obtain ⟨hts, hus⟩ := ih hrest
      rw [chars_append, List.append_assoc] at hreads
      exact ⟨Stands.cons hreads.stands hts, hus⟩

/-- A plus sign takes nothing but a number without a sign. -/
theorem startsNumber_plus {us : List Token} (htokens : tokens (chars us) = us)
    (h : us.head?.any isUnsigned = false) : startsNumber ('+' :: chars us) = false := by
  rw [Bool.eq_false_iff]
  intro hstart
  obtain ⟨hsign, hnumber⟩ := (startsNumber_sign rfl).mp hstart
  cases us with
  | nil => cases hnumber
  | cons u us =>
      obtain ⟨rest, hsplit, -, hreads⟩ := reads_of_tokens htokens
      obtain ⟨c, cs, hcs⟩ := List.exists_cons_of_ne_nil hreads.ne_nil
      rw [hsplit, hcs, List.cons_append] at hsign hnumber
      have hextent := hreads.extent_eq hcs
      rw [extent_of_startsNumber hnumber] at hextent
      have hkind : (numeric (c :: (cs ++ rest))).1 = u.kind := congrArg Prod.fst hextent
      have hunsigned : isUnsigned u = true := by
        rw [isUnsigned, hcs, Bool.and_eq_true, beq_iff_eq, isNumeric_iff, ← hkind]
        exact ⟨kind_numeric _, hsign⟩
      rw [List.head?_cons, Option.any_some, hunsigned] at h
      cases h

/-- At the end nothing follows the last token, and it is read as before. -/
theorem reads_end {c : Char} {after : List Char}
    (hreads : Reads l.kind l.text.toList (chars gap ++ c :: after)) (hgap : IsGap gap)
    (hstands : Stands gap (c :: after)) (hspace : isSpace c = false) (hquote : isQuote c = false) :
    Reads l.kind l.text.toList [] := by
  have hnone : ((chars gap ++ c :: after).dropWhile isSpace).head?.any isQuote = false := by
    rw [Bool.eq_false_iff]
    intro hsome
    have hc := isQuote_gap hgap hstands hsome
    rw [List.dropWhile_cons_of_neg (by simp [hspace]), List.head?_cons, Option.any_some, hquote] at hc
    cases hc
  refine hreads.replace (by simp) ?_
  constructor
  case calm => exact calmer_of_isQuiet rfl
  case space => exact fun hnew => by cases hnew
  case slash => exact fun _ _ => rfl
  case close => exact fun _ hnew => by cases hnew
  case exponent => exact fun _ _ hnew => by cases hnew
  case quote =>
    intro _ hold
    rw [hnone] at hold
    cases hold

/-- A gap before a token that stays. -/
theorem crosses_token {rest us : List Token} {after : List Char} (hgap : IsGap gap) (ht : t.isTrivia = false)
    (hplain : IsPlainGap l gap t) (hstands : Stands (gap ++ t :: rest) after)
    (hnew : Reads t.kind t.text.toList (chars us))
    (hcalm : Spacing.selector.tightAfter t.kind = false → Calmer (chars rest ++ after) (chars us))
    (hplus : l.kind = .delim '+' → startsNumber ('+' :: chars (t :: us)) = false) :
    Crosses l gap t (chars (t :: rest) ++ after) (chars (t :: us)) := by
  obtain ⟨hgapstands, htstands⟩ := stands_append hstands
  obtain ⟨hreads, hrest⟩ := reads_of_stands htstands
  obtain ⟨d, ds, htext⟩ := List.exists_cons_of_ne_nil hreads.ne_nil
  have hx : chars (t :: rest) ++ after = t.text.toList ++ (chars rest ++ after) := by
    rw [chars_cons, List.append_assoc]
  have hhead : (t.text.toList ++ (chars rest ++ after)).head? = some d := by rw [htext]; rfl
  rw [hx, chars_cons]
  constructor
  case isGap => exact hgap
  case stands => rwa [← hx]
  case plain => exact hplain
  case head => rw [htext]; rfl
  case ne_nil => simp [htext]
  case space => exact hreads.head?_isSpace ht _
  case quiet =>
    intro htight
    obtain ⟨e, he, hsingle⟩ := hreads.exists_single (tightBefore_isLoneKind htight)
    obtain rfl : d = e := (List.cons.inj (htext.symm.trans he)).1
    rw [hhead]
    exact isQuiet_of_tightBefore (by rwa [hsingle])
  case calm =>
    intro _ _
    refine hreads.calmer hnew fun hmark hdashes => (hcalm ?_).dashes hdashes
    rw [hmark] at hreads
    rw [(hreads.eq_single (.inl rfl)).2]
    rfl
  case close =>
    intro hclose
    rw [hhead] at hclose
    cases hclose
    rw [htext] at hreads
    exact (hreads.eq_single (.inr rfl)).2
  case exponent => exact hreads.startsExponent
  case plus => rwa [← chars_cons]

/-- A gap before a plus sign that is glued to a number. -/
theorem crosses_glued {x y : List Char} (hgap : IsGap gap) (hplain : IsPlainGap l gap Token.plus)
    (hstands : Stands gap ('+' :: x)) : Crosses l gap Token.plus ('+' :: x) ('+' :: y) where
  isGap := hgap
  stands := hstands
  plain := hplain
  head := rfl
  ne_nil := by simp
  space := rfl
  quiet _ := rfl
  calm _ _ := calmer_of_isQuiet rfl
  close hclose := by cases hclose
  exponent _ := .inl rfl
  plus _ := rfl

/-- The compact text is read as the compact tokens, and the token before it as it was. -/
theorem Compacts.tokens_chars {last : Option Token} {ts us : List Token} {c : Char} {after : List Char}
    (h : Compacts last ts us) (hstands : Stands ts (c :: after)) (hspace : isSpace c = false)
    (hquote : isQuote c = false) :
    tokens (chars us) = us ∧ ∀ l ∈ last, l.isTrivia = false →
      Reads l.kind l.text.toList (chars ts ++ c :: after) →
      (l.kind = .delim '+' → us.head?.any isUnsigned = false) →
      Reads l.kind l.text.toList (chars us)
        ∧ (Spacing.selector.tightAfter l.kind = false → Calmer (chars ts ++ c :: after) (chars us)) := by
  induction h with
  | @done last gap hgap =>
      refine ⟨by rw [chars, List.flatMap_nil, tokens], fun l _ hl hreads _ => ?_⟩
      exact ⟨reads_end hreads hgap hstands hspace hquote, fun _ => calmer_of_isQuiet rfl⟩
  | @next last gap rest us t hgap ht hplain hplus h ih =>
      obtain ⟨htreads, hrest⟩ := reads_of_stands (stands_append hstands).2
      obtain ⟨htokens, hnext⟩ := ih hrest
      obtain ⟨hnew, hcalm⟩ := hnext t rfl ht htreads hplus
      have hagain : tokens (chars (t :: us)) = t :: us := by
        rw [← List.singleton_append, chars_append, hnew.stands, htokens]
      constructor
      · rw [chars_append, spaceIn]
        split
        · rw [stands_space (by rw [chars_cons]; exact htreads.head?_isSpace ht _), hagain]
        · exact hagain
      · rintro l rfl hl hreads hlplus
        have hcross : Crosses l gap t (chars (t :: rest) ++ c :: after) (chars (t :: us)) := by
          refine crosses_token hgap ht (hplain l rfl) hstands hnew hcalm fun hkind => ?_
          have hnospace := hlplus hkind
          rw [spaceIn_of_tightAfter (by rw [hkind]; rfl)] at hnospace
          exact startsNumber_plus hagain hnospace
        rw [chars_append, List.append_assoc] at hreads
        rw [chars_append, chars_append, List.append_assoc]
        exact ⟨hcross.reads hl hreads, hcross.calmer⟩
  | @glued last gap inner rest us u hgap hplain hinner hu h ih =>
      obtain ⟨hgapstands, hplusstands⟩ := stands_append hstands
      obtain ⟨-, hinnerstands⟩ := reads_of_stands hplusstands
      obtain ⟨hureads, hrest⟩ := reads_of_stands (stands_append hinnerstands).2
      obtain ⟨htokens, hnext⟩ := ih hrest
      have hkind := isNumeric_iff.mp (Bool.and_eq_true_iff.mp hu).1
      obtain ⟨hnew, -⟩ := hnext u rfl (isTrivia_of_isNumeric (isNumeric_iff.mpr hkind)) hureads (by
        intro hplus
        rw [hplus] at hkind
        simp at hkind)
      have hsign : signLength u.text.toList = 0 := by simpa using (Bool.and_eq_true_iff.mp hu).2
      have hglued : Reads u.kind ("+" ++ u.text).toList (chars us) := by
        rw [String.toList_append]
        exact hnew.signed hkind hsign
      constructor
      · rw [← List.singleton_append, chars_append,
          Reads.stands (t := ⟨u.kind, "+" ++ u.text⟩) hglued, htokens]
      · rintro l rfl hl hreads -
        have hnone : spaceIn (some l) gap Token.plus = [] := by
          simp [spaceIn, isLoose, Token.plus, Spacing.tightBefore, Spacing.isJoint]
        have htext : chars (gap ++ Token.plus :: (inner ++ u :: rest)) ++ c :: after
            = chars gap ++ '+' :: (chars (inner ++ u :: rest) ++ c :: after) := by
          rw [chars_append, List.append_assoc]
          rfl
        have hcross := crosses_glued (y := u.text.toList ++ chars us) hgap (hplain l rfl) hgapstands
        have hy : chars (⟨u.kind, "+" ++ u.text⟩ :: us) = '+' :: (u.text.toList ++ chars us) := by
          rw [chars_cons, String.toList_append, List.append_assoc]
          rfl
        have hcalm := hcross.calmer
        have hresult := hcross.reads hl (by rwa [htext] at hreads)
        rw [hnone] at hcalm hresult
        rw [htext, hy]
        exact ⟨hresult, hcalm⟩

/-- A compact text has no comments. -/
theorem Compacts.kind_ne {last : Option Token} {ts us : List Token} (h : Compacts last ts us) :
    ∀ u ∈ us, u.kind ≠ .comment := by
  have hne : ∀ {kind : TokenKind}, kind.isTrivia = false → kind ≠ .comment := by
    rintro kind htrivia rfl
    cases htrivia
  induction h with
  | done => simp
  | @next last gap rest us t hgap ht hplain hplus h ih =>
      intro u hu
      rcases List.mem_append.mp hu with hspace | hu
      · rw [spaceIn] at hspace
        split at hspace
        · rw [List.mem_singleton.mp hspace]
          decide
        · cases hspace
      · rcases List.mem_cons.mp hu with rfl | hu
        · exact hne ht
        · exact ih u hu
  | @glued last gap inner rest us v hgap hplain hinner hv h ih =>
      intro u hu
      rcases List.mem_cons.mp hu with rfl | hu
      · exact hne (isTrivia_of_isNumeric (Bool.and_eq_true_iff.mp hv).1)
      · exact ih u hu

/-- A lone plus sign is read as no other token. -/
theorem eq_plus_of_stands {ts : List Token} {rest : List Char} (h : Stands ts rest) :
    ∀ t ∈ ts, t.kind = .delim '+' → t = Token.plus := by
  induction ts with
  | nil => simp
  | cons u ts ih =>
      obtain ⟨hreads, hrest⟩ := reads_of_stands h
      intro t ht hkind
      rcases List.mem_cons.mp ht with rfl | ht
      · obtain ⟨c, htext, hc⟩ := hreads.exists_single (by rw [hkind]; rfl)
        rw [hkind] at hc
        obtain rfl : c = '+' := by
          unfold single at hc
          split at hc <;> cases hc
          rfl
        obtain ⟨kind, text⟩ := t
        have htext' : text = "+" := String.toList_inj.mp htext
        rw [show kind = .delim '+' from hkind, htext']
        rfl
      · exact ih hrest t ht hkind

end Lexing

end Selector

end CssMinify
