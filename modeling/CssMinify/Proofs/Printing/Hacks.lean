import CssMinify.Proofs.Printing.Declarations
import CssMinify.Proofs.Token.Suffix
import CssMinify.Sheet.Parser

/-!
Hacks in declarations as they are written. The sign in front of a name and the suffix behind the last word are found
at different points, and there is room for one of them: a suffix that is found takes the place of the sign. A suffix
before a space is none, since its escape takes the space; then it stays in its word, and the sign stays too.
-/

namespace CssMinify

open Lexer

namespace Declaration

/-- A declaration as it is written: a sign, a name, a colon, words with spaces between them, a suffix, and a mark of
importance. -/
structure Draft where
  sign : String
  name : String
  /-- The words before the last one, each with the number of spaces behind it beyond the first. -/
  front : List (Token × Nat)
  last : Token
  /-- The digits behind the last word and a backslash. -/
  suffix : Option String
  /-- The number of spaces before the mark, if there is one. -/
  important : Option Nat

/-- Nothing but spaces. -/
def spaces (count : Nat) : String := String.ofList (List.replicate count ' ')

namespace Draft

def frontText : List (Token × Nat) → String
  | [] => ""
  | (word, more) :: rest => word.text ++ spaces (more + 1) ++ frontText rest

def suffixText (t : Draft) : String := (t.suffix.map ("\\" ++ ·)).getD ""

def text (t : Draft) : String :=
  t.sign ++ t.name ++ ":" ++ frontText t.front ++ t.last.text ++ t.suffixText
    ++ (t.important.map (spaces · ++ "!important")).getD ""

/-- Is there a space before the mark? -/
def isSpaced (t : Draft) : Bool := t.important.any (0 < ·)

/-- The suffix with the space that its escape takes. -/
def ending (t : Draft) : String := (t.suffix.map fun digits => "\\" ++ digits ++ if t.isSpaced then " " else "").getD ""

/-- The end of the value. -/
def tail (t : Draft) : String := t.last.text ++ t.ending

/-- The name and the value are tokens of their kinds, the words before the last one also before a space, as is the last
one where a space follows it; and a suffix has one or two digits. -/
structure IsWritten (t : Draft) : Prop where
  sign : t.sign = "" ∨ t.sign = "*" ∨ t.sign = "_"
  name : tokenize t.name = [⟨.ident, t.name⟩]
  front : ∀ word ∈ t.front, word.1.kind.isWord = true ∧ tokenize (word.1.text ++ " ") = [word.1, Token.space]
  word : t.last.kind.isWord = true
  last : tokenize t.last.text = [t.last]
  spaced : t.suffix = none → t.isSpaced = true → tokenize (t.last.text ++ " ") = [t.last, Token.space]
  suffix : ∀ digits, t.suffix = some digits → IsSuffix ("\\" ++ digits).toList

section Tokens

def nameTokens (t : Draft) : List Token :=
  if t.sign = "*" then [⟨.delim '*', "*"⟩, ⟨.ident, t.name⟩] else [⟨.ident, t.sign ++ t.name⟩]

def frontTokens (front : List (Token × Nat)) : List Token :=
  front.flatMap fun (word, more) => [word, ⟨.whitespace, spaces (more + 1)⟩]

def lastTokens (t : Draft) : List Token := if t.suffix.isSome then t.last.withEnding t.ending else [t.last]

/-- The spaces before the mark that the suffix leaves. -/
def gap (t : Draft) : Nat := t.important.getD 0 - (if t.suffix.isSome then 1 else 0)

def gapTokens (t : Draft) : List Token := if t.gap = 0 then [] else [⟨.whitespace, spaces t.gap⟩]

def markTokens (t : Draft) : List Token := t.gapTokens ++ Token.importance t.important.isSome

def valueTokens (t : Draft) : List Token := frontTokens t.front ++ t.lastTokens

def tokens (t : Draft) : List Token := t.nameTokens ++ (Token.colon :: (t.valueTokens ++ t.markTokens))

theorem toList_spaces (count : Nat) : (spaces count).toList = List.replicate count ' ' := by simp [spaces]

theorem chars_frontTokens (front : List (Token × Nat)) : chars (frontTokens front) = (frontText front).toList := by
  induction front with
  | nil => rfl
  | cons word front ih =>
      rw [frontTokens, List.flatMap_cons, chars_append, frontText, ← frontTokens, ih]
      simp [chars]

theorem chars_lastTokens (t : Draft) : chars t.lastTokens = t.tail.toList := by
  rw [lastTokens, tail]
  split
  · exact Token.chars_withEnding t.last t.ending
  · next hnone =>
      have hending : t.ending = "" := by
        rw [ending, Option.not_isSome_iff_eq_none.mp hnone]
        rfl
      simp [chars, hending]

theorem chars_markTokens (t : Draft) :
    chars t.markTokens = List.replicate t.gap ' ' ++ chars (Token.importance t.important.isSome) := by
  rw [markTokens, chars_append, gapTokens]
  split
  · next hzero => simp [chars, hzero]
  · simp [chars, toList_spaces]

/-- What stands before the mark is the same, with or without the space that a suffix takes. -/
theorem chars_ending_markTokens (t : Draft) : t.ending.toList ++ chars t.markTokens
    = (t.suffixText ++ (t.important.map (spaces · ++ "!important")).getD "").toList := by
  rw [chars_markTokens, ending, suffixText, gap, isSpaced]
  cases t.suffix with
  | none => cases t.important <;> simp [chars, Token.importance, toList_spaces]
  | some digits =>
      cases t.important with
      | none => simp [chars, Token.importance]
      | some count =>
          cases count with
          | zero => simp [chars, Token.importance, toList_spaces]
          | succ count => simp [chars, Token.importance, toList_spaces, List.replicate_succ]

theorem chars_tokens (t : Draft) : chars t.tokens = t.text.toList := by
  have hname : chars t.nameTokens = (t.sign ++ t.name).toList := by
    rw [nameTokens]
    split
    · next hstar => simp [chars, hstar]
    · simp [chars]
  have hend := chars_ending_markTokens t
  rw [tokens, chars_append, hname, ← List.singleton_append, chars_append, chars_append, valueTokens, chars_append,
    chars_frontTokens, chars_lastTokens, tail, text]
  simp only [String.toList_append, List.append_assoc] at hend ⊢
  rw [hend]
  rfl

end Tokens

section Lexing

variable {t : Draft} {rest : List Char}

/-- A run of spaces before something else. -/
theorem stands_spaces (count : Nat) (hrest : rest.head?.any isSpace = false) :
    Stands [⟨.whitespace, spaces (count + 1)⟩] rest := by
  refine Reads.stands (t := ⟨.whitespace, _⟩) ?_
  rw [toList_spaces]
  refine .whitespace (by simp) (fun c hc => ?_) hrest
  rw [(List.mem_replicate.mp hc).2]
  rfl

/-- Nothing in front of the mark goes on with a word. -/
theorem calm_markTokens (t : Draft) : (chars t.markTokens).head?.all endsWord = true ∧
    ¬ ['!', '-', '-'] <+: chars t.markTokens ∧ ((chars t.markTokens).head?.any isSpace = true → t.gap ≠ 0) := by
  rw [chars_markTokens]
  cases t.gap with
  | succ gap =>
      refine ⟨rfl, fun h => ?_, fun _ => Nat.succ_ne_zero gap⟩
      rw [List.replicate_succ, List.cons_append, List.cons_prefix_cons] at h
      exact absurd h.1 (by decide)
  | zero =>
      cases t.important.isSome with
      | false => exact ⟨rfl, by decide, fun h => by cases h⟩
      | true => exact ⟨rfl, by decide, fun h => by cases h⟩

theorem stands_markTokens (t : Draft) : Stands t.markTokens [] := by
  have himportance := Declaration.apart_importance t.important.isSome [] rfl
  rw [markTokens]
  refine Stands.append ?_ himportance
  rw [gapTokens]
  split
  · exact Stands.nil
  · next hgap =>
      obtain ⟨count, hcount⟩ := Nat.exists_eq_succ_of_ne_zero hgap
      rw [hcount]
      refine stands_spaces count ?_
      cases t.important.isSome <;> rfl

theorem stands_frontTokens {front : List (Token × Nat)}
    (hfront : ∀ word ∈ front, word.1.kind.isWord = true ∧ tokenize (word.1.text ++ " ") = [word.1, Token.space])
    (hrest : rest.head?.any isSpace = false) : Stands (frontTokens front) rest := by
  induction front with
  | nil => exact Stands.nil
  | cons word front ih =>
      obtain ⟨⟨hkind, htokens⟩, hmore⟩ := List.forall_mem_cons.mp hfront
      have hreads := reads_of_tokenize htokens
      have hnext : (chars (frontTokens front) ++ rest).head?.any isSpace = false := by
        cases front with
        | nil => exact hrest
        | cons next front =>
            have hword := hmore next List.mem_cons_self
            have hreads := reads_of_tokenize hword.2
            rw [chars_frontTokens, frontText, String.toList_append, String.toList_append, List.append_assoc,
              List.append_assoc]
            exact hreads.head?_isSpace (TokenKind.isTrivia_of_isWord hword.1) _
      rw [frontTokens, List.flatMap_cons, ← frontTokens]
      refine Stands.append ?_ (ih hmore)
      refine Stands.cons (Reads.stands (hreads.before hkind ?_ ?_ fun _ => .inl rfl)) (stands_spaces _ hnext)
      · simp [chars, toList_spaces, List.replicate_succ, endsWord]
      · simp [chars, toList_spaces, List.replicate_succ]

variable (h : t.IsWritten)

include h

theorem stands_lastTokens : Stands t.lastTokens (chars t.markTokens) := by
  obtain ⟨hends, hmarkup, hspace⟩ := calm_markTokens t
  have hcalmer : Calmer [] (chars t.markTokens) := calmer_of_endsWord hends hmarkup
  have hname := hcalmer.name (by rw [nameLength])
  have hlast := reads_of_tokenize h.last
  rw [lastTokens]
  cases hsuffix : t.suffix with
  | none =>
      rw [if_neg (by simp)]
      refine Reads.stands ?_
      cases hgap : t.gap with
      | zero => exact hlast.before h.word hends hmarkup fun hhead => absurd hgap (hspace hhead)
      | succ gap =>
          have hspaced : t.isSpaced = true := by
            rw [Draft.gap, hsuffix] at hgap
            rw [isSpaced]
            cases himportant : t.important with
            | none => simp [himportant] at hgap
            | some count => simp [himportant] at hgap ⊢; omega
          exact (reads_of_tokenize (h.spaced hsuffix hspaced)).before h.word hends hmarkup fun _ => .inl rfl
  | some digits =>
      rw [if_pos (by simp)]
      have hds : IsSuffix ('\\' :: digits.toList) := by simpa using h.suffix digits hsuffix
      have hclosing : (if t.isSpaced then [' '] else []) = [' '] ∨
          (if t.isSpaced then [' '] else []) = [] ∧ (chars t.markTokens).head?.any isSpace = false := by
        cases hspaced : t.isSpaced with
        | true => exact .inl rfl
        | false =>
            refine .inr ⟨rfl, ?_⟩
            rw [Bool.eq_false_iff]
            intro hhead
            have hgap := hspace hhead
            rw [Draft.gap, hsuffix] at hgap
            rw [isSpaced] at hspaced
            cases himportant : t.important with
            | none => simp [himportant] at hgap
            | some count => simp [himportant] at hgap hspaced; omega
      obtain ⟨hslash, hlength⟩ := nameLength_suffix hds hclosing hname
      have hending : t.ending = String.ofList ('\\' :: (digits.toList ++ if t.isSpaced then [' '] else [])) := by
        rw [← String.toList_inj, ending, hsuffix]
        cases t.isSpaced <;> simp
      rw [hending]
      refine stands_withEnding h.word hlast hslash hlength fun hparen => ?_
      rw [hparen] at hends
      cases hends

theorem not_isSpace_lastTokens (rest : List Char) : (chars t.lastTokens ++ rest).head?.any isSpace = false := by
  rw [chars_lastTokens, tail, String.toList_append, List.append_assoc]
  exact (reads_of_tokenize h.last).head?_isSpace (TokenKind.isTrivia_of_isWord h.word) _

theorem stands_nameTokens (rest : List Char) : Stands t.nameTokens (':' :: rest) := by
  have hname : Reads .ident t.name.toList [] := reads_of_tokenize h.name
  have hcolon : ¬ ['!', '-', '-'] <+: ':' :: rest := fun hmarkup =>
    absurd (List.cons_prefix_cons.mp hmarkup).1 (by decide)
  have hbefore : Reads .ident t.name.toList (':' :: rest) := hname.before rfl rfl hcolon fun hspace => by cases hspace
  rw [nameTokens]
  split
  · exact Stands.cons (stands_single (c := '*') rfl rfl) (Reads.stands (t := ⟨.ident, t.name⟩) hbefore)
  · next hstar =>
      refine Reads.stands (t := ⟨.ident, t.sign ++ t.name⟩) ?_
      rcases h.sign with hsign | hsign | hsign
      · rwa [hsign, String.empty_append]
      · exact absurd hsign hstar
      · -- The underscore is a part of the name.
        rw [hsign, String.toList_append]
        show Reads .ident ('_' :: t.name.toList) (':' :: rest)
        generalize t.name.toList = name at hbefore
        cases hbefore with
        | ident _ _ hend => exact .ident rfl rfl (isNameBefore_of_nameLength hend |>.char rfl).nameLength_eq (by simp)
        | lone hkind => exact absurd hkind (single_ne rfl)

theorem tokenize_text : tokenize t.text = t.tokens := by
  refine Stands.tokenize_eq (chars_tokens t).symm ?_
  rw [tokens]
  refine Stands.append (stands_nameTokens h _) (Stands.cons (stands_single (c := ':') rfl rfl) ?_)
  refine Stands.append ?_ (stands_markTokens t)
  rw [List.append_nil, valueTokens]
  exact Stands.append (stands_frontTokens h.front (not_isSpace_lastTokens h _)) (stands_lastTokens h)

end Lexing

section Reading

variable {t : Draft}

/-- The words before the last one, unless they are a part of it, as they are in a custom property. -/
def lead (t : Draft) (custom : Bool) : Value := if custom then [] else t.front.map (·.1.text)

/-- What stands before the end of the value in its last component. -/
def opening (t : Draft) (custom : Bool) : String := if custom then frontText t.front else ""

theorem source_valueTokens (t : Draft) : Token.source t.valueTokens = frontText t.front ++ t.tail := by
  rw [← String.toList_inj, toList_tokenSource, valueTokens, chars_append, chars_frontTokens, chars_lastTokens,
    String.toList_append]

variable (h : t.IsWritten)

include h

theorem isWord_of_mem_lastTokens : ∀ u ∈ t.lastTokens, u.kind.isWord = true := by
  rw [lastTokens]
  split
  · exact Token.isWord_withEnding h.word t.ending
  · simpa using h.word

omit h in
theorem lastTokens_ne_nil (t : Draft) : t.lastTokens ≠ [] := by
  rw [lastTokens]
  split
  · exact Token.withEnding_ne_nil t.last t.ending
  · simp

omit h in
theorem tail_ne_empty (h : t.IsWritten) : t.tail ≠ "" := by
  intro hempty
  have hchars := congrArg String.toList hempty
  rw [tail, String.toList_append] at hchars
  exact (reads_of_tokenize h.last).ne_nil (List.append_eq_nil_iff.mp hchars).1

theorem isWord_of_mem_valueTokens : ∀ u ∈ t.valueTokens, u.kind.isWord = true ∨ u.kind = .whitespace := by
  intro u hu
  rw [valueTokens, List.mem_append, frontTokens, List.mem_flatMap] at hu
  rcases hu with ⟨word, hword, hu⟩ | hu
  · rcases List.mem_cons.mp hu with rfl | hu
    · exact .inl (h.front word hword).1
    · rw [List.mem_singleton.mp hu]
      exact .inr rfl
  · exact .inl (isWord_of_mem_lastTokens h u hu)

theorem not_isTrivia_head? : ∀ u ∈ t.valueTokens.head?, u.isTrivia = false := by
  intro u hu
  rw [valueTokens] at hu
  cases hfront : t.front with
  | nil =>
      rw [hfront] at hu
      exact TokenKind.isTrivia_of_isWord (isWord_of_mem_lastTokens h u (List.mem_of_mem_head? hu))
  | cons word front =>
      rw [hfront] at hu
      obtain rfl : word.1 = u := Option.some.inj hu
      exact TokenKind.isTrivia_of_isWord (h.front word (by simp [hfront])).1

theorem not_isTrivia_getLast? : ∀ u ∈ t.valueTokens.getLast?, u.isTrivia = false := by
  intro u hu
  rw [valueTokens, List.getLast?_append_of_ne_nil _ (lastTokens_ne_nil t)] at hu
  exact TokenKind.isTrivia_of_isWord (isWord_of_mem_lastTokens h u (List.mem_of_getLast? hu))

/-- The words are the components of the value. -/
theorem ofTokens_valueTokens : Value.ofTokens t.valueTokens = t.front.map (·.1.text) ++ [t.tail] := by
  have hlast : Value.ofTokensAfter "" t.lastTokens = [t.tail] := by
    have hplain := @Value.ofTokensAfter_plain t.lastTokens []
      (fun u hu => TokenKind.isPlain_of_isWord (isWord_of_mem_lastTokens h u hu)) ""
    have hsource : Token.source t.lastTokens = t.tail := by
      rw [← String.toList_inj, toList_tokenSource, chars_lastTokens]
    rw [List.append_nil, hsource, String.empty_append] at hplain
    rw [hplain, Value.ofTokensAfter, Value.flush, if_neg (by simpa using tail_ne_empty h)]
  have hfront := h.front
  rw [Value.ofTokens, valueTokens]
  generalize t.front = front at hfront ⊢
  induction front with
  | nil => exact hlast
  | cons word front ih =>
      obtain ⟨⟨hkind, htokens⟩, hmore⟩ := List.forall_mem_cons.mp hfront
      have hplain := @Value.ofTokensAfter_plain [word.1]
        (⟨.whitespace, spaces (word.2 + 1)⟩ :: (frontTokens front ++ t.lastTokens))
        (by simpa using TokenKind.isPlain_of_isWord hkind) ""
      have hword : word.1.text ≠ "" := by
        intro hempty
        exact (reads_of_tokenize htokens).ne_nil (by rw [hempty]; rfl)
      have hsource : Token.source [word.1] = word.1.text := by simp [Token.source, Text.concat]
      rw [hsource, String.empty_append] at hplain
      rw [frontTokens, List.flatMap_cons, List.append_assoc]
      refine hplain.trans ?_
      have hspace : Token.isTrivia ⟨.whitespace, spaces (word.2 + 1)⟩ = true := rfl
      rw [Value.ofTokensAfter, if_pos hspace, Value.flush, if_neg (by simpa using hword), ih hmore]
      rfl

theorem readValue_valueTokens (custom : Bool) :
    readValue custom t.valueTokens = t.lead custom ++ [t.opening custom ++ t.tail] := by
  have hne : t.valueTokens ≠ [] := List.append_ne_nil_of_right_ne_nil _ (lastTokens_ne_nil t)
  rw [readValue, lead, opening]
  cases custom with
  | false => simpa using ofTokens_valueTokens h
  | true => simp [hne, source_valueTokens]

/-- The spaces before a mark are no part of the value. -/
theorem trimEnds_valueTokens : trimEnds Token.isTrivia (t.valueTokens ++ t.gapTokens) = t.valueTokens := by
  have hgap : ∀ u ∈ t.gapTokens, u.isTrivia = true := by
    intro u hu
    rw [gapTokens] at hu
    split at hu
    · cases hu
    · rw [List.mem_singleton.mp hu]
      rfl
  have htrim := Value.trimEnds_eq_self (not_isTrivia_head? h) (not_isTrivia_getLast? h)
  have hne : t.valueTokens ≠ [] := List.append_ne_nil_of_right_ne_nil _ (lastTokens_ne_nil t)
  have hdrop (more : List Token) : (t.valueTokens ++ more).dropWhile Token.isTrivia = t.valueTokens ++ more := by
    have hhead := not_isTrivia_head? h
    obtain ⟨u, us, hcons⟩ := List.exists_cons_of_ne_nil hne
    rw [hcons] at hhead ⊢
    exact List.dropWhile_cons_of_neg (by simp [hhead u rfl])
  have hstart := hdrop []
  rw [List.append_nil] at hstart
  rw [trimEnds, hstart] at htrim
  rw [trimEnds, hdrop, List.reverse_append,
    List.dropWhile_append_of_pos fun u hu => hgap u (List.mem_reverse.mp hu), htrim]

theorem splitImportant_valueTokens :
    splitImportant (t.valueTokens ++ t.markTokens) = (t.valueTokens ++ t.gapTokens, t.important.isSome) := by
  have hne : t.valueTokens ≠ [] := List.append_ne_nil_of_right_ne_nil _ (lastTokens_ne_nil t)
  rw [markTokens, ← List.append_assoc]
  cases himportant : t.important.isSome with
  | true =>
      refine splitImportant_marked (List.append_ne_nil_of_left_ne_nil hne _) ?_
      rw [List.head?_append_of_ne_nil _ hne]
      exact not_isTrivia_head? h
  | false =>
      rw [Token.importance, if_neg (by simp), List.append_nil]
      refine splitImportant_unmarked fun u hu hkind => ?_
      rcases List.mem_append.mp hu with hu | hu
      · rcases isWord_of_mem_valueTokens h u hu with hword | hspace
        · rw [hkind] at hword
          cases hword
        · rw [hkind] at hspace
          cases hspace
      · rw [gapTokens] at hu
        split at hu
        · cases hu
        · rw [List.mem_singleton.mp hu] at hkind
          cases hkind

/-- The name and the hack of the sign. -/
def read (t : Draft) : String × Hack :=
  if t.sign = "*" then readName true t.name else readName false (t.sign ++ t.name)

omit h in
theorem ofTokens?_tokens (t : Draft) :
    ofTokens? t.tokens = readAfterColon t.read.1 t.read.2 (t.valueTokens ++ t.markTokens) := by
  rw [tokens, nameTokens, read]
  split
  · rw [List.cons_append, List.singleton_append, ofTokens?_star]
    exact readFromName_colon _ rfl
  · rw [List.singleton_append, ofTokens?_ident]
    exact readFromName_colon _ rfl

theorem isLevel_of_mem_tokens : ∀ u ∈ t.tokens, u.kind.isLevel = true := by
  intro u hu
  rw [tokens, List.mem_append, List.mem_cons, List.mem_append, markTokens, List.mem_append] at hu
  rcases hu with hu | rfl | hu | hu | hu
  · rw [nameTokens] at hu
    split at hu <;> simp only [List.mem_cons, List.not_mem_nil, or_false] at hu
    · rcases hu with rfl | rfl <;> rfl
    · rw [hu]
      rfl
  · rfl
  · rcases isWord_of_mem_valueTokens h u hu with hword | hspace
    · cases hkind : u.kind <;> first | rfl | (rw [hkind] at hword; cases hword)
    · rw [hspace]
      rfl
  · rw [gapTokens] at hu
    split at hu <;> simp only [List.mem_cons, List.not_mem_nil, or_false] at hu
    rw [hu]
    rfl
  · rw [Token.importance] at hu
    split at hu <;> simp only [List.mem_cons, List.not_mem_nil, or_false] at hu
    rcases hu with rfl | rfl <;> rfl

/-- The text is one declaration or none. -/
theorem parseAll_text : parseAll t.text
    = (readAfterColon t.read.1 t.read.2 (t.valueTokens ++ t.markTokens)).toList := by
  have hstarts : Parser.startsItem t.tokens = true := by
    rw [tokens, nameTokens]
    split <;> rfl
  have hspan (custom : Bool) : Parser.spanItem custom 0 false (t.tokens ++ []) = ⟨t.tokens, false, []⟩ :=
    Parser.spanItem_of_isLevel (isLevel_of_mem_tokens h) custom rfl
  have hitem := Parser.bodyFrom_item hstarts (hspan _) 0
  rw [List.append_nil, ofTokens?_tokens] at hitem
  rw [parseAll, tokenize_text h, hitem]
  cases readAfterColon t.read.1 t.read.2 (t.valueTokens ++ t.markTokens) <;> simp [Parser.bodyFrom]

end Reading

section Suffixes

theorem not_isSpace_of_isSuffix {suffix : List Char} (h : IsSuffix suffix) : ∀ c ∈ suffix, isSpace c = false := by
  obtain ⟨-, -, hds⟩ := h
  exact List.forall_mem_cons.mpr ⟨rfl, fun c hc => by simp [isSpace, isDigit_ne (hds c hc)]⟩

/-- What stands before a space has no part in a suffix. -/
theorem cutSuffix?_append_left {front : String} (hfront : front.toList.getLast?.all isSpace = true) (s : String) :
    Value.cutSuffix? (front ++ s) = (Value.cutSuffix? s).map (Prod.map (front ++ ·) id) := by
  refine Option.ext fun ⟨stem, digits⟩ => ?_
  simp only [Option.map_eq_some_iff, Value.cutSuffix?_eq_some_iff, Prod.exists, Prod.map_apply, Prod.mk.injEq, id]
  constructor
  · rintro ⟨htext, hsuffix⟩
    have hchars := congrArg String.toList htext
    rw [String.toList_append, String.toList_append] at hchars
    -- The front ends before the backslash, since there are only digits behind it.
    have hstem : ∃ more, stem.toList = front.toList ++ more ∧ s.toList = more ++ ("\\" ++ digits).toList := by
      rcases List.append_eq_append_iff.mp hchars with h | ⟨more, hmore, hrest⟩
      · exact h
      · cases hlast : more.getLast? with
        | none =>
            rw [List.getLast?_eq_none_iff.mp hlast] at hmore hrest
            exact ⟨[], by simpa using hmore.symm, by simpa using hrest.symm⟩
        | some c =>
            have hspace : isSpace c = true := by
              rw [hmore, List.getLast?_append, hlast] at hfront
              exact hfront
            have hc : c ∈ ("\\" ++ digits).toList := hrest ▸ List.mem_append_left _ (List.mem_of_getLast? hlast)
            have hne := not_isSpace_of_isSuffix hsuffix c hc
            rw [hspace] at hne
            cases hne
    obtain ⟨more, hfrontmore, hs⟩ := hstem
    refine ⟨String.ofList more, digits, ⟨?_, hsuffix⟩, ?_, rfl⟩
    · simp [← String.toList_inj, hs]
    · rw [← String.toList_inj, String.toList_append, String.toList_ofList, hfrontmore]
  · rintro ⟨rest, digits, ⟨rfl, hsuffix⟩, rfl, rfl⟩
    exact ⟨(String.append_assoc ..).symm, hsuffix⟩

theorem takeSuffix_concat (lead : Value) (w : String) : Value.takeSuffix (lead ++ [w])
    = match Value.cutSuffix? w with
      | some (stem, digits) => (lead ++ (if stem.isEmpty then [] else [stem]), some digits)
      | none => (lead ++ [w], none) := by
  cases hcut : Value.cutSuffix? w <;> simp [Value.takeSuffix, hcut]

theorem getLast?_frontText (front : List (Token × Nat)) : (frontText front).toList.getLast?.all isSpace = true := by
  induction front with
  | nil => rfl
  | cons word front ih =>
      rw [frontText, String.toList_append, List.getLast?_append]
      cases hlast : (frontText front).toList.getLast? with
      | some c =>
          rw [hlast] at ih
          exact ih
      | none =>
          rw [Option.none_or, String.toList_append, toList_spaces, List.replicate_succ', ← List.append_assoc,
            List.getLast?_concat]
          rfl

/-- Whatever the value is, it ends in its last word. -/
theorem exists_print_concat (lead : Value) (w : String) : ∃ start, Value.print (lead ++ [w]) = start ++ w := by
  have hafter (previous : String) : ∃ start, Value.printAfter previous (lead ++ [w]) = start ++ w := by
    induction lead generalizing previous with
    | nil => exact ⟨_, by rw [List.nil_append, Value.printAfter, Value.printAfter, String.append_empty]⟩
    | cons v lead ih =>
        obtain ⟨start, hstart⟩ := ih v
        exact ⟨_, by rw [List.cons_append, Value.printAfter, hstart, ← String.append_assoc]⟩
  obtain ⟨start, hstart⟩ := hafter ","
  exact ⟨start, by rw [Value.print_eq, hstart]⟩

variable {t : Draft}

/-- A suffix is found unless its escape takes a space. -/
theorem cutSuffix?_tail (h : t.IsWritten) {digits : String} (hsuffix : t.suffix = some digits) :
    Value.cutSuffix? t.tail = if t.isSpaced then none else some (t.last.text, digits) := by
  have hdigits := h.suffix digits hsuffix
  have htail : t.tail = t.last.text ++ ("\\" ++ digits ++ if t.isSpaced then " " else "") := by
    rw [tail, ending, hsuffix]
    rfl
  rw [htail]
  cases t.isSpaced with
  | false =>
      have hcut := Value.cutSuffix?_append hdigits t.last.text
      rw [← hcut]
      simp
  | true =>
      refine Option.eq_none_iff_forall_ne_some.mpr fun ⟨stem, ds⟩ hcut => ?_
      obtain ⟨htext, hds⟩ := Value.cutSuffix?_eq_some_iff.mp hcut
      have hlast := congrArg (fun s => s.toList.getLast?) htext
      have hmem : ' ' ∈ ("\\" ++ ds).toList := by
        obtain ⟨c, hc⟩ : ∃ c, ("\\" ++ ds).toList.getLast? = some c := by simp [List.getLast?_cons]
        have hspace : some ' ' = some c :=
          calc
            some ' ' = (t.last.text ++ ("\\" ++ digits ++ " ")).toList.getLast? := by simp [List.getLast?_cons]
            _ = (stem ++ ("\\" ++ ds)).toList.getLast? := hlast
            _ = some c := by rw [String.toList_append, List.getLast?_append, hc, Option.some_or]
        obtain rfl := Option.some.inj hspace
        exact List.mem_of_getLast? hc
      exact absurd (not_isSpace_of_isSuffix hds ' ' hmem) (by decide)

/-- The last component has the suffix that the end of the value has. -/
theorem takeSuffix_components (t : Draft) (custom : Bool) :
    Value.takeSuffix (t.lead custom ++ [t.opening custom ++ t.tail])
      = match Value.cutSuffix? t.tail with
        | some (stem, digits) =>
            let stem := t.opening custom ++ stem
            (t.lead custom ++ (if stem.isEmpty then [] else [stem]), some digits)
        | none => (t.lead custom ++ [t.opening custom ++ t.tail], none) := by
  have hopening : (t.opening custom).toList.getLast?.all isSpace = true := by
    rw [opening]
    split
    · exact getLast?_frontText t.front
    · rfl
  rw [takeSuffix_concat, cutSuffix?_append_left hopening]
  cases Value.cutSuffix? t.tail <;> rfl

/-- The value that has this end. -/
def value (t : Draft) (ending : String) : Value :=
  let word := t.opening (isCustomName t.read.1) ++ ending
  t.lead (isCustomName t.read.1) ++ (if word.isEmpty then [] else [word])

variable (h : t.IsWritten)

include h

/-- Without a suffix the declaration has the hack of its sign. -/
theorem parseAll_text_of_none (hcut : Value.cutSuffix? t.tail = none) :
    parseAll t.text = [⟨t.read.1, t.value t.tail, t.important.isSome, t.read.2⟩] := by
  have hne : t.opening (isCustomName t.read.1) ++ t.tail ≠ "" := by simp [tail_ne_empty h]
  rw [parseAll_text h, readAfterColon, splitImportant_valueTokens h, value]
  simp only [trimEnds_valueTokens h, readValue_valueTokens h, takeSuffix_components, hcut]
  simp [hne]

/-- A suffix takes the place of the sign. -/
theorem parseAll_text_of_some {stem digits : String} (hcut : Value.cutSuffix? t.tail = some (stem, digits)) :
    parseAll t.text = if (t.value stem).isEmpty && !isCustomName t.read.1 then []
      else [⟨t.read.1, t.value stem, t.important.isSome, .suffix digits⟩] := by
  rw [parseAll_text h, readAfterColon, splitImportant_valueTokens h, value]
  simp only [trimEnds_valueTokens h, readValue_valueTokens h, takeSuffix_components, hcut]
  rw [apply_ite Option.toList]
  rfl

end Suffixes

section Printing

/-- The importance as it is printed. -/
def mark (t : Draft) : String := if t.important.isSome then "!important" else ""

theorem isEmpty_value (t : Draft) (stem : String) : ((t.value stem).isEmpty && !isCustomName t.read.1) = true
    ↔ t.front = [] ∧ stem = "" ∧ isCustomName t.read.1 = false := by
  rw [value, lead, opening]
  cases isCustomName t.read.1 with
  | true => simp
  | false => by_cases hstem : stem = "" <;> simp [hstem]

/-- The end of the value is printed last. -/
theorem exists_print_value (t : Draft) (ending : String) :
    ∃ start, Value.print (t.value ending) = start ++ ending := by
  rw [value]
  split
  · next hempty =>
      rw [String.isEmpty_iff, String.append_eq_empty_iff] at hempty
      exact ⟨_, by rw [hempty.2, String.append_empty]⟩
  · obtain ⟨start, hstart⟩ :=
      exists_print_concat (t.lead (isCustomName t.read.1)) (t.opening (isCustomName t.read.1) ++ ending)
    exact ⟨_, by rw [hstart, ← String.append_assoc]⟩

variable {t : Draft} (h : t.IsWritten)

include h

omit h in
/-- A name has no suffix. -/
theorem readName_ne_suffix (starred : Bool) (text digits : String) : (readName starred text).2 ≠ .suffix digits := by
  unfold readName
  split
  next heq =>
  split at heq <;> (obtain ⟨rfl, -⟩ := Prod.mk.inj heq; simp)

/-- The hack of a sign is printed as the sign. -/
theorem exists_print_read (value : Value) (important : Bool) :
    ∃ start, print ⟨t.read.1, value, important, t.read.2⟩
      = t.sign ++ start ++ Value.print value ++ (if important then "!important" else "") := by
  rw [read]
  rcases h.sign with hsign | hsign | hsign
  · rw [hsign, if_neg (by decide), String.empty_append]
    cases hhack : (readName false t.name).2 with
    | suffix digits => exact absurd hhack (readName_ne_suffix false t.name digits)
    | none | underscore | star => exact ⟨_, by simp only [print, String.append_empty, String.empty_append]; rfl⟩
  · exact ⟨(readName true t.name).1 ++ ":", by simp [hsign, print, readName_starred, String.append_assoc]⟩
  · obtain ⟨c, cs, hname⟩ := List.exists_cons_of_ne_nil (reads_of_tokenize h.name).ne_nil
    have htext : ("_" ++ t.name).toList = '_' :: c :: cs := by
      rw [String.toList_append]
      exact congrArg _ hname
    refine ⟨(readName false ("_" ++ t.name)).1 ++ ":", ?_⟩
    simp [hsign, print, readName_underscored htext, String.append_assoc]

/-- What becomes of the hacks. Both the sign and the end of the value are printed unless a suffix is found at this end.
A suffix that is found is printed and the sign is not, and there is no declaration if nothing stands before it. One
that was written is found unless there is a space behind it. -/
theorem hacks_kept :
    (Value.cutSuffix? t.tail = none →
      ∃ d middle, parseAll t.text = [d] ∧ d.print = t.sign ++ middle ++ t.tail ++ t.mark) ∧
    (∀ stem digits, Value.cutSuffix? t.tail = some (stem, digits) →
      if t.front = [] ∧ stem = "" ∧ isCustomName t.read.1 = false then parseAll t.text = []
      else ∃ d middle, parseAll t.text = [d] ∧ d.hack = .suffix digits ∧
        d.print = t.read.1 ++ ":" ++ middle ++ t.tail ++ t.mark) ∧
    ∀ digits, t.suffix = some digits →
      Value.cutSuffix? t.tail = if t.isSpaced then none else some (t.last.text, digits) := by
  refine ⟨fun hcut => ?_, fun stem digits hcut => ?_, fun digits => cutSuffix?_tail h⟩
  · obtain ⟨middle, hmiddle⟩ := exists_print_value t t.tail
    obtain ⟨start, hstart⟩ := exists_print_read h (t.value t.tail) t.important.isSome
    refine ⟨_, start ++ middle, parseAll_text_of_none h hcut, ?_⟩
    rw [hstart, hmiddle, mark]
    simp only [String.append_assoc]
  · rw [parseAll_text_of_some h hcut, if_congr (isEmpty_value t stem) rfl rfl]
    split
    · rfl
    · obtain ⟨middle, hmiddle⟩ := exists_print_value t stem
      refine ⟨_, middle, rfl, rfl, ?_⟩
      simp only [print, hmiddle, mark, (Value.cutSuffix?_eq_some_iff.mp hcut).1, String.empty_append,
        String.append_assoc]

end Printing

/-- The space before the mark hides the suffix, so that the sign stays as well. -/
theorem hacks_kept_margin :
    IsWritten ⟨"*", "margin", [(⟨.dimension, "1px"⟩, 1)], ⟨.number, "0"⟩, some "9", some 1⟩ ∧
      ∃ d middle, parseAll "*margin:1px  0\\9 !important" = [d] ∧
        d.print = "*" ++ middle ++ "0\\9 " ++ "!important" :=
  have h : IsWritten ⟨"*", "margin", [(⟨.dimension, "1px"⟩, 1)], ⟨.number, "0"⟩, some "9", some 1⟩ :=
    { sign := .inr (.inl rfl)
      name := by decide +kernel
      front := by decide +kernel
      word := rfl
      last := by decide +kernel
      spaced := fun hnone => by cases hnone
      suffix := by
        rintro digits ⟨⟩
        exact .intro (by decide) (by decide) (List.all_eq_true.mp rfl) }
  ⟨h, (hacks_kept h).1 (by decide +kernel)⟩

/-- Without a space the suffix is found, and the sign is lost. -/
theorem parseAll_starred_suffix : parseAll "*color:red\\9" = [⟨"color", ["red"], false, .suffix "9"⟩] ∧
    (parseAll "*color:red\\9").map print = ["color:red\\9"] := by
  decide +kernel

end Draft

end Declaration

end CssMinify
