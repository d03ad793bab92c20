import CssMinify.Proofs.Printing.Words
import CssMinify.Proofs.Token.Tiling

/-!
What a text must look like to be read as a token of some kind, and what may stand behind it. The scanners answer how
far they get; here their answers are turned round: `Reads kind text rest` says of a text that it is a token when
`rest` follows, one case for each branch of `extent`.
-/

namespace CssMinify

namespace Lexer

/-- A character that is a token of its own when `rest` follows. -/
structure IsLone (c : Char) (rest : List Char) : Prop where
  comment : ¬ (c = '/' ∧ rest.head? = some '*')
  space : isSpace c = false
  quote : isQuote c = false
  hash : c = '#' → nameLength rest = 0
  number : startsNumber (c :: rest) = false
  atKeyword : c = '@' → startsIdent rest = false
  markup : ['<', '!', '-', '-'].isPrefixOf (c :: rest) = false
  ident : startsIdent (c :: rest) = false

/-- The kinds of token that are one character. -/
def isLoneKind : TokenKind → Bool
  | .colon | .semicolon | .comma | .openBracket | .closeBracket | .openParen | .closeParen | .openBrace
  | .closeBrace => true
  | .delim _ => true
  | _ => false

theorem isLoneKind_single (c : Char) : isLoneKind (single c) = true := by
  unfold single
  split <;> rfl

theorem single_ne {c : Char} {kind : TokenKind} (hkind : isLoneKind kind = false) : single c ≠ kind := by
  rintro rfl
  rw [isLoneKind_single] at hkind
  cases hkind

/-- A text is a token of this kind when `rest` follows. -/
inductive Reads : TokenKind → List Char → List Char → Prop
  | comment {body rest : List Char} (hend : commentLength (body ++ rest) = body.length) :
      Reads .comment ('/' :: '*' :: body) rest
  | whitespace {text rest : List Char} (hne : text ≠ []) (hall : ∀ c ∈ text, isSpace c = true)
      (hrest : rest.head?.any isSpace = false) : Reads .whitespace text rest
  | string {quote : Char} {body rest : List Char} (hquote : isQuote quote = true)
      (hend : stringLength quote (body ++ rest) = body.length) : Reads .string (quote :: body) rest
  | hash {name rest : List Char} (hne : name ≠ []) (hend : nameLength (name ++ rest) = name.length) :
      Reads .hash ('#' :: name) rest
  | number {text rest : List Char} (hstart : startsNumber (text ++ rest) = true)
      (hend : numberLength (text ++ rest) = text.length) (hunit : startsIdent rest = false)
      (hpercent : rest.head? ≠ some '%') : Reads .number text rest
  | percentage {text rest : List Char} (hstart : startsNumber (text ++ '%' :: rest) = true)
      (hend : numberLength (text ++ '%' :: rest) = text.length) : Reads .percentage (text ++ ['%']) rest
  | dimension {text unit rest : List Char} (hstart : startsNumber (text ++ (unit ++ rest)) = true)
      (hend : numberLength (text ++ (unit ++ rest)) = text.length) (hunit : startsIdent (unit ++ rest) = true)
      (hname : nameLength (unit ++ rest) = unit.length) : Reads .dimension (text ++ unit) rest
  | markupClose {rest : List Char} : Reads .markupClose ['-', '-', '>'] rest
  | markupOpen {rest : List Char} : Reads .markupOpen ['<', '!', '-', '-'] rest
  | atKeyword {name rest : List Char} (hstart : startsIdent (name ++ rest) = true)
      (hend : nameLength (name ++ rest) = name.length) : Reads .atKeyword ('@' :: name) rest
  | ident {name rest : List Char} (hstart : startsIdent (name ++ rest) = true)
      (hmarkup : ['-', '-', '>'].isPrefixOf (name ++ rest) = false)
      (hend : nameLength (name ++ rest) = name.length) (hparen : rest.head? ≠ some '(') : Reads .ident name rest
  | function {name rest : List Char} (hstart : startsIdent (name ++ '(' :: rest) = true)
      (hend : nameLength (name ++ '(' :: rest) = name.length)
      (hurl : Text.sameFolded (String.ofList name) "url" = true → (rest.dropWhile isSpace).head?.any isQuote = true) :
      Reads .function (name ++ ['(']) rest
  | url {name address rest : List Char} (hstart : startsIdent (name ++ '(' :: (address ++ rest)) = true)
      (hend : nameLength (name ++ '(' :: (address ++ rest)) = name.length)
      (hurl : Text.sameFolded (String.ofList name) "url" = true)
      (hquote : ((address ++ rest).dropWhile isSpace).head?.any isQuote = false)
      (haddress : addressLength (address ++ rest) = address.length) : Reads .url (name ++ '(' :: address) rest
  | lone {kind : TokenKind} {c : Char} {rest : List Char} (hkind : single c = kind) (hlone : IsLone c rest) :
      Reads kind [c] rest

/-- Where a name starts no number does. -/
theorem startsNumber_of_startsIdent {s : List Char} (h : startsIdent s = true) : startsNumber s = false := by
  cases s with
  | nil => rfl
  | cons c rest =>
      by_cases hdash : c = '-'
      · subst hdash
        cases rest with
        | nil => cases h
        | cons d rest =>
            have hd : d.isDigit = false ∧ d ≠ '.' := by
              simp only [startsIdent] at h
              split at h
              · next heq =>
                  cases heq
                  decide
              · next heq =>
                  cases heq
                  decide
              · next heq =>
                  cases heq
                  exact ⟨isDigit_of_startsName h, ne_of_startsName h rfl⟩
              · next heq => cases heq
            simp [startsNumber, startsWithDigit, startsFraction, hd]
      · have hor : startsName c = true ∨ startsEscape (c :: rest) = true := by
          rw [startsIdent, Bool.or_eq_true] at h
          · exact h
          · rintro rfl
            exact hdash rfl
        rcases hor with hname | hescape
        · have hdigit := isDigit_of_startsName hname
          have hplus := ne_of_startsName hname (d := '+') rfl
          have hpoint := ne_of_startsName hname (d := '.') rfl
          simp [startsNumber, startsFraction, hdash, hplus, hdigit, hpoint]
        · unfold startsEscape at hescape
          split at hescape
          · next heq =>
              cases heq
              rfl
          · cases hescape

/-- A name starts with a character of a name or with an escape. -/
theorem nameLength_eq_zero_iff {s : List Char} :
    nameLength s = 0 ↔ (s.head?.any continuesName || startsEscape s) = false := by
  cases s with
  | nil => simp [nameLength, startsEscape]
  | cons c rest =>
      rw [nameLength]
      by_cases hc : continuesName c = true
      · simp [hc]
      · by_cases hescape : startsEscape (c :: rest) = true
        · have hpos := escapeLength_pos hescape
          simp [hc, hescape, hpos.ne']
        · simp [hc, hescape]

/-- A scanner cuts a text in two. -/
theorem exists_split {scan : List Char → Nat} (hle : ∀ s, scan s ≤ s.length) (s : List Char) :
    ∃ text rest, s = text ++ rest ∧ scan (text ++ rest) = text.length := by
  refine ⟨s.take (scan s), s.drop (scan s), (List.take_append_drop _ s).symm, ?_⟩
  rw [List.take_append_drop, List.length_take, Nat.min_eq_left (hle s)]

theorem exists_cons_of_head? {c : Char} {s : List Char} (h : s.head? = some c) : ∃ rest, s = c :: rest :=
  ⟨s.tail, (List.cons_head?_tail h).symm⟩

theorem reads_numeric {s : List Char} (h : startsNumber s = true) :
    Reads (numeric s).1 (s.take (numeric s).2) (s.drop (numeric s).2) := by
  obtain ⟨text, rest, rfl, hend⟩ := exists_split numberLength_le s
  simp only [numeric, hend, List.drop_left]
  split
  · next hunit =>
      obtain ⟨unit, rest, rfl, hname⟩ := exists_split nameLength_le rest
      simp only [hname, List.take_length_add_append, List.drop_length_add_append, List.take_left, List.drop_left]
      exact .dimension h hend hunit hname
  next hunit =>
  split
  · next hpercent =>
      obtain ⟨rest, rfl⟩ := exists_cons_of_head? (beq_iff_eq.mp hpercent)
      simp only [List.take_length_add_append, List.drop_length_add_append]
      exact .percentage h hend
  · next hpercent =>
      simp only [List.take_left, List.drop_left]
      exact .number h hend (by simpa using hunit) (by simpa using hpercent)

theorem reads_identLike {s : List Char} (h : startsIdent s = true) (hmarkup : ['-', '-', '>'].isPrefixOf s = false) :
    Reads (identLike s).1 (s.take (identLike s).2) (s.drop (identLike s).2) := by
  obtain ⟨name, rest, rfl, hend⟩ := exists_split nameLength_le s
  simp only [identLike, hend, List.drop_left, List.take_left]
  split
  · next rest =>
      split
      · next hurl =>
          rw [Bool.and_eq_true, Bool.not_eq_true'] at hurl
          obtain ⟨address, rest, rfl, haddress⟩ := exists_split addressLength_le rest
          simp only [haddress, Nat.add_assoc, Nat.add_comm 1, List.take_length_add_append, List.drop_length_add_append,
            List.take_succ_cons, List.drop_succ_cons, List.take_left, List.drop_left]
          exact .url h hend hurl.1 hurl.2 haddress
      · next hurl =>
          simp only [List.take_length_add_append, List.drop_length_add_append]
          exact .function h hend fun hname => by simpa [hname] using hurl
  · next hparen =>
      simp only [List.take_left, List.drop_left]
      refine .ident h hmarkup hend fun hhead => ?_
      obtain ⟨rest, rfl⟩ := exists_cons_of_head? hhead
      exact hparen rest rfl

/-- Every token is one that its text is read as. -/
theorem reads_extent (c : Char) (rest : List Char) :
    Reads (extent c rest).1 ((c :: rest).take (extent c rest).2) ((c :: rest).drop (extent c rest).2) := by
  simp only [extent]
  split
  · next hcomment =>
      rw [Bool.and_eq_true, beq_iff_eq, beq_iff_eq] at hcomment
      obtain ⟨rfl, hstar⟩ := hcomment
      obtain ⟨rest, rfl⟩ := exists_cons_of_head? hstar
      obtain ⟨body, rest, rfl, hend⟩ := exists_split commentLength_le rest
      simp only [List.drop_succ_cons, List.drop_zero, hend, Nat.add_comm 2, List.take_succ_cons, List.take_left,
        List.drop_left]
      exact .comment hend
  next hcomment =>
  split
  · next hspace =>
      have hne : (c :: rest).takeWhile isSpace ≠ [] := by simp [List.takeWhile_cons_of_pos hspace]
      have hall : ∀ d ∈ (c :: rest).takeWhile isSpace, isSpace d = true := fun d hd => List.mem_takeWhile_imp hd
      have hafter : ((c :: rest).dropWhile isSpace).head?.any isSpace = false := by
        have hhead := List.head?_dropWhile_not isSpace (c :: rest)
        cases hdrop : ((c :: rest).dropWhile isSpace).head? with
        | none => rfl
        | some d => simpa [hdrop] using hhead
      have hsplit := (List.takeWhile_append_dropWhile (p := isSpace) (l := c :: rest)).symm
      generalize (c :: rest).takeWhile isSpace = text at hne hall hsplit ⊢
      generalize (c :: rest).dropWhile isSpace = after at hafter hsplit
      rw [hsplit, List.take_left, List.drop_left]
      exact .whitespace hne hall hafter
  next hspace =>
  split
  · next hquote =>
      obtain ⟨body, rest, rfl, hend⟩ := exists_split (stringLength_le c) rest
      simp only [hend, Nat.add_comm 1, List.take_succ_cons, List.drop_succ_cons, List.take_left, List.drop_left]
      exact .string hquote hend
  next hquote =>
  split
  · next hhash =>
      obtain rfl : c = '#' := by simpa using hhash
      split
      · next hstart =>
          obtain ⟨name, rest, rfl, hend⟩ := exists_split nameLength_le rest
          simp only [hend, Nat.add_comm 1, List.take_succ_cons, List.drop_succ_cons, List.take_left, List.drop_left]
          refine .hash ?_ hend
          rintro rfl
          rw [nameLength_eq_zero_iff.mp hend] at hstart
          cases hstart
      · next hstart =>
          refine .lone (c := '#') rfl ⟨by simp, rfl, rfl, fun _ => ?_, rfl, by simp, rfl, rfl⟩
          exact nameLength_eq_zero_iff.mpr (by simpa using hstart)
  next hhash =>
  split
  · next hnumber => exact reads_numeric hnumber
  next hnumber =>
  split
  · next hclose =>
      obtain ⟨rest, hsplit⟩ := List.isPrefixOf_iff_prefix.mp hclose
      rw [← hsplit]
      exact .markupClose
  next hclose =>
  split
  · next hat =>
      obtain rfl : c = '@' := by simpa using hat
      split
      · next hstart =>
          obtain ⟨name, rest, rfl, hend⟩ := exists_split nameLength_le rest
          simp only [hend, Nat.add_comm 1, List.take_succ_cons, List.drop_succ_cons, List.take_left, List.drop_left]
          exact .atKeyword hstart hend
      · next hstart =>
          exact .lone (c := '@') rfl ⟨by simp, rfl, rfl, by simp, rfl, fun _ => by simpa using hstart, rfl, rfl⟩
  next hat =>
  split
  · next hopen =>
      obtain ⟨rest, hsplit⟩ := List.isPrefixOf_iff_prefix.mp hopen
      rw [← hsplit]
      exact .markupOpen
  next hopen =>
  split
  · next hident => exact reads_identLike hident (Bool.eq_false_iff.mpr hclose)
  · next hident =>
      refine .lone rfl ⟨by simpa using hcomment, by simpa using hspace, by simpa using hquote, ?_,
        by simpa using hnumber, ?_, Bool.eq_false_iff.mpr hopen, by simpa using hident⟩
      · rintro rfl
        exact absurd rfl hhash
      · rintro rfl
        exact absurd rfl hat

/-- Where a name starts, only the end of a comment in markup can stand instead. -/
theorem extent_of_startsIdent {c : Char} {rest : List Char} (h : startsIdent (c :: rest) = true)
    (hmarkup : ['-', '-', '>'].isPrefixOf (c :: rest) = false) : extent c rest = identLike (c :: rest) := by
  have hne : ∀ d, startsIdent (d :: rest) = false → c ≠ d := by
    rintro d hd rfl
    rw [h] at hd
    cases hd
  have hspace : isSpace c = false := by
    simp only [isSpace, Bool.or_eq_false_iff, beq_eq_false_iff_ne]
    exact ⟨⟨⟨⟨hne _ rfl, hne _ rfl⟩, hne _ rfl⟩, hne _ rfl⟩, hne _ rfl⟩
  have hopen : ['<', '!', '-', '-'].isPrefixOf (c :: rest) = false := by
    simp [List.isPrefixOf, (hne '<' rfl).symm]
  simp only [extent, hspace, isQuote, startsNumber_of_startsIdent h, hmarkup, hopen, h]
  simp [hne '/' rfl, hne '"' rfl, hne '\'' rfl, hne '#' rfl, hne '@' rfl]

/-- A name before a parenthesis is no end of a comment in markup. -/
theorem isPrefixOf_of_paren {name rest : List Char} (hend : nameLength (name ++ '(' :: rest) = name.length) :
    ['-', '-', '>'].isPrefixOf (name ++ '(' :: rest) = false := by
  rw [Bool.eq_false_iff]
  intro hmarkup
  obtain ⟨tail, hsplit⟩ := List.isPrefixOf_iff_prefix.mp hmarkup
  have hdashes : nameLength (['-', '-'] ++ ('>' :: tail)) = 2 := by
    rw [nameLength_append (List.all_eq_true.mp rfl), nameLength_of_endsName rfl]
    rfl
  have hlength : name.length = 2 := hend.symm.trans ((congrArg nameLength hsplit.symm).trans hdashes)
  obtain ⟨a, b, rfl⟩ := List.length_eq_two.mp hlength
  cases hsplit

/-- A text that is read as a token is what its scanner covers. -/
theorem Reads.extent_eq {kind : TokenKind} {text rest : List Char} (h : Reads kind text rest) {c : Char}
    {cs : List Char} (htext : text = c :: cs) : extent c (cs ++ rest) = (kind, text.length) := by
  have hcons : c :: (cs ++ rest) = text ++ rest := by rw [htext, List.cons_append]
  cases h with
  | comment hend =>
      cases htext
      simp [extent, hend, Nat.add_comm 2]
  | whitespace hne hall hrest =>
      have hspace : isSpace c = true := hall c (by simp [htext])
      have hlength : ((c :: (cs ++ rest)).takeWhile isSpace).length = text.length := by
        rw [hcons, List.takeWhile_append_of_pos hall]
        cases rest with
        | nil => simp
        | cons d rest => simp [List.takeWhile_cons_of_neg (by simpa using hrest)]
      have hslash : (c == '/') = false := by
        rw [beq_eq_false_iff_ne]
        rintro rfl
        cases hspace
      simp only [extent, hspace, hslash, Bool.false_and, if_true, hlength]
      rfl
  | string hquote hend =>
      cases htext
      have hc : c = '"' ∨ c = '\'' := by simpa [isQuote] using hquote
      rcases hc with rfl | rfl <;> simp [extent, isSpace, isQuote, hend, Nat.add_comm 1]
  | hash hne hend =>
      cases htext
      have hstart : ((cs ++ rest).head?.any continuesName || startsEscape (cs ++ rest)) = true := by
        rw [← Bool.not_eq_false, ← nameLength_eq_zero_iff.not, hend]
        simpa using hne
      simp only [extent, hstart, hend]
      simp [isSpace, isQuote, Nat.add_comm 1]
  | number hstart hend hunit hpercent =>
      rw [← hcons] at hstart
      rw [extent_of_startsNumber hstart, hcons]
      simp [numeric, hend, hunit, hpercent]
  | @percentage number rest hstart hend =>
      rw [List.append_assoc] at hcons
      change _ = number ++ '%' :: rest at hcons
      rw [← hcons] at hstart
      rw [extent_of_startsNumber hstart, hcons]
      have hunit : startsIdent ('%' :: rest) = false := rfl
      simp [numeric, hend, hunit]
  | @dimension number unit rest hstart hend hunit hname =>
      rw [List.append_assoc] at hcons
      rw [← hcons] at hstart
      rw [extent_of_startsNumber hstart, hcons]
      simp [numeric, hend, hunit, hname]
  | markupClose =>
      cases htext
      rfl
  | markupOpen =>
      cases htext
      rfl
  | atKeyword hstart hend =>
      cases htext
      simp only [extent, hstart, hend]
      simp [isSpace, isQuote, startsNumber, startsFraction, Nat.add_comm 1]
  | ident hstart hmarkup hend hparen =>
      rw [← hcons] at hstart hmarkup
      rw [extent_of_startsIdent hstart hmarkup, hcons]
      simp only [identLike, hend, List.drop_left]
      split
      · exact absurd rfl hparen
      · rfl
  | @function name rest hstart hend hurl =>
      rw [List.append_assoc] at hcons
      change _ = name ++ '(' :: rest at hcons
      have hmarkup := isPrefixOf_of_paren hend
      rw [← hcons] at hstart hmarkup
      rw [extent_of_startsIdent hstart hmarkup, hcons]
      simp only [identLike, hend, List.drop_left, List.take_left]
      rw [if_neg]
      · simp
      · simpa using hurl
  | @url name address rest hstart hend hurl hquote haddress =>
      rw [List.append_assoc, List.cons_append] at hcons
      have hmarkup := isPrefixOf_of_paren hend
      rw [← hcons] at hstart hmarkup
      rw [extent_of_startsIdent hstart hmarkup, hcons]
      simp only [identLike, hend, List.drop_left, List.take_left, hurl, hquote]
      simp [haddress]
      omega
  | lone hkind hlone =>
      cases hkind
      cases htext
      obtain ⟨hcomment, hspace, hquote, hhash, hnumber, hat, hmarkup, hident⟩ := hlone
      have hclose : ['-', '-', '>'].isPrefixOf (c :: rest) = false := by
        rw [Bool.eq_false_iff]
        intro hprefix
        obtain ⟨tail, hsplit⟩ := List.isPrefixOf_iff_prefix.mp hprefix
        rw [← hsplit] at hident
        cases hident
      by_cases hsharp : c = '#'
      · subst hsharp
        have hnone := nameLength_eq_zero_iff.mp (hhash rfl)
        simp only [extent, List.nil_append, hnone]
        rfl
      · by_cases hsign : c = '@'
        · subst hsign
          simp only [extent, List.nil_append, hat rfl]
          rfl
        · simp only [extent, List.nil_append, hspace, hquote, hnumber, hclose, hmarkup, hident]
          simp [hcomment, hsharp, hsign]

theorem Reads.ne_nil {kind : TokenKind} {text rest : List Char} (h : Reads kind text rest) : text ≠ [] := by
  cases h with
  | whitespace hne => exact hne
  | number hstart hend =>
      rintro rfl
      exact absurd hend (numberLength_pos hstart).ne'
  | @dimension text unit rest hstart hend hunit hname =>
      refine List.append_ne_nil_of_right_ne_nil _ fun hnil => ?_
      subst hnil
      exact absurd hname (nameLength_pos hunit).ne'
  | ident hstart hmarkup hend =>
      rintro rfl
      exact absurd hend (nameLength_pos hstart).ne'
  | _ => simp

/-- Only trivia start with a space. -/
theorem Reads.head?_isSpace {kind : TokenKind} {text old : List Char} (h : Reads kind text old)
    (hkind : kind.isTrivia = false) (rest : List Char) : (text ++ rest).head?.any isSpace = false := by
  cases htext : text with
  | nil => exact absurd htext h.ne_nil
  | cons c cs =>
      have hextent := h.extent_eq htext
      rw [List.cons_append, List.head?_cons, Option.any_some, Bool.eq_false_iff]
      intro hc
      have hslash : (c == '/') = false := by
        rw [beq_eq_false_iff_ne]
        rintro rfl
        cases hc
      simp only [extent, hslash, Bool.false_and, hc, if_true, Bool.false_eq_true, if_false] at hextent
      rw [← (Prod.mk.inj hextent).1] at hkind
      cases hkind

theorem Reads.stands {t : Token} {rest : List Char} (h : Reads t.kind t.text.toList rest) : Stands [t] rest := by
  obtain ⟨c, cs, htext⟩ := List.exists_cons_of_ne_nil h.ne_nil
  refine stands_of_extent htext ?_
  rw [h.extent_eq htext, htext, List.length_cons, Nat.add_comm]

/-- The first token of a text, and what follows it. -/
theorem reads_of_tokens {s : List Char} {t : Token} {ts : List Token} (h : tokens s = t :: ts) :
    ∃ rest, s = t.text.toList ++ rest ∧ tokens rest = ts ∧ Reads t.kind t.text.toList rest := by
  cases s with
  | nil =>
      rw [tokens] at h
      cases h
  | cons c s =>
      rw [tokens_cons] at h
      obtain ⟨rfl, rfl⟩ := List.cons.inj h
      refine ⟨_, ?_, rfl, ?_⟩
      · rw [String.toList_ofList, List.take_append_drop]
      · rw [String.toList_ofList]
        exact reads_extent c s

theorem toList_tokenSource (ts : List Token) : (Token.source ts).toList = chars ts := by
  rw [Token.source, Text.toList_concat, List.flatMap_map]
  rfl

/-- Tokens read from a text are read again from where they start. -/
theorem tokens_of_append {s : List Char} {us ts : List Token} (h : tokens s = us ++ ts) :
    s = chars us ++ chars ts ∧ tokens (chars ts) = ts := by
  induction us generalizing s with
  | nil =>
      have hs : chars ts = s := by
        rw [chars, ← flatMap_tokens s, h]
        rfl
      exact ⟨hs.symm, by rw [hs]; exact h⟩
  | cons u us ih =>
      obtain ⟨rest, rfl, hrest, -⟩ := reads_of_tokens h
      obtain ⟨rfl, hagain⟩ := ih hrest
      exact ⟨by simp [chars], hagain⟩

end Lexer

end CssMinify
