import CssMinify.Proofs.Printing.Words
import CssMinify.Sheet.DeclarationParser
import CssMinify.Sheet.Printer

/-!
Values that read back. A value is printed with one space between its words and none around separators, and
nothing fuses: the components of the tokens are the words, also if the last word has a suffix.
-/

namespace CssMinify

open Lexer

namespace TokenKind

/-- The kinds of tokens in a plain value. -/
def isInline : TokenKind → Bool
  | whitespace | comma => true
  | delim c => c == '/'
  | kind => kind.isPlain

end TokenKind

/-- A word that reads back in front of one of `stops`. -/
structure Word.IsSolid (stops : List Char) (w : String) : Prop where
  ne_empty : w ≠ ""
  plain : ∀ t ∈ tokenize w, t.kind.isPlain = true
  apart : Apart stops (tokenize w)

namespace Word

theorem isSolid_of_hasWordTokens {stops : List Char} {w : String} (hne : w ≠ "") (h : HasWordTokens stops w.toList) :
    IsSolid stops w := by
  obtain ⟨ts, hchars, hplain, hapart⟩ := h
  have htokens := hapart.tokenize_eq hchars.symm
  exact ⟨hne, htokens ▸ hplain, htokens ▸ hapart⟩

theorem toList_ne_nil {w : String} (h : w ≠ "") : w.toList ≠ [] := by
  intro hnil
  exact h (String.toList_inj.mp hnil)

theorem IsSolid.isPlain_extent {stops : List Char} {w : String} (h : IsSolid stops w) {c : Char} {rest : List Char}
    (hw : w.toList = c :: rest) : (extent c rest).1.isPlain = true := by
  have hplain := h.plain
  rw [tokenize, hw, tokens] at hplain
  exact hplain _ List.mem_cons_self

/-- A word starts neither with a space nor with an asterisk. -/
theorem IsSolid.head?_ne {stops : List Char} {w : String} (h : IsSolid stops w) {c : Char} {rest : List Char}
    (hw : w.toList = c :: rest) : isSpace c = false ∧ c ≠ '*' := by
  have hplain := h.isPlain_extent hw
  constructor
  · rw [Bool.eq_false_iff]
    intro hspace
    have hslash : c ≠ '/' := by
      rintro rfl
      cases hspace
    simp [extent, hslash, hspace, TokenKind.isPlain] at hplain
  · rintro rfl
    have hstar : (extent '*' rest).1.isPlain = false := rfl
    rw [hstar] at hplain
    cases hplain

theorem isSeparator_iff {w : String} : isSeparator w = true ↔ w = "," ∨ w = "/" := by
  simp [isSeparator]

theorem IsSolid.not_isSeparator {stops : List Char} {w : String} (h : IsSolid stops w) : isSeparator w = false := by
  rw [Bool.eq_false_iff]
  intro hsep
  rcases isSeparator_iff.mp hsep with rfl | rfl
  · exact absurd (h.isPlain_extent (c := ',') rfl) (by decide)
  · exact absurd (h.isPlain_extent (c := '/') rfl) (by decide)

end Word

namespace Value

/-- The tokens of the rest of a value, after the word `previous`. -/
def tokensAfter (previous : String) : Value → List Token
  | [] => []
  | w :: rest =>
    (if isSeparator w || isSeparator previous then [] else [Token.space]) ++ (tokenize w ++ tokensAfter w rest)

/-- The tokens of a value as it is printed. -/
def tokens : Value → List Token
  | [] => []
  | w :: rest => tokenize w ++ tokensAfter w rest

theorem chars_tokensAfter (previous : String) (value : Value) :
    chars (tokensAfter previous value) = (printAfter previous value).toList := by
  induction value generalizing previous with
  | nil => rfl
  | cons w rest ih =>
      rw [tokensAfter, printAfter, chars_append, chars_append, chars_tokenize, ih]
      split <;> simp [chars, Token.space]

/-- The first word stands as one after a separator does. -/
theorem tokens_eq (value : Value) : tokens value = tokensAfter "," value := by
  cases value with
  | nil => rfl
  | cons w rest =>
      have hcomma : isSeparator "," = true := rfl
      rw [tokens, tokensAfter, hcomma, Bool.or_true, if_pos rfl, List.nil_append]

theorem chars_tokens (value : Value) : chars (tokens value) = (print value).toList := by
  cases value with
  | nil => rfl
  | cons w rest => rw [tokens, print, chars_append, chars_tokenize, chars_tokensAfter, String.toList_append]

/-- Every word is solid, where what ends the value follows the last one. -/
def IsSolid : Value → Prop
  | [] => True
  | w :: rest =>
    (isSeparator w = true ∨ Word.IsSolid (if rest.isEmpty then valueStops else wordStops) w) ∧ IsSolid rest

theorem tokenize_comma : tokenize "," = [⟨.comma, ","⟩] := Stands.tokenize_eq rfl (stands_single rfl rfl)

theorem tokenize_slash : tokenize "/" = [⟨.delim '/', "/"⟩] := Stands.tokenize_eq rfl (stands_single rfl rfl)

/-- A separator reads back unless a comment starts with it. -/
theorem stands_separator {w : String} (hw : isSeparator w = true) {rest : List Char}
    (hrest : rest.head?.all (· != '*') = true) : Stands (tokenize w) rest := by
  rcases Word.isSeparator_iff.mp hw with rfl | rfl
  · rw [tokenize_comma]
    exact stands_single rfl rfl
  · have hcomment : (rest.head? == some '*') = false := by
      cases rest with
      | nil => rfl
      | cons c rest => simpa using hrest
    rw [tokenize_slash]
    refine stands_single (c := '/') rfl ?_
    simp only [extent, hcomment]
    rfl

section Standing

variable {rest : List Char} (hrest : rest.head?.all valueStops.contains = true)

include hrest

/-- What follows a word of a value. -/
theorem head?_tokensAfter (previous : String) {value : Value} (h : value.IsSolid) :
    (chars (tokensAfter previous value) ++ rest).head?.all
      (if isSeparator previous then (· != '*') else wordStops.contains) = true := by
  cases value with
  | nil => split <;> exact all_of_stops hrest (by decide)
  | cons w value =>
      rw [tokensAfter, chars_append, chars_append, chars_tokenize]
      rcases h.1 with hw | hw
      · rw [hw, Bool.true_or, if_pos rfl]
        rcases Word.isSeparator_iff.mp hw with rfl | rfl
        · split <;> rfl
        · split <;> rfl
      · rw [hw.not_isSeparator, Bool.false_or]
        split
        · cases hchars : w.toList with
          | nil => exact absurd hchars (Word.toList_ne_nil hw.ne_empty)
          | cons c cs => simpa [chars] using (hw.head?_ne hchars).2
        · rfl

/-- A word before the rest of its value. -/
theorem stands_word {w : String} {value : Value} (h : IsSolid (w :: value)) :
    Stands (tokenize w) (chars (tokensAfter w value) ++ rest) := by
  have hafter := head?_tokensAfter hrest w h.2
  rcases h.1 with hw | hw
  · rw [if_pos hw] at hafter
    exact stands_separator hw hafter
  · rw [if_neg (by simp [hw.not_isSeparator])] at hafter
    apply hw.apart
    cases value with
    | nil => exact hrest
    | cons v value => exact hafter

theorem stands_tokensAfter (previous : String) {value : Value} (h : value.IsSolid) :
    Stands (tokensAfter previous value) rest := by
  induction value generalizing previous with
  | nil => exact Stands.nil
  | cons w value ih =>
      rw [tokensAfter]
      have hword := Stands.append (stands_word hrest h) (ih w h.2)
      refine Stands.append ?_ hword
      split
      · exact Stands.nil
      · next hsep =>
          have hw := h.1.resolve_left (by simp_all)
          refine stands_space ?_
          rw [chars_append, chars_tokenize]
          cases hchars : w.toList with
          | nil => exact absurd hchars (Word.toList_ne_nil hw.ne_empty)
          | cons c cs => exact (hw.head?_ne hchars).1

/-- A value reads back in front of what ends it. -/
theorem stands_tokens {value : Value} (h : value.IsSolid) : Stands (tokens value) rest := by
  rw [tokens_eq]
  exact stands_tokensAfter hrest "," h

end Standing

section Reading

theorem ofTokensAfter_plain {ts more : List Token} (h : ∀ t ∈ ts, t.kind.isPlain = true) (current : String) :
    ofTokensAfter current (ts ++ more) = ofTokensAfter (current ++ Token.source ts) more := by
  induction ts generalizing current with
  | nil => simp [Token.source, Text.concat]
  | cons t ts ih =>
      have ht := h t List.mem_cons_self
      have hkind : t.isTrivia = false ∧ t.kind ≠ .comma ∧ t.kind ≠ .delim '/' ∧ t.kind.opensGroup = false := by
        rw [Token.isTrivia]
        cases hk : t.kind <;> simp_all [TokenKind.isPlain, TokenKind.isTrivia, TokenKind.opensGroup]
      obtain ⟨htrivia, hcomma, hslash, hgroup⟩ := hkind
      rw [List.cons_append, ofTokensAfter, if_neg (by simp [htrivia]), if_neg (by simpa using hcomma),
        if_neg (by simpa using hslash), if_neg (by simp [hgroup]), ih fun u hu => h u (List.mem_cons_of_mem t hu),
        String.append_assoc]
      rfl

/-- The component that a word leaves open. -/
def openWord (w : String) : String := if isSeparator w then "" else w

theorem ofTokensAfter_tokensAfter (previous : String) {value : Value} (h : value.IsSolid) :
    ofTokensAfter (openWord previous) (tokensAfter previous value) = flush (openWord previous) ++ value := by
  induction value generalizing previous with
  | nil => simp [tokensAfter, ofTokensAfter]
  | cons w value ih =>
      have hih := ih w h.2
      rcases h.1 with hw | hw
      · have hopen : openWord w = "" := if_pos hw
        rw [hopen] at hih
        rw [tokensAfter, hw, Bool.true_or, if_pos rfl, List.nil_append]
        rcases Word.isSeparator_iff.mp hw with rfl | rfl
        · rw [tokenize_comma, List.singleton_append, ofTokensAfter]
          simp [hih, flush, Token.isTrivia, TokenKind.isTrivia]
        · rw [tokenize_slash, List.singleton_append, ofTokensAfter]
          simp [hih, flush, Token.isTrivia, TokenKind.isTrivia]
      · have hopen : openWord w = w := if_neg (by simp [hw.not_isSeparator])
        have hflush : flush w = [w] := if_neg (by simpa using hw.ne_empty)
        rw [hopen, hflush] at hih
        have hword : ofTokensAfter "" (tokenize w ++ tokensAfter w value) = w :: value := by
          rw [ofTokensAfter_plain hw.plain, source_tokenize, String.empty_append, hih, List.singleton_append]
        rw [tokensAfter, hw.not_isSeparator, Bool.false_or]
        cases hprevious : isSeparator previous with
        | true =>
            rw [if_pos rfl, List.nil_append, openWord, if_pos hprevious, hword]
            rfl
        | false =>
            rw [if_neg (by simp), List.singleton_append, ofTokensAfter, hword]
            rfl

/-- The components of the tokens of a value are its words. -/
theorem ofTokens_tokens {value : Value} (h : value.IsSolid) : ofTokens (tokens value) = value :=
  calc
    ofTokens (tokens value) = ofTokensAfter (openWord ",") (tokensAfter "," value) := by rw [tokens_eq]; rfl
    _ = flush (openWord ",") ++ value := ofTokensAfter_tokensAfter "," h
    _ = value := rfl

end Reading

section Kinds

theorem isInline_of_isPlain {kind : TokenKind} (h : kind.isPlain = true) : kind.isInline = true := by
  cases kind <;> first | exact h | rfl | cases h

theorem isInline_of_mem {previous : String} {value : Value} (h : value.IsSolid) :
    ∀ t ∈ tokensAfter previous value, t.kind.isInline = true := by
  induction value generalizing previous with
  | nil => simp [tokensAfter]
  | cons w value ih =>
      intro t ht
      rw [tokensAfter, List.mem_append, List.mem_append] at ht
      rcases ht with ht | ht | ht
      · split at ht
        · cases ht
        · rw [List.mem_singleton.mp ht]
          rfl
      · rcases h.1 with hw | hw
        · rcases Word.isSeparator_iff.mp hw with rfl | rfl
          · rw [tokenize_comma, List.mem_singleton] at ht
            rw [ht]
            rfl
          · rw [tokenize_slash, List.mem_singleton] at ht
            rw [ht]
            rfl
        · exact isInline_of_isPlain (hw.plain t ht)
      · exact ih h.2 t ht

theorem tokenize_ne_nil {w : String} (h : w ≠ "") : tokenize w ≠ [] := by
  intro hnil
  have hchars := chars_tokenize w
  rw [hnil] at hchars
  exact Word.toList_ne_nil h hchars.symm

/-- The tokens of a word are no trivia. -/
theorem isTrivia_of_mem_tokenize {stops : List Char} {w : String} (hw : isSeparator w = true ∨ Word.IsSolid stops w)
    {t : Token} (ht : t ∈ tokenize w) : t.isTrivia = false := by
  rcases hw with hw | hw
  · rcases Word.isSeparator_iff.mp hw with rfl | rfl
    · rw [tokenize_comma, List.mem_singleton] at ht
      rw [ht]
      rfl
    · rw [tokenize_slash, List.mem_singleton] at ht
      rw [ht]
      rfl
  · have hplain := hw.plain t ht
    rw [Token.isTrivia]
    cases hkind : t.kind <;> first | rfl | (rw [hkind] at hplain; cases hplain)

end Kinds

section Ends

theorem trimEnds_eq_self {α : Type} {p : α → Bool} {l : List α} (hhead : ∀ a ∈ l.head?, p a = false)
    (hlast : ∀ a ∈ l.getLast?, p a = false) : trimEnds p l = l := by
  have hdrop : ∀ {l : List α}, (∀ a ∈ l.head?, p a = false) → l.dropWhile p = l := by
    intro l hl
    cases l with
    | nil => rfl
    | cons a l => exact List.dropWhile_cons_of_neg (by simp [hl a rfl])
  rw [trimEnds, hdrop hhead, hdrop (by rwa [List.head?_reverse]), List.reverse_reverse]

theorem ne_empty_of_isWord {stops : List Char} {w : String} (hw : isSeparator w = true ∨ Word.IsSolid stops w) :
    w ≠ "" := by
  rcases hw with hw | hw
  · rintro rfl
    cases hw
  · exact hw.ne_empty

theorem tokens_ne_nil {value : Value} (h : value.IsSolid) (hne : value ≠ []) : tokens value ≠ [] := by
  cases value with
  | nil => exact absurd rfl hne
  | cons w value => exact List.append_ne_nil_of_left_ne_nil (tokenize_ne_nil (ne_empty_of_isWord h.1)) _

/-- The words at the ends of a value have no trivia around them. -/
theorem isTrivia_head? {value : Value} (h : value.IsSolid) : ∀ t ∈ (tokens value).head?, t.isTrivia = false := by
  cases value with
  | nil => simp [tokens]
  | cons w value =>
      intro t ht
      obtain ⟨u, us, hcons⟩ := List.exists_cons_of_ne_nil (tokenize_ne_nil (ne_empty_of_isWord h.1))
      rw [tokens, hcons] at ht
      obtain rfl : u = t := Option.some.inj ht
      exact isTrivia_of_mem_tokenize h.1 (hcons ▸ List.mem_cons_self)

theorem isTrivia_getLast? {previous : String} {value : Value} (h : value.IsSolid) :
    ∀ t ∈ (tokensAfter previous value).getLast?, t.isTrivia = false := by
  induction value generalizing previous with
  | nil => simp [tokensAfter]
  | cons w value ih =>
      intro t ht
      rw [tokensAfter, ← List.append_assoc, List.getLast?_append] at ht
      cases hlast : (tokensAfter w value).getLast? with
      | some u =>
          rw [hlast, Option.some_or] at ht
          exact ih h.2 t (hlast.trans ht)
      | none =>
          have hne := tokenize_ne_nil (ne_empty_of_isWord h.1)
          rw [hlast, Option.none_or, List.getLast?_append, List.getLast?_eq_some_getLast hne, Option.some_or] at ht
          obtain rfl : (tokenize w).getLast hne = t := Option.some.inj ht
          exact isTrivia_of_mem_tokenize h.1 (List.getLast_mem hne)

end Ends

section Suffix

/-- The value with a suffix at its end. After a separator the suffix is a word of its own. -/
def withSuffix (digits : String) : Value → Value
  | [] => ["\\" ++ digits]
  | [w] => if isSeparator w then [w, "\\" ++ digits] else [w ++ ("\\" ++ digits)]
  | w :: rest => w :: withSuffix digits rest

theorem withSuffix_ne_nil (digits : String) (value : Value) : withSuffix digits value ≠ [] := by
  rw [withSuffix.eq_def]
  split
  · simp
  · split <;> simp
  · simp

theorem not_isSeparator_of_mem {w : String} (h : '\\' ∈ w.toList) : isSeparator w = false := by
  rw [Bool.eq_false_iff]
  intro hw
  rcases Word.isSeparator_iff.mp hw with rfl | rfl <;> exact absurd h (by decide)

theorem printAfter_withSuffix (digits previous : String) {value : Value} (hne : value ≠ []) :
    printAfter previous (withSuffix digits value) = printAfter previous value ++ ("\\" ++ digits) := by
  fun_induction withSuffix digits value generalizing previous with
  | case1 => exact absurd rfl hne
  | case2 w hw => simp [printAfter, hw]
  | case3 w hw =>
      have hsuffix : isSeparator (w ++ ("\\" ++ digits)) = false := not_isSeparator_of_mem (by simp)
      simp [printAfter, hw, hsuffix, String.append_assoc]
  | case4 w rest hrest ih =>
      rw [printAfter, printAfter, ih w (by simpa using hrest)]
      simp [String.append_assoc]

theorem print_eq (value : Value) : print value = printAfter "," value := by
  cases value with
  | nil => rfl
  | cons w rest =>
      have hcomma : isSeparator "," = true := rfl
      rw [print, printAfter, hcomma, Bool.or_true, if_pos rfl, String.empty_append]

theorem print_withSuffix (digits : String) {value : Value} (hne : value ≠ []) :
    print (withSuffix digits value) = print value ++ ("\\" ++ digits) := by
  rw [print_eq, print_eq, printAfter_withSuffix digits "," hne]

theorem takeSuffix_cons (w v : String) (rest : Value) :
    takeSuffix (w :: v :: rest) = (w :: (takeSuffix (v :: rest)).1, (takeSuffix (v :: rest)).2) := by
  rw [takeSuffix, takeSuffix, List.getLast?_cons_cons]
  split <;> rfl

theorem cutSuffix?_append {digits : String} (hsuffix : IsSuffix ("\\" ++ digits).toList) (stem : String) :
    cutSuffix? (stem ++ ("\\" ++ digits)) = some (stem, digits) := by
  have hchars : ("\\" ++ digits).toList = '\\' :: digits.toList := by simp
  rw [hchars] at hsuffix
  obtain ⟨hne, hlength, hds⟩ := hsuffix
  have hspan : (stem ++ ("\\" ++ digits)).toList.reverse.span (· != '\\')
      = (digits.toList.reverse, '\\' :: stem.toList.reverse) := by
    have hall : ∀ c ∈ digits.toList.reverse, (c != '\\') = true := by
      intro c hc
      simpa using isDigit_ne (hds c (List.mem_reverse.mp hc)) rfl
    rw [List.span_eq_takeWhile_dropWhile, String.toList_append, hchars, List.reverse_append, List.reverse_cons,
      List.append_assoc, List.takeWhile_append_of_pos hall, List.dropWhile_append_of_pos hall]
    simp
  have hdigits : digits.toList.reverse.all Char.isDigit = true := by simpa [AreDigits] using hds
  rw [cutSuffix?, hspan]
  simp [hne, hlength, hdigits]

/-- What is cut off is the last backslash of a token with one or two digits behind it. -/
theorem cutSuffix?_eq_some_iff {token stem digits : String} :
    cutSuffix? token = some (stem, digits) ↔ token = stem ++ ("\\" ++ digits) ∧ IsSuffix ("\\" ++ digits).toList := by
  constructor
  · intro h
    simp only [cutSuffix?] at h
    split at h
    · next ds c rest hspan =>
        rw [List.span_eq_takeWhile_dropWhile, Prod.mk.injEq] at hspan
        obtain ⟨hds, hrest⟩ := hspan
        split at h
        case isFalse => cases h
        next hguard =>
        cases h
        have hc : c = '\\' := by
          have hhead := List.head?_dropWhile_not (· != '\\') token.toList.reverse
          rw [hrest] at hhead
          simpa using hhead
        have hsplit := List.takeWhile_append_dropWhile (p := (· != '\\')) (l := token.toList.reverse)
        rw [hds, hrest, hc] at hsplit
        simp only [Bool.and_eq_true, Bool.not_eq_true', List.isEmpty_eq_false_iff, decide_eq_true_eq,
          List.all_eq_true] at hguard
        refine ⟨?_, ?_⟩
        · rw [← String.toList_inj, ← List.reverse_reverse token.toList, ← hsplit]
          simp
        · simp only [String.toList_append, String.toList_ofList]
          exact .intro (by simpa using hguard.1.1) (by simpa using hguard.1.2) fun d hd =>
            hguard.2 d (List.mem_reverse.mp hd)
    · cases h
  · rintro ⟨rfl, hsuffix⟩
    exact cutSuffix?_append hsuffix stem

theorem takeSuffix_withSuffix {digits : String} (hsuffix : IsSuffix ("\\" ++ digits).toList) {value : Value}
    (hne : value ≠ []) (hwords : ∀ w ∈ value, w ≠ "") :
    takeSuffix (withSuffix digits value) = (value, some digits) := by
  fun_induction withSuffix digits value with
  | case1 => exact absurd rfl hne
  | case2 w hw =>
      have hcut := cutSuffix?_append hsuffix ""
      rw [String.empty_append] at hcut
      simp [takeSuffix, hcut]
  | case3 w hw =>
      have hstem : w ≠ "" := hwords w List.mem_cons_self
      simp [takeSuffix, cutSuffix?_append hsuffix w, hstem]
  | case4 w rest hrest ih =>
      have hne : rest ≠ [] := by simpa using hrest
      have hih := ih hne fun v hv => hwords v (List.mem_cons_of_mem w hv)
      obtain ⟨v, more, hcons⟩ := List.exists_cons_of_ne_nil (withSuffix_ne_nil digits rest)
      rw [hcons] at hih ⊢
      rw [takeSuffix_cons, hih]

theorem takeSuffix_eq_none {value : Value} (h : ∀ w ∈ value, '\\' ∉ w.toList) : takeSuffix value = (value, none) := by
  have hnone : value.getLast?.bind cutSuffix? = none := by
    cases hlast : value.getLast? with
    | none => rfl
    | some w =>
        have hw : ∀ c ∈ w.toList.reverse, (c != '\\') = true := by
          intro c hc
          rw [bne_iff_ne]
          rintro rfl
          exact h w (List.mem_of_getLast? hlast) (List.mem_reverse.mp hc)
        rw [Option.bind_some, cutSuffix?, List.span_eq_takeWhile_dropWhile, List.dropWhile_eq_nil_iff.mpr hw]
  rw [takeSuffix, hnone]

end Suffix

section Plain

/-- Every token is a plain word or a separator. -/
def IsPlain (value : Value) : Prop := ∀ w ∈ value, isSeparator w = true ∨ IsWord w.toList

theorem ne_empty_of_isPlain {value : Value} (h : value.IsPlain) : ∀ w ∈ value, w ≠ "" := by
  rintro w hw rfl
  rcases h _ hw with hsep | hword
  · cases hsep
  · exact hword.ne_nil rfl

theorem escape_not_mem_of_isPlain {value : Value} (h : value.IsPlain) : ∀ w ∈ value, '\\' ∉ w.toList := by
  intro w hw
  rcases h w hw with hsep | hword
  · rcases Word.isSeparator_iff.mp hsep with rfl | rfl <;> decide
  · exact hword.escape_not_mem

theorem isSolid_of_isWord {w : String} (h : IsWord w.toList) : Word.IsSolid wordStops w := by
  have htokens := h.hasWordTokens isTail_nil
  rw [List.append_nil] at htokens
  exact Word.isSolid_of_hasWordTokens (fun hw => h.ne_nil (by rw [hw]; rfl)) htokens

theorem IsPlain.isSolid {value : Value} (h : value.IsPlain) : value.IsSolid := by
  induction value with
  | nil => trivial
  | cons w value ih =>
      refine ⟨(h w List.mem_cons_self).imp_right fun hw => ?_, ih fun v hv => h v (List.mem_cons_of_mem w hv)⟩
      have hsolid := isSolid_of_isWord hw
      split
      · exact ⟨hsolid.ne_empty, hsolid.plain, hsolid.apart.mono (by decide)⟩
      · exact hsolid

theorem IsPlain.isSolid_withSuffix {digits : String} (hsuffix : IsSuffix ("\\" ++ digits).toList) {value : Value}
    (h : value.IsPlain) : (withSuffix digits value).IsSolid := by
  have htail := isTail_suffix hsuffix
  have hne : ∀ w : String, w ++ ("\\" ++ digits) ≠ "" := by
    intro w hw
    have hchars := congrArg String.toList hw
    simp at hchars
  have halone : Word.IsSolid valueStops ("\\" ++ digits) :=
    Word.isSolid_of_hasWordTokens (by simp) htail.hasWordTokens
  fun_induction withSuffix digits value with
  | case1 => exact ⟨.inr halone, trivial⟩
  | case2 w hw => exact ⟨.inl hw, .inr halone, trivial⟩
  | case3 w hw =>
      have htokens := ((h w List.mem_cons_self).resolve_left hw).hasWordTokens htail
      rw [← String.toList_append] at htokens
      exact ⟨.inr (Word.isSolid_of_hasWordTokens (hne w) htokens), trivial⟩
  | case4 w rest hrest ih =>
      have hcons : (withSuffix digits rest).isEmpty = false := by simp [withSuffix_ne_nil]
      refine ⟨(h w List.mem_cons_self).imp_right fun hw => ?_, ih fun v hv => h v (List.mem_cons_of_mem w hv)⟩
      rw [hcons]
      exact isSolid_of_isWord hw

end Plain

end Value

end CssMinify
