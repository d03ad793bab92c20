import CssMinify.Proofs.Token.Behind

/-!
Words that something follows. A word that is a token by itself is one before a colon, a mark or the end of its text,
and before a space unless it ends in an escape, which takes the space. A backslash and digits behind it are a part of
the word, or a name of their own behind a percent sign; and what they take behind them is one space at most.
-/

namespace CssMinify

open Lexer

/-- The kinds of names and of numbers with whatever unit. -/
def TokenKind.isWord : TokenKind → Bool
  | ident | number | percentage | dimension => true
  | _ => false

theorem TokenKind.isPlain_of_isWord {kind : TokenKind} (h : kind.isWord = true) : kind.isPlain = true := by
  cases kind <;> first | rfl | cases h

theorem TokenKind.isTrivia_of_isWord {kind : TokenKind} (h : kind.isWord = true) : kind.isTrivia = false := by
  cases kind <;> first | rfl | cases h

namespace Lexer

theorem mayLackEnd_of_isWord {kind : TokenKind} (h : kind.isWord = true) : mayLackEnd kind = false := by
  cases kind <;> first | rfl | cases h

theorem isLoneKind_of_isWord {kind : TokenKind} (h : kind.isWord = true) : isLoneKind kind = false := by
  cases kind <;> first | rfl | cases h

section Following

variable {kind : TokenKind} {text old new : List Char}

/-- No single sign is a word. -/
theorem Reads.ne_slash_of_isWord (h : Reads kind text old) (hkind : kind.isWord = true) : text ≠ ['\\'] := by
  rintro rfl
  have hlone := h.isLone (.inr (.inl rfl))
  rw [h.kind_eq hlone] at hkind
  cases hkind

/-- What a text starts with that goes on with no word: the colon behind a name, a space or a mark. -/
def endsWord (c : Char) : Bool := c == ':' || c == ' ' || c == '!'

theorem calmer_of_endsWord (hnew : new.head?.all endsWord = true) (hmarkup : ¬ ['!', '-', '-'] <+: new) :
    Calmer old new := by
  cases new with
  | nil => exact calmer_of_isPrefix List.nil_prefix
  | cons c new =>
      have hc : c = ':' ∨ c = ' ' ∨ c = '!' := by simpa [endsWord, or_assoc] using hnew
      have hname : nameLength (c :: new) = 0 := by
        rcases hc with rfl | rfl | rfl <;> exact nameLength_eq_zero_iff.mpr rfl
      have hsign : c ∉ ['%', '(', '*'] ∧ c ≠ '-' := by
        rcases hc with rfl | rfl | rfl <;> exact ⟨by decide, by decide⟩
      refine ⟨fun _ => hname, fun _ => ?_, fun _ => ?_, fun _ => ?_, fun d hd hhead => ?_, fun hdashes => ?_,
        fun h => absurd h hmarkup⟩
      · rcases hc with rfl | rfl | rfl <;> rfl
      · rcases hc with rfl | rfl | rfl <;> rfl
      · rcases hc with rfl | rfl | rfl <;> rfl
      · rw [List.head?_cons, Option.some_inj] at hhead
        exact absurd (hhead ▸ hd) hsign.1
      · exact absurd (List.cons_prefix_cons.mp hdashes).1.symm hsign.2

/-- A word is read before whatever goes on with no word, and before a space if the old text starts with one or the word
does not end in an escape. -/
theorem Reads.before (h : Reads kind text old) (hkind : kind.isWord = true) (hnew : new.head?.all endsWord = true)
    (hmarkup : ¬ ['!', '-', '-'] <+: new)
    (hspace : new.head?.any isSpace = true → old.head?.any isSpace = true ∨ endsInEscape text = false) :
    Reads kind text new := by
  refine h.replace_of_closed (fun hopen => ?_) ⟨calmer_of_endsWord hnew hmarkup, fun hhead => ⟨?_, hspace hhead⟩,
    fun htext => absurd htext (h.ne_slash_of_isWord hkind), fun _ hclose => ?_, fun _ _ hexponent => ?_,
    fun hfunction => ?_⟩
  · rw [mayLackEnd_of_isWord hkind] at hopen
    cases hopen
  · rintro rfl
    cases hkind
  · rw [hclose] at hnew
    cases hnew
  · unfold Lexer.startsExponent at hexponent
    split at hexponent
    · cases hnew
    · cases hexponent
  · rw [hfunction] at hkind
    cases hkind

/-- A token at the start of a text is read before the tokens behind it. -/
theorem reads_of_tokenize {s : String} {t : Token} {ts : List Token} (h : tokenize s = t :: ts) :
    Reads t.kind t.text.toList (chars ts) := by
  obtain ⟨rest, -, hrest, hreads⟩ := reads_of_tokens h
  rwa [chars, ← hrest, flatMap_tokens]

end Following

end Lexer

/-- The tokens of a word with an ending that starts with a backslash. -/
def Token.withEnding (word : Token) (ending : String) : List Token :=
  match word.kind with
  | .percentage => [word, ⟨.ident, ending⟩]
  | .number => [⟨.dimension, word.text ++ ending⟩]
  | kind => [⟨kind, word.text ++ ending⟩]

theorem Token.chars_withEnding (word : Token) (ending : String) :
    chars (word.withEnding ending) = (word.text ++ ending).toList := by
  rw [withEnding]
  split <;> simp [chars]

theorem Token.isWord_withEnding {word : Token} (hkind : word.kind.isWord = true) (ending : String) :
    ∀ t ∈ word.withEnding ending, t.kind.isWord = true := by
  rw [withEnding]
  split
  · exact List.forall_mem_cons.mpr ⟨hkind, by simp [TokenKind.isWord]⟩
  · simp [TokenKind.isWord]
  · simpa using hkind

theorem Token.withEnding_ne_nil (word : Token) (ending : String) : word.withEnding ending ≠ [] := by
  rw [withEnding]
  split <;> simp

namespace Lexer

section Endings

variable {tail rest : List Char}

/-- A word goes on with a backslash and what it escapes. -/
theorem stands_withEnding {word : Token} (hkind : word.kind.isWord = true) (h : Reads word.kind word.text.toList [])
    (hslash : startsEscape ('\\' :: (tail ++ rest)) = true)
    (hname : nameLength ('\\' :: (tail ++ rest)) = tail.length + 1) (hparen : rest.head? ≠ some '(') :
    Stands (word.withEnding (String.ofList ('\\' :: tail))) rest := by
  obtain ⟨kind, text⟩ := word
  have hstart : startsIdent ('\\' :: (tail ++ rest)) = true := by
    rw [startsIdent_of_ne (by decide), hslash, Bool.or_true]
  have hnumber := digit_of_startsNumber (startsNumber_of_startsIdent hstart)
  have hends {name : List Char} (hend : nameLength (name ++ []) = name.length) :
      nameLength (name ++ ('\\' :: (tail ++ rest))) = (name ++ '\\' :: tail).length := by
    rw [(isNameBefore_of_nameLength hend).nameLength_append rfl (fun hspace => by cases hspace), hname,
      List.length_append, List.length_cons]
  generalize hchars : text.toList = s at h
  cases h with
  | @ident name _ hident hmarkup hend =>
      refine Reads.stands (t := ⟨.ident, _⟩) ?_
      rw [String.toList_append, hchars, String.toList_ofList]
      refine .ident ?_ ?_ ?_ hparen
      · rw [List.append_assoc]
        exact (isNameBefore_of_nameLength hend).startsIdent hident _
      · rw [Bool.eq_false_iff] at hmarkup ⊢
        intro hclose
        rw [List.append_assoc] at hclose
        exact hmarkup (isPrefixOf_append (fun _ hhead => by cases hhead) hident hend hclose)
      · rw [List.append_assoc]
        exact hends hend
  | number hstart' hend =>
      refine Reads.stands (t := ⟨.dimension, _⟩) ?_
      rw [String.toList_append, hchars, String.toList_ofList]
      have hne : s ≠ [] := by
        rintro rfl
        exact absurd hend (numberLength_pos hstart').ne'
      refine .dimension (startsNumber_replace hstart' hend _) ?_ hstart hname
      exact numberLength_replace hne hend hnumber.1 (fun _ => hnumber.2) fun _ => rfl
  | @dimension number unit _ hstart' hend hunit hend' =>
      refine Reads.stands (t := ⟨.dimension, _⟩) ?_
      rw [String.toList_append, hchars, String.toList_ofList, List.append_assoc]
      have hne : number ≠ [] := by
        rintro rfl
        exact absurd hend (numberLength_pos hstart').ne'
      have hunitne : unit ≠ [] := by
        rintro rfl
        exact absurd hend' (nameLength_pos hunit).ne'
      have hunit' := (isNameBefore_of_nameLength hend').startsIdent hunit ('\\' :: (tail ++ rest))
      have hdigit := digit_of_startsNumber (startsNumber_of_startsIdent hunit')
      refine .dimension (startsNumber_replace hstart' hend _) ?_ ?_ ?_
      · rw [List.append_assoc]
        refine numberLength_replace hne hend hdigit.1 (fun _ => hdigit.2) fun hold => ?_
        exact exponentLength_unit hunitne rfl (fun _ _ _ hexponent => by cases hexponent) hold
      · rw [List.append_assoc]
        exact hunit'
      · rw [List.append_assoc]
        exact hends hend'
  | @percentage number _ hstart' hend =>
      have hne : number ≠ [] := by
        rintro rfl
        exact absurd hend (numberLength_pos hstart').ne'
      refine Stands.cons (Reads.stands (t := ⟨.percentage, text⟩) ?_) (Reads.stands (t := ⟨.ident, _⟩) ?_)
      · rw [hchars]
        exact .percentage (startsNumber_replace hstart' hend _)
          (numberLength_replace hne hend rfl (fun _ => rfl) fun _ => rfl)
      · rw [String.toList_ofList]
        exact .ident hstart rfl hname hparen
  | lone hlone => exact absurd hlone (single_ne (isLoneKind_of_isWord hkind))
  | _ => cases hkind

/-- How far a suffix goes, and the space that its escape takes. -/
theorem nameLength_suffix {ds closing : List Char} (hds : IsSuffix ('\\' :: ds))
    (hclosing : closing = [' '] ∨ closing = [] ∧ rest.head?.any isSpace = false) (hrest : nameLength rest = 0) :
    startsEscape ('\\' :: ((ds ++ closing) ++ rest)) = true ∧
      nameLength ('\\' :: ((ds ++ closing) ++ rest)) = (ds ++ closing).length + 1 := by
  have hslash := startsEscape_of_isSuffix hds (closing ++ rest)
  rw [List.cons_append, ← List.append_assoc] at hslash
  refine ⟨hslash, ?_⟩
  obtain ⟨hne, hlength, hall⟩ := hds
  have hhex : ∀ c ∈ (closing ++ rest).head?, Text.isHexDigit c = false := by
    have hnone := not_isHexDigit_of_nameLength hrest
    rcases hclosing with rfl | ⟨rfl, -⟩
    · rintro c ⟨⟩
      rfl
    · intro c hc
      rw [List.nil_append, Option.mem_def] at hc
      rwa [hc] at hnone
  have hescape := escapeLength_digits hne hlength hall hhex
  have htaken : (if (closing ++ rest).head?.any isSpace = true then 1 else 0) = closing.length := by
    rcases hclosing with rfl | ⟨rfl, hnone⟩
    · rfl
    · rw [List.nil_append, hnone]
      rfl
  rw [htaken, ← List.append_assoc] at hescape
  have hlong : escapeLength ('\\' :: (ds ++ closing) ++ rest) = ('\\' :: (ds ++ closing)).length := by
    rw [List.cons_append, hescape, List.length_cons, List.length_append]
    omega
  rw [← List.cons_append] at hslash ⊢
  rw [nameLength_escape hslash hlong, hrest, Nat.add_zero, List.length_cons]

end Endings

end Lexer

end CssMinify
