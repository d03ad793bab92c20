import CssMinify.Proofs.Token.Following
import CssMinify.Sheet.Spacing

/-!
What may come to stand behind a token. A token is read from its own text and a look at what follows; as long as the
new text behind it invites it to nothing that the old one did not (`Calmer`), it is read as before, with the few
exceptions that `Suits` names. So it is at the end of a stretch that is cut out of a text, and so it is where white
space is dropped in front of a sign or a closing bracket, or written in place of a comment.
-/

namespace CssMinify

namespace Lexer

section Looking

variable {old new : List Char}

/-- A new text that offers to what stands before it nothing that the old one does not. -/
structure Calmer (old new : List Char) : Prop where
  name : nameLength old = 0 → nameLength new = 0
  ident : startsIdent old = false → startsIdent new = false
  digit : startsWithDigit old = false → startsWithDigit new = false
  fraction : startsFraction old = false → startsFraction new = false
  sign : ∀ c ∈ ['%', '(', '*'], new.head? = some c → old.head? = some c
  dashes : ['-', '-'] <+: new → ['-', '-'] <+: old
  markup : ['!', '-', '-'] <+: new → ['!', '-', '-'] <+: old

theorem startsEscape_of_isPrefix (h : new <+: old) (hslash : startsEscape new = true) : startsEscape old = true := by
  obtain ⟨more, rfl⟩ := h
  match new with
  | [] => cases hslash
  | [c] =>
      rw [startsEscape] at hslash
      · cases hslash
      · simp
  | c :: d :: s => rwa [List.cons_append, List.cons_append, startsEscape_cons_cons, ← startsEscape_cons_cons c d s]

theorem startsIdent_of_isPrefix (h : new <+: old) (hstart : startsIdent new = true) : startsIdent old = true := by
  obtain ⟨more, rfl⟩ := h
  match new with
  | [] => cases hstart
  | c :: s =>
      by_cases hdash : c = '-'
      · subst hdash
        cases s with
        | nil => cases hstart
        | cons d s =>
            simp only [List.cons_append, startsIdent_dash, Bool.or_eq_true] at hstart ⊢
            exact hstart.imp_right (startsEscape_of_isPrefix (List.prefix_append (d :: s) more))
      · rw [List.cons_append, startsIdent_of_ne hdash, Bool.or_eq_true]
        rw [startsIdent_of_ne hdash, Bool.or_eq_true] at hstart
        exact hstart.imp_right (startsEscape_of_isPrefix (List.prefix_append (c :: s) more))

theorem startsFraction_of_isPrefix (h : new <+: old) (hpoint : startsFraction new = true) :
    startsFraction old = true := by
  obtain ⟨more, rfl⟩ := h
  unfold startsFraction at hpoint
  split at hpoint
  · next s =>
      cases s with
      | nil => cases hpoint
      | cons d s => exact hpoint
  · cases hpoint

/-- The beginning of a text offers no more than the whole. -/
theorem calmer_of_isPrefix (h : new <+: old) : Calmer old new := by
  have hhead : new = [] ∨ new.head? = old.head? := by
    obtain ⟨more, rfl⟩ := h
    cases new with
    | nil => exact .inl rfl
    | cons c s => exact .inr rfl
  have hany : ∀ {p : Char → Bool}, old.head?.any p = false → new.head?.any p = false := by
    intro p hp
    rcases hhead with rfl | heq
    · rfl
    · rwa [heq]
  constructor
  case name =>
    simp only [nameLength_eq_zero_iff, Bool.or_eq_false_iff]
    rintro ⟨hname, hescape⟩
    refine ⟨hany hname, ?_⟩
    rw [Bool.eq_false_iff] at hescape ⊢
    exact fun hslash => hescape (startsEscape_of_isPrefix h hslash)
  case ident =>
    intro hident
    rw [Bool.eq_false_iff] at hident ⊢
    exact fun hstart => hident (startsIdent_of_isPrefix h hstart)
  case digit => exact hany
  case fraction =>
    intro hfraction
    rw [Bool.eq_false_iff] at hfraction ⊢
    exact fun hpoint => hfraction (startsFraction_of_isPrefix h hpoint)
  case sign =>
    intro c _ hc
    rcases hhead with rfl | heq
    · cases hc
    · rw [← heq, hc]
  case dashes => exact fun hdashes => hdashes.trans h
  case markup => exact fun hmarkup => hmarkup.trans h

/-- The characters that go on with no token before them. -/
def isQuiet (c : Char) : Bool :=
  c == ' ' || c == ')' || c == ',' || c == ']' || Spacing.isJoint c

theorem calmer_of_isQuiet (h : new.head?.all isQuiet = true) : Calmer old new := by
  cases new with
  | nil => exact calmer_of_isPrefix List.nil_prefix
  | cons c s =>
      have hc : c = ' ' ∨ c = ')' ∨ c = ',' ∨ c = ']' ∨ c = '>' ∨ c = '+' ∨ c = '~' ∨ c = '=' := by
        simpa [isQuiet, Spacing.isJoint, or_assoc] using h
      rcases hc with rfl | rfl | rfl | rfl | rfl | rfl | rfl | rfl <;>
        exact ⟨fun _ => nameLength_eq_zero_iff.mpr rfl, fun _ => rfl, fun _ => rfl, fun _ => rfl, by simp, by simp,
          by simp⟩

end Looking

section Tokens

variable {kind : TokenKind} {text old new : List Char}

/-- A plus sign and a digit, with which a number goes on behind the letter of its exponent. -/
def startsExponent : List Char → Bool
  | '+' :: rest => startsWithDigit rest
  | _ => false

/-- The new text can stand behind a token in place of the old one. -/
structure Suits (kind : TokenKind) (text old new : List Char) : Prop where
  calm : Calmer old new
  /-- White space goes on with white space, and with an escape by its number. -/
  space : new.head?.any isSpace = true →
    kind ≠ .whitespace ∧ (old.head?.any isSpace = true ∨ endsInEscape text = false)
  slash : text = ['\\'] → startsEscape ('\\' :: old) = false → startsEscape ('\\' :: new) = false
  close : text = ['-', '-'] → new.head? = some '>' → old.head? = some '>'
  exponent : kind = .dimension → text.getLast? = some 'e' ∨ text.getLast? = some 'E' → startsExponent new = true →
    startsExponent old = true
  quote : kind = .function → (old.dropWhile isSpace).head?.any isQuote = true →
    (new.dropWhile isSpace).head?.any isQuote = true

theorem Suits.isNameBefore (front : List Char) {name : List Char} (h : Suits kind (front ++ name) old new)
    (hname : nameLength (name ++ old) = name.length) : IsNameBefore new name := by
  have hbefore := isNameBefore_of_nameLength hname
  refine hbefore.replace (h.calm.name hbefore.nameLength_rest) fun hspace => ?_
  exact (h.space hspace).2.imp_right (endsInEscape_of_append front)

/-- A name before its parenthesis ends there, whatever is in it. -/
theorem isNameBefore_paren {name : List Char} (hname : nameLength (name ++ '(' :: old) = name.length)
    (new : List Char) : IsNameBefore ('(' :: new) name :=
  (isNameBefore_of_nameLength hname).replace (nameLength_eq_zero_iff.mpr rfl) fun hspace => by cases hspace

theorem exponentLength_eq_zero_of_startsIdent {s : List Char} (h : startsIdent s = false) : exponentLength s = 0 := by
  cases s with
  | nil => rfl
  | cons c s =>
      simp only [exponentLength]
      rw [if_neg]
      rw [Bool.and_eq_true, Bool.or_eq_true, beq_iff_eq, beq_iff_eq]
      rintro ⟨rfl | rfl, -⟩ <;> cases h

theorem startsWithDigit_of_nameLength {s : List Char} (h : nameLength s = 0) : startsWithDigit s = false := by
  have hhead := head?_of_nameLength_eq_zero h
  cases s with
  | nil => rfl
  | cons c s =>
      rw [Bool.eq_false_iff] at hhead ⊢
      intro hc
      exact hhead (by simp [continuesName, show c.isDigit = true from hc])

/-- A unit gets no exponent out of the new text, if that does not go on with a single letter. -/
theorem exponentLength_unit {unit : List Char} (hne : unit ≠ []) (hdigit : startsWithDigit new = false)
    (hsigned : ∀ c, unit = [c] → c = 'e' ∨ c = 'E' → startsWithDigit (new.drop (signLength new)) = true →
      startsWithDigit (old.drop (signLength old)) = true)
    (hold : exponentLength (unit ++ old) = 0) : exponentLength (unit ++ new) = 0 := by
  have hstep : ∀ (c : Char) (s : List Char), exponentLength (c :: s) = 0
      ↔ ¬ ((c = 'e' ∨ c = 'E') ∧ startsWithDigit (s.drop (signLength s)) = true) := by
    intro c s
    simp only [exponentLength]
    split
    · next hexponent =>
        rw [Bool.and_eq_true, Bool.or_eq_true, beq_iff_eq, beq_iff_eq] at hexponent
        exact iff_of_false (by omega) (not_not.mpr hexponent)
    · next hexponent =>
        rw [Bool.and_eq_true, Bool.or_eq_true, beq_iff_eq, beq_iff_eq] at hexponent
        exact iff_of_true rfl hexponent
  obtain ⟨c, unit, rfl⟩ := List.exists_cons_of_ne_nil hne
  cases unit with
  | nil =>
      rw [List.singleton_append, hstep] at hold ⊢
      rintro ⟨hc, hexponent⟩
      exact hold ⟨hc, hsigned c rfl hc hexponent⟩
  | cons d unit =>
      simp only [List.cons_append] at hold ⊢
      rw [hstep] at hold ⊢
      rintro ⟨hc, hexponent⟩
      refine hold ⟨hc, ?_⟩
      by_cases hd : (d == '+' || d == '-') = true
      · simp only [signLength, if_pos hd, List.drop_one, List.tail_cons] at hexponent ⊢
        cases unit with
        | nil =>
            rw [List.nil_append, hdigit] at hexponent
            cases hexponent
        | cons e unit => exact hexponent
      · simp only [signLength, if_neg hd, List.drop_zero] at hexponent ⊢
        exact hexponent

theorem Suits.exponentLength {number unit : List Char} (h : Suits .dimension (number ++ unit) old new)
    (hne : unit ≠ []) (hname : nameLength (unit ++ old) = unit.length) (hold : exponentLength (unit ++ old) = 0) :
    exponentLength (unit ++ new) = 0 := by
  have hnew := h.calm.name (isNameBefore_of_nameLength hname).nameLength_rest
  have hdigit := startsWithDigit_of_nameLength hnew
  refine exponentLength_unit hne hdigit (fun c hunit hc hexponent => ?_) hold
  -- The letter is the whole unit, so the sign and the digit would have to come from the text behind it.
  have hplus : startsExponent new = true := by
    cases new with
    | nil => cases hexponent
    | cons d s =>
        by_cases hd : d = '+'
        · subst hd
          exact hexponent
        · have hdash : d ≠ '-' := by
            rintro rfl
            cases head?_of_nameLength_eq_zero hnew
          rw [signLength, if_neg (by simp [hd, hdash]), List.drop_zero, hdigit] at hexponent
          cases hexponent
  have hletter : (number ++ unit).getLast? = some 'e' ∨ (number ++ unit).getLast? = some 'E' := by
    rw [hunit, List.getLast?_concat, Option.some_inj, Option.some_inj]
    exact hc
  have hbefore := h.exponent rfl hletter hplus
  unfold startsExponent at hbefore
  split at hbefore
  · exact hbefore
  · cases hbefore

theorem addressLength_spaces {spaces : List Char} (hspaces : ∀ c ∈ spaces, isSpace c = true) (s : List Char) :
    addressLength (spaces ++ s) = spaces.length + addressLength s := by
  induction spaces with
  | nil => simp
  | cons c spaces ih =>
      have hc : isSpace c = true := hspaces c List.mem_cons_self
      have hparen : (c == ')') = false := by
        rw [beq_eq_false_iff_ne]
        rintro rfl
        cases hc
      have hescape : startsEscape (c :: (spaces ++ s)) = false := by
        rw [Bool.eq_false_iff]
        intro hslash
        obtain rfl := eq_of_startsEscape hslash
        cases hc
      rw [List.cons_append, addressLength, hparen, hescape, ih fun d hd => hspaces d (List.mem_cons_of_mem c hd)]
      simp only [Bool.false_eq_true, if_false, List.length_cons]
      omega

/-- An address has something besides white space in it, its parenthesis at least. -/
theorem dropWhile_address {address : List Char} (hend : addressLength (address ++ old) = address.length)
    (hold : old ≠ []) (s : List Char) :
    ((address ++ s).dropWhile isSpace).head? = (address.dropWhile isSpace).head? := by
  have hsome : address.dropWhile isSpace ≠ [] := by
    intro hnil
    have hspaces : ∀ c ∈ address, isSpace c = true := List.dropWhile_eq_nil_iff.mp hnil
    rw [addressLength_spaces hspaces] at hend
    have hpos := addressLength_pos hold
    omega
  rw [List.dropWhile_append, if_neg (by simpa using hsome), List.head?_append_of_ne_nil _ hsome]

/-- A character is a token of its own before the new text, too. -/
theorem IsLone.replace {c : Char} (h : IsLone c old) (hsuits : Suits kind [c] old new) : IsLone c new := by
  have hcalm := hsuits.calm
  constructor
  case comment => exact fun ⟨hslash, hstar⟩ => h.comment ⟨hslash, hcalm.sign '*' (by simp) hstar⟩
  case space => exact h.space
  case quote => exact h.quote
  case hash => exact fun hc => hcalm.name (h.hash hc)
  case number =>
    have hold := h.number
    rw [startsNumber] at hold ⊢
    split at hold
    · next hsign =>
        rw [if_pos hsign, Bool.or_eq_false_iff]
        rw [Bool.or_eq_false_iff] at hold
        exact ⟨hcalm.digit hold.1, hcalm.fraction hold.2⟩
    · next hsign =>
        rw [if_neg hsign, Bool.or_eq_false_iff]
        rw [Bool.or_eq_false_iff] at hold
        refine ⟨hold.1, ?_⟩
        by_cases hpoint : c = '.'
        · subst hpoint
          exact hcalm.digit hold.2
        · rw [startsFraction]
          rintro rest heq
          exact hpoint (List.cons.inj heq).1
  case atKeyword => exact fun hc => hcalm.ident (h.atKeyword hc)
  case markup =>
    rw [Bool.eq_false_iff]
    intro hopen
    have hsplit := List.cons_prefix_cons.mp (List.isPrefixOf_iff_prefix.mp hopen)
    have hold := List.isPrefixOf_iff_prefix.mpr (List.cons_prefix_cons.mpr ⟨hsplit.1, hcalm.markup hsplit.2⟩)
    rw [h.markup] at hold
    cases hold
  case ident =>
    have hold := h.ident
    by_cases hdash : c = '-'
    · subst hdash
      rw [Bool.eq_false_iff]
      intro hstart
      -- Whatever would go on with the hyphen did so before, unless it was a digit.
      have hname : nameLength old ≠ 0 := fun hzero => nameLength_of_startsIdent_dash hstart (hcalm.name hzero)
      rw [Ne, nameLength_eq_zero_iff, Bool.not_eq_false, Bool.or_eq_true] at hname
      cases old with
      | nil => simp [startsEscape] at hname
      | cons d s =>
          have hnumber := h.number
          rw [startsIdent_dash, Bool.or_eq_false_iff, Bool.or_eq_false_iff] at hold
          simp only [startsNumber, startsWithDigit, List.head?_cons, Option.any_some] at hnumber hname
          simp [continuesName, hold] at hname
          simp [hname] at hnumber
    · rw [startsIdent_of_ne hdash, Bool.or_eq_false_iff] at hold ⊢
      refine ⟨hold.1, ?_⟩
      rw [Bool.eq_false_iff]
      intro hslash
      obtain rfl := eq_of_startsEscape hslash
      rw [hsuits.slash rfl hold.2] at hslash
      cases hslash

/-- Where no number starts there is neither a digit nor a fraction. -/
theorem digit_of_startsNumber {s : List Char} (h : startsNumber s = false) :
    startsWithDigit s = false ∧ startsFraction s = false := by
  cases s with
  | nil => exact ⟨rfl, rfl⟩
  | cons c s =>
      by_cases hc : (c == '+' || c == '-') = true
      · have hsign : c = '+' ∨ c = '-' := by simpa using hc
        rcases hsign with rfl | rfl <;> exact ⟨rfl, rfl⟩
      · rwa [startsNumber, if_neg hc, Bool.or_eq_false_iff] at h

/-- A name of two hyphens makes no end of a comment in markup out of the new text. -/
theorem isPrefixOf_append {name : List Char} (hbehind : name = ['-', '-'] → new.head? = some '>' → old.head? = some '>')
    (hstart : startsIdent (name ++ old) = true) (hend : nameLength (name ++ old) = name.length)
    (hclose : ['-', '-', '>'].isPrefixOf (name ++ new) = true) :
    ['-', '-', '>'].isPrefixOf (name ++ old) = true := by
  obtain ⟨tail, hsplit⟩ := List.isPrefixOf_iff_prefix.mp hclose
  match name with
  | [] => exact absurd hend (nameLength_pos hstart).ne'
  | [c] =>
      cases hsplit
      have hdash : continuesName '-' = true := rfl
      have hone : nameLength ('-' :: old) = 1 := hend
      rw [nameLength, if_pos hdash] at hone
      have hnone : nameLength old = 0 := by omega
      exact absurd hnone (nameLength_of_startsIdent_dash hstart)
  | [c, d] =>
      cases hsplit
      obtain ⟨rest, rfl⟩ := exists_cons_of_head? (hbehind rfl rfl)
      rfl
  | c :: d :: e :: name =>
      cases hsplit
      rfl

/-- The kinds of token that may lack their end where the text ends. -/
def mayLackEnd : TokenKind → Bool
  | .comment | .string | .url => true
  | _ => false

/-- A token that has its end is read before the new text as it is before the old one. -/
theorem Reads.replace_of_closed (h : Reads kind text old) (hclosed : mayLackEnd kind = true → old ≠ [])
    (hsuits : Suits kind text old new) : Reads kind text new := by
  have hcalm := hsuits.calm
  cases h with
  | comment hend => exact .comment (commentLength_replace hend (hclosed rfl) new)
  | whitespace hne hall hrest =>
      refine .whitespace hne hall ?_
      rw [Bool.eq_false_iff]
      intro hspace
      exact (hsuits.space hspace).1 rfl
  | string hquote hend => exact .string hquote (stringLength_replace hend (hclosed rfl) new)
  | @hash name _ hne hend => exact .hash hne (hsuits.isNameBefore ['#'] hend).nameLength_eq
  | number hstart hend hunit hpercent =>
      have hne : text ≠ [] := by
        rintro rfl
        exact absurd hend (numberLength_pos hstart).ne'
      have hdigit := startsWithDigit_drop_numberLength (text ++ old)
      rw [hend, List.drop_left] at hdigit
      refine .number (startsNumber_replace hstart hend new) ?_ (hcalm.ident hunit) fun hhead => ?_
      · exact numberLength_replace hne hend (hcalm.digit hdigit) hcalm.fraction
          fun _ => exponentLength_eq_zero_of_startsIdent (hcalm.ident hunit)
      · exact hpercent (hcalm.sign '%' (by simp) hhead)
  | @percentage number _ hstart hend =>
      have hne : number ≠ [] := by
        rintro rfl
        exact absurd hend (numberLength_pos hstart).ne'
      exact .percentage (startsNumber_replace hstart hend _)
        (numberLength_replace hne hend rfl (fun _ => rfl) fun _ => rfl)
  | @dimension number unit _ hstart hend hunit hname =>
      have hne : number ≠ [] := by
        rintro rfl
        exact absurd hend (numberLength_pos hstart).ne'
      have hunitne : unit ≠ [] := by
        rintro rfl
        exact absurd hname (nameLength_pos hunit).ne'
      have hbefore := hsuits.isNameBefore number hname
      have hunit' := (isNameBefore_of_nameLength hname).startsIdent hunit new
      have hnumber := digit_of_startsNumber (startsNumber_of_startsIdent hunit')
      refine .dimension (startsNumber_replace hstart hend _) ?_ hunit' hbefore.nameLength_eq
      exact numberLength_replace hne hend hnumber.1 (fun _ => hnumber.2) (hsuits.exponentLength hunitne hname)
  | markupClose => exact .markupClose
  | markupOpen => exact .markupOpen
  | @atKeyword name _ hstart hend =>
      exact .atKeyword ((isNameBefore_of_nameLength hend).startsIdent hstart new)
        (hsuits.isNameBefore ['@'] hend).nameLength_eq
  | ident hstart hmarkup hend hparen =>
      refine .ident ((isNameBefore_of_nameLength hend).startsIdent hstart new) ?_
        (hsuits.isNameBefore [] hend).nameLength_eq fun hhead => hparen (hcalm.sign '(' (by simp) hhead)
      rw [Bool.eq_false_iff] at hmarkup ⊢
      exact fun hclose => hmarkup (isPrefixOf_append hsuits.close hstart hend hclose)
  | @function name _ hstart hend hurl =>
      refine .function ((isNameBefore_of_nameLength hend).startsIdent hstart _)
        (isNameBefore_paren hend new).nameLength_eq fun hname => hsuits.quote rfl (hurl hname)
  | @url name address _ hstart hend hurl hquote haddress =>
      refine .url ((isNameBefore_of_nameLength hend).startsIdent hstart _)
        (isNameBefore_paren hend _).nameLength_eq hurl ?_ (addressLength_replace haddress (hclosed rfl) new)
      rw [dropWhile_address haddress (hclosed rfl)] at hquote ⊢
      exact hquote
  | lone hkind hlone => exact .lone hkind (hlone.replace hsuits)

/-- A token before some text is read before the new text as it is before the old one. -/
theorem Reads.replace (h : Reads kind text old) (hold : old ≠ []) (hsuits : Suits kind text old new) :
    Reads kind text new :=
  h.replace_of_closed (fun _ => hold) hsuits

/-- The first of some tokens, and the others. -/
theorem reads_of_stands {t : Token} {ts : List Token} {rest : List Char} (h : Stands (t :: ts) rest) :
    Reads t.kind t.text.toList (chars ts ++ rest) ∧ Stands ts rest := by
  have hstands : tokens (chars (t :: ts) ++ rest) = t :: (ts ++ tokens rest) := h
  obtain ⟨more, hsplit, hmore, hreads⟩ := reads_of_tokens hstands
  have htext : chars (t :: ts) ++ rest = t.text.toList ++ (chars ts ++ rest) := by
    rw [chars, List.flatMap_cons, List.append_assoc]
    rfl
  obtain rfl : chars ts ++ rest = more := List.append_cancel_left (htext.symm.trans hsplit)
  exact ⟨hreads, hmore⟩

/-- The length of a token follows from its first character and the text behind it. -/
theorem Reads.length_eq {c : Char} {cs : List Char} (h : Reads kind (c :: cs) old) :
    (extent c (cs ++ old)).2 = cs.length + 1 := by
  rw [h.extent_eq rfl, List.length_cons]

theorem numberLength_le_numeric (s : List Char) : numberLength s ≤ (numeric s).2 := by
  simp only [numeric]
  split
  · omega
  · split <;> omega

theorem nameLength_le_identLike (s : List Char) : nameLength s ≤ (identLike s).2 := by
  simp only [identLike]
  split
  · split <;> simp only <;> omega
  · exact Nat.le_refl _

/-- A sign, a backslash and a point are read alone or as the beginning of something longer. -/
theorem Reads.isLone {c : Char} (h : Reads kind [c] old) (hc : c = '-' ∨ c = '\\' ∨ c = '.' ∨ c = '+') :
    IsLone c old := by
  have hlength : (extent c old).2 = 1 := h.length_eq
  have hnumber : startsNumber (c :: old) = false := by
    rw [Bool.eq_false_iff]
    intro hstart
    have hle := numberLength_le_numeric (c :: old)
    have hpos := numberLength_pos hstart
    rw [← extent_of_startsNumber hstart, hlength] at hle
    have hstart' : startsNumber ([c] ++ old) = true := hstart
    have hone : startsNumber ([c] ++ []) = true := startsNumber_replace hstart' (Nat.le_antisymm hle hpos) []
    rcases hc with rfl | rfl | rfl | rfl <;> cases hone
  have hident : startsIdent (c :: old) = false := by
    rw [Bool.eq_false_iff]
    intro hstart
    by_cases hmarkup : ['-', '-', '>'].isPrefixOf (c :: old) = true
    · obtain ⟨rest, hsplit⟩ := List.isPrefixOf_iff_prefix.mp hmarkup
      cases hsplit
      cases hlength
    · have hle := nameLength_le_identLike (c :: old)
      have hpos := nameLength_pos hstart
      rw [← extent_of_startsIdent hstart (Bool.eq_false_iff.mpr hmarkup), hlength] at hle
      have hbefore : IsNameBefore old [c] := isNameBefore_of_nameLength (Nat.le_antisymm hle hpos)
      have hone : startsIdent ([c] ++ []) = true := hbefore.startsIdent hstart []
      rcases hc with rfl | rfl | rfl | rfl <;> cases hone
  rcases hc with rfl | rfl | rfl | rfl <;> exact ⟨by simp, rfl, rfl, by simp, hnumber, by simp, rfl, hident⟩

/-- A hyphen and a backslash are no token of two characters. -/
theorem Reads.ne_dash_slash (h : Reads kind text old) : text ≠ ['-', '\\'] := by
  rintro rfl
  have hlength : (extent '-' ('\\' :: old)).2 = 2 := h.length_eq
  by_cases hstart : startsIdent ('-' :: '\\' :: old) = true
  · have hle := nameLength_le_identLike ('-' :: '\\' :: old)
    rw [← extent_of_startsIdent hstart rfl, hlength] at hle
    have hname : startsName '\\' = false := rfl
    have hescape : startsEscape ('\\' :: old) = true := by simpa [startsIdent_dash, hname] using hstart
    have htwo := two_le_escapeLength hescape
    have hdash : continuesName '-' = true := rfl
    have hslash : continuesName '\\' = false := rfl
    rw [nameLength, if_pos hdash, nameLength, hslash, if_neg (by simp), if_pos hescape] at hle
    dsimp only at hle
    omega
  · have hnumber : startsNumber ('-' :: '\\' :: old) = false := rfl
    simp [extent, isSpace, isQuote, hnumber, hstart] at hlength

/-- A token of one character has the kind that the character has. -/
theorem Reads.kind_eq {c : Char} (h : Reads kind [c] old) (hlone : IsLone c old) : kind = single c := by
  have hkind := h.extent_eq rfl
  rw [(Reads.lone rfl hlone).extent_eq rfl] at hkind
  exact (Prod.mk.inj hkind).1.symm

/-- An exclamation mark and a closing angle are always read alone. -/
theorem Reads.eq_single {c : Char} {cs : List Char} (h : Reads kind (c :: cs) old) (hc : c = '!' ∨ c = '>') :
    cs = [] ∧ kind = .delim c := by
  have hextent : extent c (cs ++ old) = (.delim c, 1) := by rcases hc with rfl | rfl <;> rfl
  rw [h.extent_eq rfl, List.length_cons] at hextent
  obtain ⟨hkind, hlength⟩ := Prod.mk.inj hextent
  exact ⟨List.eq_nil_of_length_eq_zero (by omega), hkind⟩

/-- A text that starts with the same token offers the same, a mark and two hyphens apart. -/
theorem Reads.calmer (hold : Reads kind text old) (hnew : Reads kind text new)
    (hmark : text = ['!'] → ['-', '-'] <+: new → ['-', '-'] <+: old) : Calmer (text ++ old) (text ++ new) := by
  match text with
  | [] => exact absurd rfl hold.ne_nil
  | [c] =>
      have hescape : ∀ {s}, Reads kind [c] s → startsEscape (c :: s) = false := by
        intro s hs
        rw [Bool.eq_false_iff]
        intro hslash
        obtain rfl := eq_of_startsEscape hslash
        have hident := (hs.isLone (by simp)).ident
        rw [startsIdent_of_ne (by decide), hslash] at hident
        cases hident
      have hident : ∀ {s}, Reads kind [c] s → startsIdent (c :: s) = startsName c := by
        intro s hs
        by_cases hdash : c = '-'
        · subst hdash
          exact (hs.isLone (by simp)).ident
        · rw [startsIdent_of_ne hdash, hescape hs, Bool.or_false]
      have hpoint : ∀ {s}, Reads kind [c] s → startsFraction (c :: s) = false := by
        intro s hs
        by_cases hc : c = '.'
        · subst hc
          exact (digit_of_startsNumber (hs.isLone (by simp)).number).2
        · rw [startsFraction]
          rintro rest heq
          exact hc (List.cons.inj heq).1
      have hdashes : ∀ {s}, Reads kind [c] s → ¬ ['-', '-'] <+: c :: s := by
        rintro s hs ⟨more, hmore⟩
        cases hmore
        cases (hs.isLone (by simp)).ident
      simp only [List.singleton_append]
      constructor
      case name =>
        simp only [nameLength_eq_zero_iff, hescape hold, hescape hnew]
        exact id
      case ident => rw [hident hold, hident hnew]; exact id
      case digit => exact id
      case fraction => exact fun _ => hpoint hnew
      case sign => exact fun _ _ => id
      case dashes => exact fun h => absurd h (hdashes hnew)
      case markup =>
        intro h
        obtain ⟨hc, htail⟩ := List.cons_prefix_cons.mp h
        exact List.cons_prefix_cons.mpr ⟨hc, hmark (by rw [hc]) htail⟩
  | c :: d :: cs =>
      have hident : startsIdent (c :: d :: (cs ++ new)) = startsIdent (c :: d :: (cs ++ old)) := by
        by_cases hdash : c = '-'
        · subst hdash
          have hescape : startsEscape (d :: (cs ++ new)) = startsEscape (d :: (cs ++ old)) := by
            cases cs with
            | nil =>
                have hd : d ≠ '\\' := by
                  rintro rfl
                  exact hold.ne_dash_slash rfl
                have hnone : ∀ s, startsEscape (d :: s) = false :=
                  fun s => Bool.eq_false_iff.mpr fun hslash => hd (eq_of_startsEscape hslash)
                rw [hnone, hnone]
            | cons e cs => simp only [List.cons_append, startsEscape_cons_cons]
          rw [startsIdent_dash, startsIdent_dash, hescape]
        · simp only [startsIdent_of_ne hdash, startsEscape_cons_cons]
      have hpoint : startsFraction (c :: d :: (cs ++ new)) = startsFraction (c :: d :: (cs ++ old)) := by
        by_cases hc : c = '.'
        · subst hc
          rfl
        · rw [startsFraction, startsFraction] <;> simp [hc]
      simp only [List.cons_append]
      constructor
      case name =>
        simp only [nameLength_eq_zero_iff, startsEscape_cons_cons]
        exact id
      case ident => rw [hident]; exact id
      case digit => exact id
      case fraction => rw [hpoint]; exact id
      case sign => exact fun _ _ => id
      case dashes =>
        simp only [List.cons_prefix_cons, List.nil_prefix]
        exact id
      case markup =>
        intro h
        obtain ⟨rfl, -⟩ := List.cons_prefix_cons.mp h
        cases (hold.eq_single (.inl rfl)).1

/-- A token is read as before where the text is cut off in front of something that is neither white space nor a
string. -/
theorem Reads.suits_of_append {c : Char} {rest : List Char} (h : Reads kind text (new ++ c :: rest))
    (hspace : isSpace c = false) (hquote : isQuote c = false) : Suits kind text (new ++ c :: rest) new := by
  have hprefix : new <+: new ++ c :: rest := List.prefix_append new (c :: rest)
  have hhead : new ≠ [] → (new ++ c :: rest).head? = new.head? := fun hne => List.head?_append_of_ne_nil _ hne
  constructor
  case calm => exact calmer_of_isPrefix hprefix
  case space =>
    intro hnew
    have hne : new ≠ [] := by
      rintro rfl
      cases hnew
    rw [← hhead hne] at hnew
    refine ⟨?_, .inl hnew⟩
    rintro rfl
    cases h with
    | whitespace _ _ hrest =>
        rw [hnew] at hrest
        cases hrest
    | lone hkind => exact absurd hkind (single_ne rfl)
  case slash =>
    intro _ hold
    rw [Bool.eq_false_iff] at hold ⊢
    exact fun hslash => hold (startsEscape_of_isPrefix (List.cons_prefix_cons.mpr ⟨rfl, hprefix⟩) hslash)
  case close =>
    intro _ hnew
    obtain ⟨s, rfl⟩ := exists_cons_of_head? hnew
    rfl
  case exponent =>
    intro _ _ hnew
    unfold startsExponent at hnew
    split at hnew
    · next s =>
        cases s with
        | nil => cases hnew
        | cons d s => exact hnew
    · cases hnew
  case quote =>
    intro _ hold
    rw [List.dropWhile_append] at hold
    split at hold
    · rw [List.dropWhile_cons_of_neg (by simp [hspace]), List.head?_cons, Option.any_some, hquote] at hold
      cases hold
    · next hsome =>
        rwa [List.head?_append_of_ne_nil _ (by simpa using hsome)] at hold

/-- Tokens read from a text are read the same from a text that ends where they do. -/
theorem tokens_of_stands {ts : List Token} {c : Char} {rest : List Char} (h : Stands ts (c :: rest))
    (hspace : isSpace c = false) (hquote : isQuote c = false) : tokens (chars ts) = ts := by
  induction ts with
  | nil =>
      rw [chars, List.flatMap_nil, tokens]
  | cons t ts ih =>
      obtain ⟨hreads, hrest⟩ := reads_of_stands h
      have hagain := (hreads.replace (by simp) (hreads.suits_of_append hspace hquote)).stands
      rw [← List.singleton_append, chars_append, hagain, ih hrest]

end Tokens

end Lexer

end CssMinify
