import CssMinify.Proofs.Printing.Lexing

/-!
The words of a value as tokens. A name, a number with or without a unit, a hexadecimal color and a quoted text
are each read again where a space, a separator or the end of the declaration follows, and so are they with a
suffix of a backslash and digits, which only the end of the declaration follows.
-/

namespace CssMinify

namespace TokenKind

/-- The kinds of tokens that a word is made of. They neither separate nor group. -/
def isPlain : TokenKind → Bool
  | ident | hash | string | number | percentage | dimension => true
  | _ => false

end TokenKind

namespace Lexer

def AreDigits (s : List Char) : Prop := ∀ c ∈ s, c.isDigit = true

/-- A backslash and one or two digits. -/
inductive IsSuffix : List Char → Prop
  | intro {ds : List Char} (hne : ds ≠ []) (hlength : ds.length ≤ 2) (hds : AreDigits ds) : IsSuffix ('\\' :: ds)

/-- What ends a declaration or its value. -/
def valueStops : List Char := [';', '\x7d', '!']

/-- What ends a word of a value. -/
def wordStops : List Char := [' ', ',', '/', ';', '\x7d', '!']

/-- An end of a name that a name goes on with, before one of `stops`. -/
structure IsTail (stops tail : List Char) : Prop where
  suffix : tail ≠ [] → IsSuffix tail
  nameLength : ∀ rest : List Char, rest.head?.all stops.contains = true → nameLength (tail ++ rest) = tail.length
  stops : stops.all wordStops.contains = true

theorem isHexDigit_of_isDigit {c : Char} (h : c.isDigit = true) : Text.isHexDigit c = true := by
  simp [Text.isHexDigit, h]

theorem isTail_nil : IsTail wordStops [] :=
  ⟨fun h => absurd rfl h, fun rest hrest => nameLength_of_endsName (all_of_stops hrest (by decide)), by decide⟩

/-- An escape by one or two digits takes a space behind them. -/
theorem escapeLength_digits {ds rest : List Char} (hne : ds ≠ []) (hlength : ds.length ≤ 2) (hds : AreDigits ds)
    (hrest : ∀ c ∈ rest.head?, Text.isHexDigit c = false) :
    escapeLength ('\\' :: (ds ++ rest)) = 1 + ds.length + (if rest.head?.any isSpace then 1 else 0) := by
  have hhex : ∀ c ∈ ds, Text.isHexDigit c = true := fun c hc => isHexDigit_of_isDigit (hds c hc)
  have htake := takeWhile_take_append (n := 6) hhex (by omega) hrest
  cases ds with
  | nil => exact absurd rfl hne
  | cons d ds =>
      rw [List.cons_append] at htake ⊢
      rw [escapeLength, if_pos (hhex d List.mem_cons_self)]
      simp only [htake]
      rw [← List.cons_append, List.drop_left]

theorem startsEscape_of_isSuffix {tail : List Char} (h : IsSuffix tail) (rest : List Char) :
    startsEscape (tail ++ rest) = true := by
  obtain ⟨hne, -, hds⟩ := h
  rename_i ds
  cases ds with
  | nil => exact absurd rfl hne
  | cons d ds =>
      have hnewline : d ≠ '\n' := by
        rintro rfl
        exact absurd (hds _ List.mem_cons_self) (by decide)
      simp [startsEscape, hnewline]

theorem isTail_suffix {tail : List Char} (h : IsSuffix tail) : IsTail valueStops tail := by
  refine ⟨fun _ => h, fun rest hrest => ?_, by decide⟩
  have hstarts := startsEscape_of_isSuffix h rest
  obtain ⟨hne, hlength, hds⟩ := h
  rename_i ds
  have hstop : ∀ c ∈ rest.head?, Text.isHexDigit c = false := by
    intro c hc
    have := all_of_stops hrest (p := (!Text.isHexDigit ·)) (by decide)
    simpa [Option.mem_def.mp hc] using this
  have hclosed : rest.head?.any isSpace = false := by
    have := all_of_stops hrest (p := (!isSpace ·)) (by decide)
    cases hhead : rest.head? <;> simp_all
  have hescape := escapeLength_digits hne hlength hds hstop
  rw [hclosed, if_neg Bool.false_ne_true, Nat.add_zero] at hescape
  have hname : nameLength rest = 0 := nameLength_of_endsName (all_of_stops hrest (by decide))
  rw [List.cons_append] at hstarts ⊢
  rw [nameLength, if_neg (by decide), if_pos hstarts, hescape]
  simp only [Nat.add_sub_cancel_left, List.drop_left, hname, List.length_cons]
  omega

section Numerals

variable {sign ds more : List Char}

def IsSign (s : List Char) : Prop := s = [] ∨ s = ['+'] ∨ s = ['-']

/-- Digits, with or without a point among them and a sign before them. Digits follow the point. -/
inductive IsDecimal : List Char → Prop
  | whole {sign ds : List Char} (hsign : IsSign sign) (hne : ds ≠ []) (hds : AreDigits ds) : IsDecimal (sign ++ ds)
  | fraction {sign whole ds : List Char} (hsign : IsSign sign) (hwhole : AreDigits whole) (hne : ds ≠ [])
      (hds : AreDigits ds) : IsDecimal (sign ++ (whole ++ '.' :: ds))

/-- The letter `e`, digits and perhaps a sign between them. -/
inductive IsExponent : List Char → Prop
  | intro {e : Char} {sign ds : List Char} (he : e = 'e' ∨ e = 'E') (hsign : IsSign sign) (hne : ds ≠ [])
      (hds : AreDigits ds) : IsExponent (e :: (sign ++ ds))

theorem startsWithDigit_eq_false (hmore : more.head?.all (!·.isDigit) = true) : startsWithDigit more = false := by
  cases more with
  | nil => rfl
  | cons c more => simpa [startsWithDigit] using hmore

theorem startsWithDigit_append (hne : ds ≠ []) (hds : AreDigits ds) : startsWithDigit (ds ++ more) = true := by
  cases ds with
  | nil => exact absurd rfl hne
  | cons d ds => simp [startsWithDigit, hds d List.mem_cons_self]

theorem digitsLength_append (hds : AreDigits ds) (hmore : more.head?.all (!·.isDigit) = true) :
    digitsLength (ds ++ more) = ds.length := by
  have hnone : more.takeWhile Char.isDigit = [] := by
    cases more with
    | nil => rfl
    | cons c more => simpa using hmore
  rw [digitsLength, List.takeWhile_append_of_pos hds, hnone, List.append_nil]

theorem head?_append_of_areDigits {p : Char → Bool} (hds : AreDigits ds)
    (hp : ∀ c : Char, c.isDigit = true → p c = true) (hmore : more.head?.all p = true) :
    (ds ++ more).head?.all p = true := by
  cases ds with
  | nil => exact hmore
  | cons d ds => exact hp d (hds d List.mem_cons_self)

theorem isDigit_ne {c d : Char} (hc : c.isDigit = true) (hd : d.isDigit = false) : c ≠ d := by
  rintro rfl
  rw [hd] at hc
  cases hc

/-- No sign starts here. -/
def noSign (c : Char) : Bool := c != '+' && c != '-'

theorem noSign_of_isDigit {c : Char} (hc : c.isDigit = true) : noSign c = true := by
  have hplus := isDigit_ne hc (d := '+') rfl
  have hminus := isDigit_ne hc (d := '-') rfl
  simp [noSign, hplus, hminus]

theorem signLength_append (hsign : IsSign sign) (hmore : more.head?.all noSign = true) :
    signLength (sign ++ more) = sign.length := by
  rcases hsign with rfl | rfl | rfl
  · cases more with
    | nil => rfl
    | cons c more =>
        have hc : c ≠ '+' ∧ c ≠ '-' := by simpa [noSign] using hmore
        simp [signLength, hc]
  · rfl
  · rfl

theorem startsFraction_eq_false (hmore : more.head?.all (· != '.') = true) : startsFraction more = false := by
  rw [startsFraction]
  rintro rest rfl
  cases hmore

/-- A number without an exponent, in front of what neither a digit nor a point starts. -/
theorem numberLength_append {s : List Char} (hs : IsDecimal s) (hdigit : more.head?.all (!·.isDigit) = true)
    (hpoint : more.head?.all (· != '.') = true) : numberLength (s ++ more) = s.length + exponentLength more := by
  cases hs with
  | @whole sign ds hsign hne hds =>
      have hhead : (ds ++ more).head?.all noSign = true := by
        cases ds with
        | nil => exact absurd rfl hne
        | cons d ds => exact noSign_of_isDigit (hds d List.mem_cons_self)
      have hfraction : fractionLength more = 0 := by simp [fractionLength, startsFraction_eq_false hpoint]
      have hwhole : (sign ++ (ds ++ more)).drop (sign.length + ds.length) = more := by
        rw [← List.append_assoc, ← List.length_append, List.drop_left]
      simp only [numberLength, List.append_assoc, signLength_append hsign hhead, List.drop_left,
        digitsLength_append hds hdigit, hwhole, hfraction, Nat.add_zero, List.length_append]
  | @fraction sign whole ds hsign hwhole hne hds =>
      have hhead : (whole ++ '.' :: (ds ++ more)).head?.all noSign = true :=
        head?_append_of_areDigits hwhole (fun c => noSign_of_isDigit) rfl
      have hfraction : fractionLength ('.' :: (ds ++ more)) = 1 + ds.length := by
        rw [fractionLength, startsFraction, startsWithDigit_append hne hds, if_pos rfl, List.drop_one, List.tail_cons,
          digitsLength_append hds hdigit]
      have hdigits : digitsLength (whole ++ '.' :: (ds ++ more)) = whole.length := digitsLength_append hwhole rfl
      have hpoint : (sign ++ (whole ++ '.' :: (ds ++ more))).drop (sign.length + whole.length)
          = '.' :: (ds ++ more) := by
        rw [← List.append_assoc, ← List.length_append, List.drop_left]
      have hend : (sign ++ (whole ++ '.' :: (ds ++ more))).drop (sign.length + whole.length + (1 + ds.length))
          = more := by
        rw [← List.drop_drop, hpoint, Nat.add_comm 1, List.drop_succ_cons, List.drop_left]
      simp only [numberLength, List.append_assoc, List.cons_append, signLength_append hsign hhead, List.drop_left,
        hdigits, hpoint, hfraction, hend, List.length_append, List.length_cons]
      omega

theorem exponentLength_append {e : List Char} (he : IsExponent e) (hmore : more.head?.all (!·.isDigit) = true) :
    exponentLength (e ++ more) = e.length := by
  obtain ⟨he, hsign, hne, hds⟩ := he
  rename_i e sign ds
  have hhead : (ds ++ more).head?.all noSign = true := by
    cases ds with
    | nil => exact absurd rfl hne
    | cons d ds => exact noSign_of_isDigit (hds d List.mem_cons_self)
  have hletter : (e == 'e' || e == 'E') = true := by simpa using he
  simp only [List.cons_append, List.append_assoc, exponentLength, signLength_append hsign hhead, List.drop_left,
    hletter, startsWithDigit_append hne hds, digitsLength_append hds hmore, Bool.and_self, if_true, List.length_cons,
    List.length_append]
  omega

/-- Letters and digits, the first of which is a letter. -/
inductive IsUnit : List Char → Prop
  | intro {c : Char} {cs : List Char} (hc : c.isAlpha = true) (hcs : ∀ d ∈ cs, d.isAlphanum = true) : IsUnit (c :: cs)

theorem startsName_of_isAlpha {c : Char} (h : c.isAlpha = true) : startsName c = true := by
  simp [startsName, h]

theorem startsName_of_isLower {c : Char} (h : c.isLower = true) : startsName c = true :=
  startsName_of_isAlpha (Bool.or_eq_true_iff.mpr (.inr h))

theorem continuesName_of_isAlphanum {c : Char} (h : c.isAlphanum = true) : continuesName c = true := by
  rcases Bool.or_eq_true_iff.mp h with h | h
  · simp [continuesName, startsName, h]
  · simp [continuesName, h]

theorem IsUnit.continuesName {u : List Char} (h : IsUnit u) : ∀ c ∈ u, continuesName c = true := by
  obtain ⟨hc, hcs⟩ := h
  rw [List.forall_mem_cons]
  exact ⟨continuesName_of_isAlphanum (by simp [Char.isAlphanum, hc]),
    fun d hd => continuesName_of_isAlphanum (hcs d hd)⟩

/-- An exponent, or none. -/
def IsExponent? (e : List Char) : Prop := e = [] ∨ IsExponent e

/-- A unit, or none. -/
def IsUnit? (u : List Char) : Prop := u = [] ∨ IsUnit u

/-- A character that neither a unit nor an exponent goes on with. -/
def endsUnit (c : Char) : Bool := !continuesName c && c != '+'

theorem isDigit_of_endsUnit {c : Char} (h : endsUnit c = true) : (!c.isDigit) = true := by
  simp only [endsUnit, continuesName, Bool.and_eq_true, Bool.not_eq_true', Bool.or_eq_false_iff] at h
  simp [h.1.1.2]

theorem noSign_of_endsUnit {c : Char} (h : endsUnit c = true) : noSign c = true := by
  simp only [endsUnit, continuesName, Bool.and_eq_true, Bool.not_eq_true', Bool.or_eq_false_iff] at h
  have hminus : c ≠ '-' := by simpa using h.1.2
  have hplus : c ≠ '+' := by simpa using h.2
  simp [noSign, hplus, hminus]

theorem all_of_endsUnit {p : Char → Bool} (hp : ∀ c, endsUnit c = true → p c = true)
    (hmore : more.head?.all endsUnit = true) : more.head?.all p = true := by
  cases more with
  | nil => rfl
  | cons c more => exact hp c hmore

theorem noSign_of_isAlphanum {c : Char} (h : c.isAlphanum = true) : noSign c = true := by
  have hplus : c ≠ '+' := by
    rintro rfl
    cases h
  have hminus : c ≠ '-' := by
    rintro rfl
    cases h
  simp [noSign, hplus, hminus]

theorem IsUnit?.head?_append {u : List Char} {p : Char → Bool} (hu : IsUnit? u)
    (hp : ∀ c : Char, c.isAlpha = true → p c = true) (hmore : more.head?.all p = true) :
    (u ++ more).head?.all p = true := by
  rcases hu with rfl | ⟨hc, hcs⟩
  · exact hmore
  · exact hp _ hc

theorem IsExponent?.head?_append {e : List Char} {p : Char → Bool} (he : IsExponent? e) (hlower : p 'e' = true)
    (hupper : p 'E' = true) (hmore : more.head?.all p = true) : (e ++ more).head?.all p = true := by
  rcases he with rfl | ⟨rfl | rfl, -, -, -⟩
  · exact hmore
  · exact hlower
  · exact hupper

theorem not_isDigit_of_isAlpha {c : Char} (h : c.isAlpha = true) : (!c.isDigit) = true := by
  simp [isDigit_of_startsName (startsName_of_isAlpha h)]

theorem exponentLength_eq_zero {c : Char} (hmore : more.head?.all noSign = true)
    (h : (c == 'e' || c == 'E') = false ∨ startsWithDigit more = false) : exponentLength (c :: more) = 0 := by
  have hsign : signLength more = 0 := signLength_append (.inl rfl) hmore
  rw [exponentLength]
  rcases h with h | h <;> simp [hsign, h]

/-- The tail of a number is cut into an exponent and a unit. If a unit looks like an exponent, so much of it is one. -/
theorem exists_exponent_unit {e u : List Char} (he : IsExponent? e) (hu : IsUnit? u) :
    ∃ e' u' : List Char, e' ++ u' = e ++ u ∧ IsExponent? e' ∧ IsUnit? u' ∧
      ∀ more : List Char, more.head?.all endsUnit = true → exponentLength (e' ++ (u' ++ more)) = e'.length := by
  rcases he with rfl | he
  · rcases hu with rfl | ⟨hc, hcs⟩
    · refine ⟨[], [], rfl, .inl rfl, .inl rfl, fun more hmore => ?_⟩
      cases more with
      | nil => rfl
      | cons c more =>
          have hc : c ≠ 'e' ∧ c ≠ 'E' := by
            constructor <;> rintro rfl <;> cases hmore
          simp [exponentLength, hc]
    rename_i c cs
    by_cases hexp : (c = 'e' ∨ c = 'E') ∧ startsWithDigit cs = true
    · have hdigits : AreDigits (cs.takeWhile Char.isDigit) := fun d hd => List.mem_takeWhile_imp hd
      have hne : cs.takeWhile Char.isDigit ≠ [] := by
        cases cs with
        | nil => simp [startsWithDigit] at hexp
        | cons d cs =>
            have hd : d.isDigit = true := by simpa [startsWithDigit] using hexp.2
            simp [hd]
      have hexponent : IsExponent (c :: cs.takeWhile Char.isDigit) :=
        IsExponent.intro hexp.1 (.inl rfl) hne hdigits
      have hunit : IsUnit? (cs.dropWhile Char.isDigit) := by
        have hhead := List.head?_dropWhile_not Char.isDigit cs
        have hmem : ∀ d ∈ cs.dropWhile Char.isDigit, d.isAlphanum = true :=
          fun d hd => hcs d ((List.dropWhile_sublist _).subset hd)
        cases hdrop : cs.dropWhile Char.isDigit with
        | nil => exact .inl rfl
        | cons d more =>
            rw [hdrop] at hhead hmem
            have hd := hmem d List.mem_cons_self
            have hdigit : d.isDigit = false := by simpa using hhead
            rw [Char.isAlphanum, hdigit, Bool.or_false] at hd
            exact .inr ⟨hd, fun d' hd' => hmem d' (List.mem_cons_of_mem d hd')⟩
      refine ⟨_, _, by simp, .inr hexponent, hunit, fun more hmore => ?_⟩
      exact exponentLength_append hexponent (hunit.head?_append (fun c => not_isDigit_of_isAlpha) (all_of_endsUnit (fun c => isDigit_of_endsUnit) hmore))
    · refine ⟨[], c :: cs, rfl, .inl rfl, .inr ⟨hc, hcs⟩, fun more hmore => exponentLength_eq_zero ?_ ?_⟩
      · cases cs with
        | nil => exact all_of_endsUnit (fun c => noSign_of_endsUnit) hmore
        | cons d cs => exact noSign_of_isAlphanum (hcs d List.mem_cons_self)
      · rw [not_and_or] at hexp
        refine hexp.imp (by simp) fun hdigit => ?_
        cases cs with
        | nil => exact startsWithDigit_eq_false (all_of_endsUnit (fun c => isDigit_of_endsUnit) hmore)
        | cons d cs => simpa [startsWithDigit] using hdigit
  · exact ⟨e, u, rfl, .inr he, hu, fun more hmore => exponentLength_append he
      (hu.head?_append (fun c => not_isDigit_of_isAlpha) (all_of_endsUnit (fun c => isDigit_of_endsUnit) hmore))⟩

theorem startsNumber_append {s : List Char} (hs : IsDecimal s) : startsNumber (s ++ more) = true := by
  have hstarts : ∀ {sign s : List Char}, IsSign sign → (startsWithDigit s || startsFraction s) = true →
      startsNumber (sign ++ s) = true := by
    intro sign s hsign hs
    rcases hsign with rfl | rfl | rfl
    · cases s with
      | nil => cases hs
      | cons c s =>
          have hc : c.isDigit = true ∨ c = '.' := by
            rcases Bool.or_eq_true_iff.mp hs with hs | hs
            · exact .inl hs
            · exact .inr (by
                by_contra hne
                rw [startsFraction_eq_false (by simpa using hne)] at hs
                cases hs)
          have hsign : c ≠ '+' ∧ c ≠ '-' := by
            rcases hc with hc | rfl
            · exact ⟨isDigit_ne hc rfl, isDigit_ne hc rfl⟩
            · decide
          simpa [startsNumber, hsign, startsWithDigit] using hs
    · simpa [startsNumber] using hs
    · simpa [startsNumber] using hs
  cases hs with
  | whole hsign hne hds =>
      rw [List.append_assoc]
      exact hstarts hsign (by simp [startsWithDigit_append hne hds])
  | @fraction sign whole ds hsign hwhole hne hds =>
      rw [List.append_assoc, List.append_assoc, List.cons_append]
      refine hstarts hsign ?_
      cases whole with
      | nil => simp [startsFraction, startsWithDigit_append hne hds]
      | cons d whole => simp [startsWithDigit, hwhole d List.mem_cons_self]

theorem extent_of_startsNumber {c : Char} {cs : List Char} (h : startsNumber (c :: cs) = true) :
    extent c cs = numeric (c :: cs) := by
  have hc : c = '+' ∨ c = '-' ∨ c = '.' ∨ c.isDigit = true := by
    by_contra hnot
    simp only [not_or] at hnot
    have hfraction : startsFraction (c :: cs) = false := startsFraction_eq_false (by simpa using hnot.2.2.1)
    simp [startsNumber, hnot, hfraction] at h
  have hne : ∀ d : Char, d ∈ ['/', ' ', '\t', '\n', '\r', '\x0c', '"', '\'', '#'] → c ≠ d := by
    rintro d hd rfl
    rcases hc with rfl | rfl | rfl | hc
    · revert hd
      decide
    · revert hd
      decide
    · revert hd
      decide
    · have hall : ∀ d ∈ ['/', ' ', '\t', '\n', '\r', '\x0c', '"', '\'', '#'], d.isDigit = false := by
        simp [Char.isDigit]
      rw [hall c hd] at hc
      cases hc
  simp only [List.forall_mem_cons] at hne
  simp [extent, h, isSpace, isQuote, hne]

end Numerals

section Words

variable {stops tail : List Char}

namespace IsTail

theorem all_rest (h : IsTail stops tail) {p : Char → Bool} (hp : wordStops.all p = true) {rest : List Char}
    (hrest : rest.head?.all stops.contains = true) : rest.head?.all p = true :=
  all_of_stops (all_of_stops hrest h.stops) hp

theorem all_append (h : IsTail stops tail) {p : Char → Bool} (hsuffix : p '\\' = true) (hp : wordStops.all p = true)
    {rest : List Char} (hrest : rest.head?.all stops.contains = true) : (tail ++ rest).head?.all p = true := by
  cases tail with
  | nil => exact h.all_rest hp hrest
  | cons c tail =>
      cases h.suffix (List.cons_ne_nil c tail)
      exact hsuffix

theorem head?_rest_ne (h : IsTail stops tail) {c : Char} (hc : wordStops.all (· != c) = true) {rest : List Char}
    (hrest : rest.head?.all stops.contains = true) : rest.head? ≠ some c := by
  have hall := h.all_rest hc hrest
  intro heq
  rw [heq] at hall
  simp at hall

theorem startsIdent_append (h : IsTail stops tail) {rest : List Char}
    (hrest : rest.head?.all stops.contains = true) : startsIdent (tail ++ rest) = !tail.isEmpty := by
  cases tail with
  | nil =>
      cases rest with
      | nil => rfl
      | cons c rest =>
          have hc : wordStops.contains c = true := h.all_rest (p := wordStops.contains) (by decide) hrest
          have hnot : ∀ c ∈ wordStops, startsIdent (c :: rest) = false := by
            simp only [wordStops, List.forall_mem_cons]
            exact ⟨rfl, rfl, rfl, rfl, rfl, rfl, fun _ hc => by cases hc⟩
          exact hnot c (by simpa using hc)
  | cons c tail =>
      obtain ⟨hne, -, hds⟩ := h.suffix (List.cons_ne_nil c tail)
      cases tail with
      | nil => exact absurd rfl hne
      | cons d tail =>
          have hnewline : d ≠ '\n' := isDigit_ne (hds d List.mem_cons_self) rfl
          simp [startsIdent, startsEscape, hnewline]

end IsTail

/-- The characters of tokens that a word may have, which stand apart from what `stops` starts. -/
def HasWordTokens (stops s : List Char) : Prop :=
  ∃ ts : List Token, chars ts = s ∧ (∀ t ∈ ts, t.kind.isPlain = true) ∧ Apart stops ts

theorem hasWordTokens_of_extent (kind : TokenKind) {c : Char} {cs : List Char} (hkind : kind.isPlain = true)
    (h : ∀ rest : List Char, rest.head?.all stops.contains = true → extent c (cs ++ rest) = (kind, 1 + cs.length)) :
    HasWordTokens stops (c :: cs) := by
  refine ⟨[⟨kind, String.ofList (c :: cs)⟩], by simp [chars], by simpa using hkind, fun rest hrest => ?_⟩
  exact stands_of_extent (String.toList_ofList) (h rest hrest)

theorem HasWordTokens.cons {t : Token} {s : List Char} (ht : ∀ rest, Stands [t] rest) (hplain : t.kind.isPlain = true)
    (hs : HasWordTokens stops s) : HasWordTokens stops (t.text.toList ++ s) := by
  obtain ⟨ts, rfl, hall, hapart⟩ := hs
  exact ⟨t :: ts, rfl, List.forall_mem_cons.mpr ⟨hplain, hall⟩, fun rest hrest => Stands.cons (ht _) (hapart rest hrest)⟩

theorem IsTail.hasWordTokens (h : IsTail stops tail) : HasWordTokens stops tail := by
  cases tail with
  | nil => exact ⟨[], rfl, by simp, fun rest _ => Stands.nil⟩
  | cons c tail =>
      refine hasWordTokens_of_extent .ident rfl fun rest hrest => ?_
      have hstarts := h.startsIdent_append hrest
      have hname : identLike ([] ++ (c :: tail ++ rest)) = (.ident, 0 + (c :: tail).length) :=
        identLike_append (by simp) (h.nameLength rest hrest) (h.head?_rest_ne (by decide) hrest)
      have hsuffix := h.suffix (List.cons_ne_nil c tail)
      cases hsuffix
      rw [List.cons_append] at hstarts
      have hextent : extent '\\' (tail ++ rest) = identLike ('\\' :: (tail ++ rest)) := by
        simp [extent, isSpace, isQuote, hstarts, startsNumber, startsFraction]
      rw [hextent]
      simpa [Nat.add_comm] using hname

/-- The words of plain values: names, numbers with or without a unit, percentages, hexadecimal colors and texts
in quotes. -/
inductive IsWord : List Char → Prop
  | name {s : List Char} (hs : IsName s) : IsWord s
  | number {s e u : List Char} (hs : IsDecimal s) (he : IsExponent? e) (hu : IsUnit? u) : IsWord (s ++ (e ++ u))
  | percentage {s e : List Char} (hs : IsDecimal s) (he : IsExponent? e) : IsWord (s ++ (e ++ ['%']))
  | hash {ds : List Char} (hne : ds ≠ []) (hds : ∀ d ∈ ds, Text.isHexDigit d = true) : IsWord ('#' :: ds)
  | quoted {cs : List Char} (hcs : ∀ c ∈ cs, c ≠ '"' ∧ c ≠ '\\' ∧ c ≠ '\n') : IsWord ('"' :: (cs ++ ['"']))

theorem stringLength_append {cs rest : List Char} (hcs : ∀ c ∈ cs, c ≠ '"' ∧ c ≠ '\\' ∧ c ≠ '\n') :
    stringLength '"' (cs ++ '"' :: rest) = cs.length + 1 := by
  induction cs with
  | nil => rfl
  | cons c cs ih =>
      obtain ⟨hquote, hescape, hnewline⟩ := hcs c List.mem_cons_self
      rw [List.cons_append, stringLength, if_neg (by simp [hquote, hnewline]),
        ih fun d hd => hcs d (List.mem_cons_of_mem c hd), List.length_cons]
      · omega
      · exact hescape

theorem stands_quoted {cs : List Char} (hcs : ∀ c ∈ cs, c ≠ '"' ∧ c ≠ '\\' ∧ c ≠ '\n') (rest : List Char) :
    Stands [⟨.string, String.ofList ('"' :: (cs ++ ['"']))⟩] rest := by
  refine stands_of_extent (String.toList_ofList) ?_
  have hextent : extent '"' (cs ++ ['"'] ++ rest) = (.string, 1 + stringLength '"' (cs ++ ['"'] ++ rest)) := rfl
  rw [hextent, List.append_assoc, List.singleton_append, stringLength_append hcs, List.length_append]
  rfl

/-- A number before its unit. -/
theorem numberLength_exponent {s e more : List Char} (hs : IsDecimal s) (he : IsExponent? e)
    (hdigit : more.head?.all (!·.isDigit) = true) (hpoint : more.head?.all (· != '.') = true)
    (hexponent : exponentLength (e ++ more) = e.length) : numberLength (s ++ (e ++ more)) = (s ++ e).length := by
  rw [numberLength_append hs (he.head?_append rfl rfl hdigit) (he.head?_append rfl rfl hpoint), hexponent,
    List.length_append]

theorem numeric_append {s e u rest : List Char} (htail : IsTail stops tail) (hs : IsDecimal s)
    (he : IsExponent? e) (hu : IsUnit? u)
    (hexponent : ∀ more : List Char, more.head?.all endsUnit = true → exponentLength (e ++ (u ++ more)) = e.length)
    (hrest : rest.head?.all stops.contains = true) :
    numeric (s ++ e ++ (u ++ (tail ++ rest)))
      = (if u.isEmpty && tail.isEmpty then .number else .dimension, (s ++ e ++ (u ++ tail)).length) := by
  have hdigit : (u ++ (tail ++ rest)).head?.all (!·.isDigit) = true :=
    hu.head?_append (fun c => not_isDigit_of_isAlpha)
      (htail.all_append rfl (by decide) hrest)
  have hpoint : (u ++ (tail ++ rest)).head?.all (· != '.') = true := by
    refine hu.head?_append (fun c hc => ?_) (htail.all_append rfl (by decide) hrest)
    simpa using ne_of_startsName (startsName_of_isAlpha hc) rfl
  have hnumber := numberLength_exponent hs he hdigit hpoint
    (hexponent _ (htail.all_append rfl (by decide) hrest))
  rw [← List.append_assoc] at hnumber
  simp only [numeric, hnumber, List.drop_left]
  have hlength : nameLength (u ++ (tail ++ rest)) = (u ++ tail).length := by
    rcases hu with rfl | hu
    · exact htail.nameLength rest hrest
    · rw [nameLength_append hu.continuesName, htail.nameLength rest hrest, List.length_append]
  have hstarts : startsIdent (u ++ (tail ++ rest)) = !(u.isEmpty && tail.isEmpty) := by
    rcases hu with rfl | ⟨hc, -⟩
    · exact htail.startsIdent_append hrest
    · exact startsIdent_of_startsName (startsName_of_isAlpha hc)
  rw [hstarts, hlength]
  cases hempty : u.isEmpty && tail.isEmpty with
  | false => simp [Nat.add_assoc]
  | true =>
      obtain ⟨rfl, rfl⟩ : u = [] ∧ tail = [] := by simpa using hempty
      have hpercent := htail.head?_rest_ne (c := '%') (by decide) hrest
      simp [hpercent]

/-- The token that a number starts. -/
theorem exists_extent_numeric {s : List Char} (hs : IsDecimal s) (more : List Char) :
    ∃ (c : Char) (cs : List Char), s ++ more = c :: cs ∧ ∀ rest, extent c (cs ++ rest) = numeric (s ++ more ++ rest) := by
  have hstarts : ∀ rest, startsNumber (s ++ more ++ rest) = true := by
    intro rest
    rw [List.append_assoc]
    exact startsNumber_append hs
  cases h : s ++ more with
  | nil =>
      have hnil := hstarts []
      rw [h] at hnil
      cases hnil
  | cons c cs =>
      refine ⟨c, cs, rfl, fun rest => ?_⟩
      have hrest := hstarts rest
      rw [h, List.cons_append] at hrest
      rw [extent_of_startsNumber hrest, List.cons_append]

theorem stands_percentage {s e : List Char} (hs : IsDecimal s) (he : IsExponent? e) (rest : List Char) :
    Stands [⟨.percentage, String.ofList (s ++ (e ++ ['%']))⟩] rest := by
  have hnumber : numberLength (s ++ e ++ '%' :: rest) = (s ++ e).length := by
    rw [List.append_assoc]
    refine numberLength_exponent hs he rfl rfl ?_
    rcases he with rfl | he
    · simp [exponentLength]
    · exact exponentLength_append he rfl
  have hnumeric : numeric (s ++ e ++ '%' :: rest) = (.percentage, (s ++ e).length + 1) := by
    have hstarts : startsIdent ('%' :: rest) = false := rfl
    simp only [numeric, hnumber, List.drop_left, hstarts]
    rfl
  obtain ⟨c, cs, hcons, hextent⟩ := exists_extent_numeric hs (e ++ ['%'])
  have hlength : cs.length + 1 = (s ++ e).length + 1 := by
    rw [← List.length_cons, ← hcons, ← List.append_assoc, List.length_append]
    rfl
  refine stands_of_extent (String.toList_ofList.trans hcons) ?_
  rw [hextent, ← List.append_assoc, List.append_assoc, List.singleton_append, hnumeric, Nat.add_comm 1, hlength]

theorem continuesName_of_isHexDigit {c : Char} (h : Text.isHexDigit c = true) : continuesName c = true := by
  simp only [Text.isHexDigit, Bool.or_eq_true, Bool.and_eq_true, decide_eq_true_eq] at h
  rcases h with (h | ⟨hlow, hhigh⟩) | ⟨hlow, hhigh⟩
  · simp [continuesName, h]
  · have hlower : c.isLower = true := by
      have hhigh : c.val.toNat ≤ 102 := hhigh
      have hz : c.val.toNat ≤ 122 := by omega
      unfold Char.isLower
      simp only [Bool.and_eq_true, decide_eq_true_eq]
      exact ⟨hlow, hz⟩
    simp [continuesName, startsName_of_isLower hlower]
  · have hupper : c.isUpper = true := by
      have hhigh : c.val.toNat ≤ 70 := hhigh
      have hz : c.val.toNat ≤ 90 := by omega
      unfold Char.isUpper
      simp only [decide_eq_true_eq]
      exact ⟨hlow, hz⟩
    have halpha : c.isAlpha = true := Bool.or_eq_true_iff.mpr (.inl hupper)
    simp [continuesName, startsName_of_isAlpha halpha]

theorem IsWord.ne_nil {w : List Char} (hw : IsWord w) : w ≠ [] := by
  cases hw with
  | name hs =>
      cases hs
      simp
  | hash | quoted => simp
  | percentage => simp
  | @number s e u hs =>
      obtain ⟨c, cs, hcons, -⟩ := exists_extent_numeric hs (e ++ u)
      rw [hcons]
      simp

theorem AreDigits.escape_not_mem {ds : List Char} (hds : AreDigits ds) : '\\' ∉ ds :=
  fun hmem => absurd (hds _ hmem) (by decide)

theorem IsDecimal.escape_not_mem {s : List Char} (hs : IsDecimal s) : '\\' ∉ s := by
  have hsigns : ∀ {sign : List Char}, IsSign sign → '\\' ∉ sign := by
    rintro sign (rfl | rfl | rfl) <;> simp
  cases hs with
  | whole hsign _ hds => simp [hsigns hsign, hds.escape_not_mem]
  | fraction hsign hwhole _ hds => simp [hsigns hsign, hwhole.escape_not_mem, hds.escape_not_mem]

theorem IsExponent?.escape_not_mem {e : List Char} (he : IsExponent? e) : '\\' ∉ e := by
  rcases he with rfl | ⟨he, hsign, hne, hds⟩
  · simp
  · rcases he with rfl | rfl <;> rcases hsign with rfl | rfl | rfl <;> simp [hds.escape_not_mem]

theorem IsWord.escape_not_mem {w : List Char} (hw : IsWord w) : '\\' ∉ w := by
  have hnames : ∀ {cs : List Char}, (∀ c ∈ cs, continuesName c = true) → '\\' ∉ cs :=
    fun hcs hmem => absurd (hcs _ hmem) (by decide)
  cases hw with
  | name hs =>
      obtain ⟨hc, hcs⟩ := hs
      rw [List.mem_cons, not_or]
      exact ⟨(ne_of_startsName hc rfl).symm, hnames hcs⟩
  | number hs he hu =>
      rcases hu with rfl | hu
      · simp [hs.escape_not_mem, he.escape_not_mem]
      · simp [hs.escape_not_mem, he.escape_not_mem, hnames hu.continuesName]
  | percentage hs he => simp [hs.escape_not_mem, he.escape_not_mem]
  | hash _ hds =>
      have hhex := hnames fun c hc => continuesName_of_isHexDigit (hds c hc)
      simpa using hhex
  | quoted hcs =>
      have hquoted := fun hmem => (hcs '\\' hmem).2.1 rfl
      simpa using hquoted

/-- A word reads back where one of the stops follows, with a suffix or without one. -/
theorem IsWord.hasWordTokens {w : List Char} (hw : IsWord w) (htail : IsTail stops tail) :
    HasWordTokens stops (w ++ tail) := by
  cases hw with
  | name hs =>
      obtain ⟨hc, hcs⟩ := hs
      exact hasWordTokens_of_extent .ident rfl fun rest hrest =>
        extent_name hc hcs (htail.nameLength rest hrest) (htail.head?_rest_ne (by decide) hrest)
  | @number s e u hs he hu =>
      obtain ⟨e', u', heq, he', hu', hexponent⟩ := exists_exponent_unit he hu
      obtain ⟨c, cs, hcons, hextent⟩ := exists_extent_numeric hs (e' ++ (u' ++ tail))
      have hword : s ++ (e ++ u) ++ tail = c :: cs := by
        rw [← heq, ← hcons]
        simp
      have hlength : (s ++ e' ++ (u' ++ tail)).length = 1 + cs.length := by
        rw [List.append_assoc, hcons, List.length_cons, Nat.add_comm]
      rw [hword]
      refine hasWordTokens_of_extent (if u'.isEmpty && tail.isEmpty then .number else .dimension) ?_ fun rest hrest => ?_
      · split <;> rfl
      · have hnumeric := numeric_append htail hs he' hu' hexponent hrest
        rw [hlength] at hnumeric
        rw [hextent, ← hnumeric]
        simp
  | percentage hs he =>
      have h := HasWordTokens.cons (stands_percentage hs he) rfl htail.hasWordTokens
      simpa only [String.toList_ofList] using h
  | @hash ds hne hds =>
      have hnames : ∀ d ∈ ds, continuesName d = true := fun d hd => continuesName_of_isHexDigit (hds d hd)
      cases ds with
      | nil => exact absurd rfl hne
      | cons d ds => exact hasWordTokens_of_extent .hash rfl fun rest hrest =>
          extent_hash hnames (htail.nameLength rest hrest)
  | quoted hcs =>
      have h := HasWordTokens.cons (stands_quoted hcs) rfl htail.hasWordTokens
      simpa only [String.toList_ofList] using h

end Words

end Lexer

end CssMinify
