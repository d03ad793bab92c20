import CssMinify.Proofs.Printing.Declarations

/-!
Selectors that read back. The head of a rule falls apart at its commas, and the text of each selector is put
together again as it was, since the only space in it stands between two compounds.
-/

namespace CssMinify

open Lexer

theorem Token.source_append (ts us : List Token) : source (ts ++ us) = source ts ++ source us := by
  rw [← String.toList_inj, String.toList_append]
  simp [source, Text.toList_concat]

namespace Selector

/-- A class, an identifier or a pseudo-class. -/
inductive IsSimple : List Char → Prop
  | dot {n : List Char} (h : IsName n) : IsSimple ('.' :: n)
  | hash {n : List Char} (h : IsName n) : IsSimple ('#' :: n)
  | colon {n : List Char} (h : IsName n) : IsSimple (':' :: n)

/-- Any number of them. -/
inductive AreSimple : List Char → Prop
  | nil : AreSimple []
  | cons {s t : List Char} (hs : IsSimple s) (ht : AreSimple t) : AreSimple (s ++ t)

/-- A type, or a simple selector, and simple selectors after it. -/
inductive IsCompound : List Char → Prop
  | type {n s : List Char} (hn : IsName n) (hs : AreSimple s) : IsCompound (n ++ s)
  | bare {s t : List Char} (hs : IsSimple s) (ht : AreSimple t) : IsCompound (s ++ t)

/-- What joins two compounds. -/
def joints : List Char := [' ', '>', '+', '~']

/-- Compounds with a joint between them. -/
inductive IsChain : List Char → Prop
  | compound {s : List Char} (hs : IsCompound s) : IsChain s
  | join {s t : List Char} {c : Char} (hs : IsCompound s) (hc : c ∈ joints) (ht : IsChain t) : IsChain (s ++ c :: t)

/-- What ends a name in a selector. -/
def stops : List Char := ['.', '#', ':', ' ', '>', '+', '~', ',', '\x7b']

/-- The kinds of the tokens of a compound. -/
def isSimpleKind : TokenKind → Bool
  | .ident | .hash | .colon => true
  | .delim c => c == '.'
  | _ => false

/-- Does a compound start here? -/
def startsCompound : List Char → Bool
  | '.' :: c :: _ => startsName c
  | c :: _ => startsName c || c == '#' || c == ':'
  | [] => false

theorem startsCompound_of_isName {n : List Char} (h : IsName n) (more : List Char) :
    startsCompound (n ++ more) = true := by
  obtain ⟨hc, -⟩ := h
  rw [List.cons_append, startsCompound, hc, Bool.true_or, Bool.true_or]
  rintro d rest rfl
  cases hc

theorem startsCompound_of_isSimple {s : List Char} (h : IsSimple s) (more : List Char) :
    startsCompound (s ++ more) = true := by
  cases h with
  | dot h =>
      obtain ⟨hc, -⟩ := h
      exact hc
  | hash | colon => rfl

theorem IsCompound.startsCompound {s : List Char} (h : IsCompound s) (more : List Char) :
    startsCompound (s ++ more) = true := by
  cases h with
  | type hn hs =>
      rw [List.append_assoc]
      exact startsCompound_of_isName hn _
  | bare hs ht =>
      rw [List.append_assoc]
      exact startsCompound_of_isSimple hs _

theorem IsChain.startsCompound {s : List Char} (h : IsChain s) (more : List Char) :
    Selector.startsCompound (s ++ more) = true := by
  cases h with
  | compound hs => exact hs.startsCompound more
  | join hs hc ht =>
      rw [List.append_assoc]
      exact hs.startsCompound _

/-- Neither a space nor a number goes on with a compound. -/
theorem apart_of_startsCompound {s : List Char} (h : startsCompound s = true) :
    s.head?.any isSpace = false ∧ startsNumber ('+' :: s) = false := by
  rw [startsCompound.eq_def] at h
  split at h
  · next c cs =>
      have hdigit := isDigit_of_startsName h
      exact ⟨rfl, by simp [startsNumber, startsWithDigit, startsFraction, hdigit]⟩
  · next c cs hpoint =>
      simp only [Bool.or_eq_true, beq_iff_eq] at h
      rcases h with (h | rfl) | rfl
      · have hfraction : startsFraction (c :: cs) = false :=
          startsFraction_eq_false (by simpa using ne_of_startsName h rfl)
        have hspace : isSpace c = false := not_isSpace_of_startsName h
        simp [hspace, startsNumber, startsWithDigit, isDigit_of_startsName h, hfraction]
      · exact ⟨rfl, rfl⟩
      · exact ⟨rfl, rfl⟩
  · cases h

/-- The tokens of a part of a compound. -/
structure AreSimpleTokens (s : List Char) (ts : List Token) : Prop where
  chars : chars ts = s
  apart : Apart stops ts
  kinds : ∀ t ∈ ts, isSimpleKind t.kind = true
  ends : ∀ t ∈ ts.getLast?, t.kind = .ident ∨ t.kind = .hash

namespace AreSimpleTokens

theorem append {s t : List Char} {ts us : List Token} (hs : AreSimpleTokens s ts) (ht : AreSimpleTokens t us)
    (hmeet : t = [] ∨ t.head?.any stops.contains = true) : AreSimpleTokens (s ++ t) (ts ++ us) := by
  refine ⟨by rw [chars_append, hs.chars, ht.chars], ?_, ?_, fun u hu => ?_⟩
  · intro rest hrest
    refine Stands.append (hs.apart _ ?_) (ht.apart rest hrest)
    rw [ht.chars]
    rcases hmeet with rfl | hmeet
    · exact hrest
    · cases t with
      | nil => cases hmeet
      | cons c t => exact hmeet
  · intro u hu
    exact (List.mem_append.mp hu).elim (hs.kinds u) (ht.kinds u)
  · rw [List.getLast?_append] at hu
    cases hlast : us.getLast? with
    | none =>
        rw [hlast] at hu
        exact hs.ends u hu
    | some v =>
        rw [hlast] at hu
        exact ht.ends u (hlast.trans hu)

theorem of_isName {n : List Char} (h : IsName n) : AreSimpleTokens n [⟨.ident, String.ofList n⟩] := by
  refine ⟨by simp [Lexer.chars], fun rest hrest => ?_, by simp [isSimpleKind], by simp⟩
  exact stands_name (by rwa [String.toList_ofList]) (all_of_stops hrest (by decide))

end AreSimpleTokens

theorem stands_point {n rest : List Char} (h : IsName n) : Stands [⟨.delim '.', "."⟩] (n ++ rest) := by
  obtain ⟨hc, -⟩ := h
  rename_i c cs
  have hnumber : startsNumber ('.' :: (c :: cs ++ rest)) = false := by
    simp [startsNumber, startsFraction, startsWithDigit, isDigit_of_startsName hc]
  refine stands_single (c := '.') rfl ?_
  simp only [extent, hnumber]
  rfl

theorem stands_hash {n rest : List Char} (h : IsName n) (hrest : rest.head?.all endsName = true) :
    Stands [⟨.hash, String.ofList ('#' :: n)⟩] rest := by
  obtain ⟨hc, hcs⟩ := h
  rename_i c cs
  have hall : ∀ d ∈ c :: cs, continuesName d = true := List.forall_mem_cons.mpr ⟨by simp [continuesName, hc], hcs⟩
  have hlength : nameLength ([] ++ rest) = ([] : List Char).length := nameLength_of_endsName hrest
  have hextent := extent_hash hall hlength
  rw [List.append_nil] at hextent
  exact stands_of_extent String.toList_ofList hextent

theorem IsSimple.exists_tokens {s : List Char} (h : IsSimple s) : ∃ ts, ts ≠ [] ∧ AreSimpleTokens s ts := by
  cases h with
  | @dot n h =>
      have hname := AreSimpleTokens.of_isName h
      refine ⟨⟨.delim '.', "."⟩ :: [⟨.ident, String.ofList n⟩], by simp, by simp [chars], fun rest hrest => ?_,
        by simp [isSimpleKind], by simp⟩
      refine Stands.cons ?_ (hname.apart rest hrest)
      rw [hname.chars]
      exact stands_point h
  | @hash n h =>
      refine ⟨[⟨.hash, String.ofList ('#' :: n)⟩], by simp, by simp [chars], fun rest hrest => ?_,
        by simp [isSimpleKind], by simp⟩
      exact stands_hash h (all_of_stops hrest (by decide))
  | @colon n h =>
      have hname := AreSimpleTokens.of_isName h
      refine ⟨Token.colon :: [⟨.ident, String.ofList n⟩], by simp, by simp [chars, Token.colon], fun rest hrest => ?_,
        by simp [isSimpleKind, Token.colon], by simp⟩
      exact Stands.cons (stands_single (c := ':') rfl rfl) (hname.apart rest hrest)

theorem head?_of_isSimple {s : List Char} (h : IsSimple s) (more : List Char) :
    (s ++ more).head?.any stops.contains = true := by
  cases h <;> rfl

theorem head?_of_areSimple {s : List Char} (h : AreSimple s) : s = [] ∨ s.head?.any stops.contains = true := by
  cases h with
  | nil => exact .inl rfl
  | cons hs ht => exact .inr (head?_of_isSimple hs _)

theorem AreSimple.exists_tokens {s : List Char} (h : AreSimple s) : ∃ ts, AreSimpleTokens s ts := by
  induction h with
  | nil => exact ⟨[], rfl, fun rest _ => Stands.nil, by simp, by simp⟩
  | cons hs ht ih =>
      obtain ⟨ts, -, hts⟩ := hs.exists_tokens
      obtain ⟨us, hus⟩ := ih
      exact ⟨ts ++ us, hts.append hus (head?_of_areSimple ht)⟩

theorem IsCompound.exists_tokens {s : List Char} (h : IsCompound s) : ∃ ts, ts ≠ [] ∧ AreSimpleTokens s ts := by
  cases h with
  | type hn hs =>
      obtain ⟨us, hus⟩ := hs.exists_tokens
      exact ⟨_, by simp, (AreSimpleTokens.of_isName hn).append hus (head?_of_areSimple hs)⟩
  | bare hs ht =>
      obtain ⟨ts, hne, hts⟩ := hs.exists_tokens
      obtain ⟨us, hus⟩ := ht.exists_tokens
      exact ⟨ts ++ us, by simp [hne], hts.append hus (head?_of_areSimple ht)⟩

section Compact

variable {ts : List Token}

theorem isTrivia_of_isSimpleKind {t : Token} (h : isSimpleKind t.kind = true) : t.isTrivia = false := by
  rw [Token.isTrivia]
  cases hkind : t.kind <;> first | rfl | (rw [hkind] at h; cases h)

/-- Tokens without space between them are put together as they are. -/
theorem compactAfter_simple (hne : ts ≠ []) (h : ∀ t ∈ ts, isSimpleKind t.kind = true) (last : Option TokenKind)
    (more : List Token) :
    Spacing.selector.compactAfter last false (ts ++ more)
      = Token.source ts ++ Spacing.selector.compactAfter (some (ts.getLast hne).kind) false more := by
  induction ts generalizing last with
  | nil => exact absurd rfl hne
  | cons t ts ih =>
      rw [List.cons_append, Spacing.compactAfter, isTrivia_of_isSimpleKind (h t List.mem_cons_self)]
      cases ts with
      | nil => simp [Token.source, Text.concat]
      | cons u ts =>
          simp only [ih (by simp) fun v hv => h v (List.mem_cons_of_mem t hv)]
          simp [Token.source, Text.concat, String.append_assoc]

/-- A space between two compounds is kept. -/
theorem compactAfter_gap {t : Token} {kind : TokenKind} (ht : isSimpleKind t.kind = true)
    (hkind : kind = .ident ∨ kind = .hash) :
    Spacing.selector.compactAfter (some kind) true (t :: ts)
      = " " ++ Spacing.selector.compactAfter (some kind) false (t :: ts) := by
  have hafter : Spacing.selector.tightAfter kind = false := by
    rcases hkind with rfl | rfl <;> rfl
  have hbefore : Spacing.selector.tightBefore t.kind = false := by
    cases hk : t.kind <;> rw [hk] at ht <;> first | rfl | exact absurd ht (by decide) | skip
    rw [beq_iff_eq.mp ht]
    rfl
  simp [Spacing.compactAfter, isTrivia_of_isSimpleKind ht, hafter, hbefore, String.append_assoc]

end Compact

/-- The tokens of a selector, which are put together again as they are. -/
structure AreSelectorTokens (s : List Char) (ts : List Token) : Prop where
  chars : chars ts = s
  apart : Apart [',', '\x7b'] ts
  kinds : ∀ t ∈ ts, t.kind.isLevel = true ∧ t.kind ≠ .comma
  starts : ts.head?.any (isSimpleKind ·.kind) = true
  compact : ∀ last, Spacing.selector.compactAfter last false ts = Token.source ts

theorem AreSimpleTokens.areSelectorTokens {s : List Char} {ts : List Token} (hne : ts ≠ []) (h : AreSimpleTokens s ts) :
    AreSelectorTokens s ts := by
  refine ⟨h.chars, h.apart.mono (by decide), fun t ht => ?_, ?_, fun last => ?_⟩
  · have hkind := h.kinds t ht
    cases hk : t.kind <;> rw [hk] at hkind <;> first | exact absurd hkind (by decide) | exact ⟨rfl, by simp⟩
  · cases ts with
    | nil => exact absurd rfl hne
    | cons t ts => exact h.kinds t List.mem_cons_self
  · have hcompact := compactAfter_simple hne h.kinds last []
    rw [List.append_nil] at hcompact
    rw [hcompact, Spacing.compactAfter, String.append_empty]

/-- The token of a joint. -/
def jointToken (c : Char) : Token := ⟨if c == ' ' then .whitespace else .delim c, String.singleton c⟩

theorem stands_joint {c : Char} (hc : c ∈ joints) {rest : List Char} (hrest : startsCompound rest = true) :
    Stands [jointToken c] rest := by
  obtain ⟨hspace, hnumber⟩ := apart_of_startsCompound hrest
  simp only [joints, List.mem_cons, List.not_mem_nil, or_false] at hc
  rcases hc with rfl | rfl | rfl | rfl
  · exact stands_space hspace
  · exact stands_single (c := '>') rfl rfl
  · refine stands_single (c := '+') rfl ?_
    simp only [extent, hnumber]
    rfl
  · exact stands_single (c := '~') rfl rfl

/-- A joint is kept, and nothing else comes between two compounds. -/
theorem compactAfter_joint {c : Char} (hc : c ∈ joints) {kind : TokenKind} (hkind : kind = .ident ∨ kind = .hash)
    {s : List Char} {us : List Token} (hus : AreSelectorTokens s us) :
    Spacing.selector.compactAfter (some kind) false (jointToken c :: us) = (jointToken c).text ++ Token.source us := by
  simp only [joints, List.mem_cons, List.not_mem_nil, or_false] at hc
  rcases hc with rfl | hc
  · have hstarts := hus.starts
    cases us with
    | nil => cases hstarts
    | cons u us =>
        have htrivia : (jointToken ' ').isTrivia = true := rfl
        rw [Spacing.compactAfter, htrivia, if_pos rfl, compactAfter_gap hstarts hkind, hus.compact]
        rfl
  · have hjoint : (jointToken c).isTrivia = false := by
      rcases hc with rfl | rfl | rfl <;> rfl
    rw [Spacing.compactAfter, hjoint, if_neg (by simp), hus.compact]
    simp

theorem IsChain.exists_tokens {s : List Char} (h : IsChain s) : ∃ ts, AreSelectorTokens s ts := by
  induction h with
  | compound hs =>
      obtain ⟨ts, hne, hts⟩ := hs.exists_tokens
      exact ⟨ts, hts.areSelectorTokens hne⟩
  | @join s t c hs hc ht ih =>
      obtain ⟨ts, hne, hts⟩ := hs.exists_tokens
      obtain ⟨us, hus⟩ := ih
      have hchars : chars (jointToken c :: us) = c :: t := by
        rw [← hus.chars]
        simp [chars, jointToken]
      have hfirst := hts.areSelectorTokens hne
      refine ⟨ts ++ jointToken c :: us, ?_, fun rest hrest => ?_, fun u hu => ?_, ?_, fun last => ?_⟩
      · rw [chars_append, hts.chars, hchars]
      · have hjoint : Stands (jointToken c :: us) rest := by
          refine Stands.cons (stands_joint hc ?_) (hus.apart rest hrest)
          rw [hus.chars]
          exact ht.startsCompound rest
        refine Stands.append (hts.apart _ ?_) hjoint
        have hstop : ∀ c ∈ joints, stops.contains c = true := List.all_eq_true.mp rfl
        rw [hchars]
        exact hstop c hc
      · rcases List.mem_append.mp hu with hu | hu
        · exact hfirst.kinds u hu
        · rcases List.mem_cons.mp hu with rfl | hu
          · have hkinds : ∀ c ∈ joints, (jointToken c).kind.isLevel = true ∧ (jointToken c).kind ≠ .comma := by
              simp [joints, jointToken, TokenKind.isLevel, TokenKind.opensGroup, TokenKind.closesGroup]
            exact hkinds c hc
          · exact hus.kinds u hu
      · have hstarts := hfirst.starts
        cases ts with
        | nil => exact absurd rfl hne
        | cons t ts => exact hstarts
      · have hlast := hts.ends _ (List.getLast?_eq_some_getLast hne)
        rw [compactAfter_simple hne hts.kinds, compactAfter_joint hc hlast hus, Token.source_append]
        rfl

end Selector

namespace Token

def comma : Token := ⟨.comma, ","⟩

/-- The tokens of selectors with commas between them. -/
def ofSelectors : List String → List Token
  | [] => []
  | [s] => tokenize s
  | s :: t :: rest => tokenize s ++ comma :: ofSelectors (t :: rest)

end Token

namespace Selector

theorem areSelectorTokens_tokenize {s : String} (h : IsChain s.toList) : AreSelectorTokens s.toList (tokenize s) := by
  obtain ⟨ts, hts⟩ := h.exists_tokens
  rwa [hts.apart.tokenize_eq hts.chars.symm]

section Heads

variable {selectors : List String} (h : ∀ s ∈ selectors, IsChain s.toList)

include h

theorem chars_ofSelectors : chars (Token.ofSelectors selectors) = (Text.joined "," selectors).toList := by
  fun_induction Token.ofSelectors selectors with
  | case1 => rfl
  | case2 s => exact chars_tokenize s
  | case3 s t rest ih =>
      have hcomma : chars (Token.comma :: Token.ofSelectors (t :: rest))
          = ',' :: chars (Token.ofSelectors (t :: rest)) := rfl
      rw [chars_append, chars_tokenize, hcomma, ih fun u hu => h u (List.mem_cons_of_mem s hu), Text.joined]
      simp

theorem apart_ofSelectors : Apart ['\x7b'] (Token.ofSelectors selectors) := by
  intro rest hrest
  fun_induction Token.ofSelectors selectors with
  | case1 => exact Stands.nil
  | case2 s => exact (areSelectorTokens_tokenize (h s List.mem_cons_self)).apart.mono (by decide) rest hrest
  | case3 s t more ih =>
      have hmore := Stands.cons (stands_single (t := Token.comma) (c := ',') rfl rfl)
        (ih fun u hu => h u (List.mem_cons_of_mem s hu))
      exact Stands.append ((areSelectorTokens_tokenize (h s List.mem_cons_self)).apart _ rfl) hmore

/-- The head of a rule falls into the tokens of its selectors. -/
theorem tokenize_joined : tokenize (Text.joined "," selectors) = Token.ofSelectors selectors :=
  (apart_ofSelectors h).tokenize_eq (chars_ofSelectors h).symm

theorem isLevel_of_mem_ofSelectors : ∀ t ∈ Token.ofSelectors selectors, t.kind.isLevel = true := by
  intro t ht
  fun_induction Token.ofSelectors selectors with
  | case1 => cases ht
  | case2 s => exact ((areSelectorTokens_tokenize (h s List.mem_cons_self)).kinds t ht).1
  | case3 s u more ih =>
      rcases List.mem_append.mp ht with ht | ht
      · exact ((areSelectorTokens_tokenize (h s List.mem_cons_self)).kinds t ht).1
      · rcases List.mem_cons.mp ht with rfl | ht
        · rfl
        · exact ih (fun v hv => h v (List.mem_cons_of_mem s hv)) ht

omit h in
theorem startsRule_of_isSimpleKind {t : Token} {ts : List Token} (ht : isSimpleKind t.kind = true) :
    Parser.startsRule (t :: ts) = true := by
  rw [Parser.startsRule]
  cases hkind : t.kind <;> rw [hkind] at ht <;> first | rfl | exact absurd ht (by decide)

theorem startsRule_ofSelectors : Parser.startsRule (Token.ofSelectors selectors) = true := by
  have hfirst : ∀ {s : String} (more : List Token), s ∈ selectors → Parser.startsRule (tokenize s ++ more) = true := by
    intro s more hs
    have hstarts := (areSelectorTokens_tokenize (h s hs)).starts
    cases hcons : tokenize s with
    | nil =>
        rw [hcons] at hstarts
        cases hstarts
    | cons t ts =>
        rw [hcons] at hstarts
        exact startsRule_of_isSimpleKind hstarts
  rw [Token.ofSelectors.eq_def]
  split
  · rfl
  · next s =>
      have hstarts := hfirst [] (List.mem_singleton_self s)
      rwa [List.append_nil] at hstarts
  · exact hfirst _ List.mem_cons_self

omit h in
theorem splitSelectors_append {ts more : List Token} (hts : ∀ t ∈ ts, t.kind.isLevel = true ∧ t.kind ≠ .comma) :
    Parser.splitSelectors 0 (ts ++ Token.comma :: more) = ts :: Parser.splitSelectors 0 more := by
  induction ts with
  | nil => rfl
  | cons t ts ih =>
      have hlevel : ∀ u ∈ t :: ts, u.kind.isLevel = true := fun u hu => (hts u hu).1
      rw [List.cons_append, Parser.splitSelectors, if_neg (by simp [(hts t List.mem_cons_self).2]),
        Parser.depthAfter_of_isLevel hlevel List.mem_cons_self, ih fun u hu => hts u (List.mem_cons_of_mem t hu)]

omit h in
theorem splitSelectors_eq_singleton {ts : List Token} (hts : ∀ t ∈ ts, t.kind.isLevel = true ∧ t.kind ≠ .comma) :
    Parser.splitSelectors 0 ts = [ts] := by
  induction ts with
  | nil => rfl
  | cons t ts ih =>
      have hlevel : ∀ u ∈ t :: ts, u.kind.isLevel = true := fun u hu => (hts u hu).1
      rw [Parser.splitSelectors, if_neg (by simp [(hts t List.mem_cons_self).2]),
        Parser.depthAfter_of_isLevel hlevel List.mem_cons_self, ih fun u hu => hts u (List.mem_cons_of_mem t hu)]

omit h in
theorem compact_tokenize {s : String} (hs : IsChain s.toList) : Spacing.selector.compact (tokenize s) = s := by
  rw [Spacing.compact, (areSelectorTokens_tokenize hs).compact, source_tokenize]

omit h in
theorem ne_empty_of_isChain {s : String} (hs : IsChain s.toList) : s.isEmpty = false := by
  have hstarts := hs.startsCompound []
  rw [Bool.eq_false_iff]
  intro hempty
  rw [String.isEmpty_iff.mp hempty] at hstarts
  cases hstarts

/-- The selectors are found between the commas. -/
theorem selectors_ofSelectors : Parser.selectors (Token.ofSelectors selectors) = selectors := by
  fun_induction Token.ofSelectors selectors with
  | case1 => rfl
  | case2 s =>
      have hs := h s List.mem_cons_self
      rw [Parser.selectors, splitSelectors_eq_singleton (areSelectorTokens_tokenize hs).kinds]
      simp [compact_tokenize hs, ne_empty_of_isChain hs]
  | case3 s t rest ih =>
      have hs := h s List.mem_cons_self
      have hih := ih fun u hu => h u (List.mem_cons_of_mem s hu)
      rw [Parser.selectors] at hih
      rw [Parser.selectors, splitSelectors_append (areSelectorTokens_tokenize hs).kinds, List.map_cons,
        List.filter_cons_of_pos (by simp [compact_tokenize hs, ne_empty_of_isChain hs]), hih, compact_tokenize hs]

end Heads

end Selector

end CssMinify
