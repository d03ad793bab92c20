import CssMinify.Proofs.Selector.Places
import CssMinify.Proofs.Selector.Search

/-!
The pseudo selectors that are searched for in a text against those that are read from it. Whether a selector may share
a rule is decided by the search, which knows no tokens. Where every colon is followed by a name of letters and hyphens
only, what the reader finds is spelled out behind a colon, also in an argument of an argument, and the search meets it
there unless it lies in an argument. Elsewhere a name may be taken for a shorter one, or be overlooked.
-/

namespace CssMinify

open Lexer

/-- What is trimmed off are ends. -/
theorem exists_eq_trimEnds {α : Type} (p : α → Bool) (l : List α) :
    ∃ a b, l = a ++ trimEnds p l ++ b ∧ (∀ x ∈ a, p x = true) ∧ ∀ x ∈ b, p x = true := by
  refine ⟨l.takeWhile p, ((l.dropWhile p).reverse.takeWhile p).reverse, ?_, fun x hx => List.mem_takeWhile_imp hx,
    fun x hx => List.mem_takeWhile_imp (List.mem_reverse.mp hx)⟩
  rw [trimEnds, List.append_assoc, ← List.reverse_append, List.takeWhile_append_dropWhile, List.reverse_reverse,
    List.takeWhile_append_dropWhile]

namespace Lexer

/-- A text that ends in a colon only if a backslash stands before it. -/
def GuardsColon (text : List Char) : Prop := ∀ front, text = front ++ [':'] → front.getLast? = some '\\'

theorem guardsColon_of_ne {text : List Char} (h : text.getLast? ≠ some ':') : GuardsColon text := by
  rintro front rfl
  simp at h

theorem GuardsColon.append {text : List Char} (h : GuardsColon text) (hne : text ≠ []) (start : List Char) :
    GuardsColon (start ++ text) := by
  intro front heq
  obtain ⟨init, last, rfl⟩ := (List.eq_nil_or_concat' text).resolve_left hne
  rw [← List.append_assoc] at heq
  obtain ⟨rfl, hlast⟩ := List.append_inj' heq rfl
  have hinit : init.getLast? = some '\\' := h init (by rw [hlast])
  rw [List.getLast?_append, hinit, Option.some_or]

theorem GuardsColon.getLast?_ne {text : List Char} (h : GuardsColon text) (hslash : ∀ front, text = front ++ [':'] →
    front.getLast? ≠ some '\\') : text.getLast? ≠ some ':' := by
  intro hlast
  obtain ⟨front, rfl⟩ := List.getLast?_eq_some_iff.mp hlast
  exact hslash front rfl (h front rfl)

theorem guardsColon_escape {s : List Char} (h : startsEscape s = true) : GuardsColon (s.take (escapeLength s)) := by
  unfold startsEscape at h
  split at h
  · next c rest =>
      rw [escapeLength]
      split
      · next hhex =>
          -- The escape ends in a digit or in the space after it.
          obtain ⟨more, hmore⟩ : ((c :: rest).take 6).takeWhile Text.isHexDigit <+: c :: rest :=
            (List.takeWhile_prefix _).trans (List.take_prefix 6 _)
          have hdigits : ∀ d ∈ ((c :: rest).take 6).takeWhile Text.isHexDigit, Text.isHexDigit d = true :=
            fun d hd => List.mem_takeWhile_imp hd
          have hne : ((c :: rest).take 6).takeWhile Text.isHexDigit ≠ [] := by
            simp [List.takeWhile_cons_of_pos hhex]
          generalize ((c :: rest).take 6).takeWhile Text.isHexDigit = digits at hmore hdigits hne ⊢
          dsimp only
          rw [← hmore, List.drop_left, Nat.add_assoc, Nat.add_comm 1, List.take_succ_cons, List.take_length_add_append]
          split
          · next hspace =>
              cases more with
              | nil => cases hspace
              | cons d more =>
                  refine guardsColon_of_ne fun heq => ?_
                  obtain rfl : d = ':' := by simpa [List.getLast?_cons] using heq
                  cases hspace
          · refine guardsColon_of_ne fun heq => ?_
            have hlast : digits.getLast? = some ':' := by
              rw [List.take_zero, List.append_nil, List.getLast?_cons_of_ne_nil hne] at heq
              exact heq
            have hhex := hdigits ':' (List.mem_of_getLast? hlast)
            cases hhex
      · intro front heq
        have : ['\\', c] = front ++ [':'] := by simpa using heq
        obtain ⟨rfl, -⟩ := List.append_inj' (show ['\\'] ++ [c] = front ++ [':'] from this) rfl
        rfl
  · cases h

theorem guardsColon_name (s : List Char) : GuardsColon (s.take (nameLength s)) := by
  fun_induction nameLength s with
  | case1 => exact guardsColon_of_ne (by simp)
  | case2 c rest hc ih =>
      rw [Nat.add_comm 1, List.take_succ_cons]
      by_cases hnil : rest.take (nameLength rest) = []
      · rw [hnil]
        refine guardsColon_of_ne fun heq => ?_
        obtain rfl : c = ':' := by simpa using heq
        cases hc
      · exact ih.append hnil [c]
  | case3 c rest hc hescape n ih =>
      have hpos : 0 < n := escapeLength_pos hescape
      have hdrop : rest.drop (n - 1) = (c :: rest).drop n := by
        obtain ⟨k, hk⟩ := Nat.exists_eq_succ_of_ne_zero hpos.ne'
        simp [hk]
      rw [hdrop] at ih ⊢
      rw [List.take_add]
      by_cases hnil : ((c :: rest).drop n).take (nameLength ((c :: rest).drop n)) = []
      · rw [hnil, List.append_nil]
        exact guardsColon_escape hescape
      · exact ih.append hnil _
  | case4 c rest hc hescape => exact guardsColon_of_ne (by simp)

/-- A comment that does not take the rest of the text ends in a slash. -/
theorem getLast?_comment {s : List Char} (h : commentLength s < s.length) :
    (s.take (commentLength s)).getLast? = some '/' := by
  fun_induction commentLength s with
  | case1 rest => rfl
  | case2 c rest _ ih =>
      have hlast := ih (by rw [List.length_cons] at h; omega)
      rw [Nat.add_comm 1, List.take_succ_cons, List.getLast?_cons, hlast]
      rfl
  | case3 => cases h

theorem getLast?_of_comment {text rest : List Char} (h : Reads .comment text rest) (hrest : rest ≠ []) :
    text.getLast? = some '/' := by
  cases h with
  | @comment body _ hend =>
      have hlast := getLast?_comment (s := body ++ rest) (by
        rw [hend, List.length_append]
        have hpos := List.length_pos_iff.mpr hrest
        omega)
      rw [hend, List.take_left] at hlast
      rw [List.getLast?_cons, List.getLast?_cons, hlast]
      rfl
  | lone hkind => exact absurd hkind (single_ne rfl)

/-- A token behind which the reader looks for a simple selector ends in no colon, except an escaped one. -/
theorem Reads.guardsColon {kind : TokenKind} {text rest : List Char} (h : Reads kind text rest)
    (hkind : kind = .comment ∨ Selector.isSeam kind = true) (hrest : rest ≠ []) : GuardsColon text := by
  have hname : ∀ {name : List Char}, nameLength (name ++ rest) = name.length → GuardsColon name := by
    intro name hend
    have hguards := guardsColon_name (name ++ rest)
    rwa [hend, List.take_left] at hguards
  have hlone : ∀ {c : Char}, c ≠ ':' → GuardsColon [c] := fun hc => guardsColon_of_ne (by simpa using hc)
  cases h with
  | comment hend =>
      refine guardsColon_of_ne ?_
      rw [getLast?_of_comment (.comment hend) hrest]
      decide
  | whitespace hne hall =>
      refine guardsColon_of_ne fun heq => ?_
      cases hall ':' (List.mem_of_getLast? heq)
  | hash hne hend => exact (hname hend).append hne ['#']
  | ident hstart hmarkup hend => exact hname hend
  | lone hsingle hone =>
      refine hlone ?_
      rintro rfl
      cases hsingle
      rcases hkind with hkind | hkind <;> cases hkind
  | _ => rcases hkind with hkind | hkind <;> cases hkind

end Lexer

namespace Selector

section Names

open Mention

variable {ts us vs : List Token} {p q : Piece} {pieces rest : List Piece}

theorem eq_of_single_eq_colon {c : Char} (h : single c = .colon) : c = ':' := by
  unfold single at h
  split at h <;> first | rfl | cases h

theorem eq_of_single_eq_closeParen {c : Char} (h : single c = .closeParen) : c = ')' := by
  unfold single at h
  split at h <;> first | rfl | cases h

theorem text_of_colon {t : Token} {rest : List Char} (h : Reads t.kind t.text.toList rest) (hkind : t.kind = .colon) :
    t.text.toList = [':'] := by
  rw [hkind] at h
  generalize t.text.toList = text at h
  cases h with
  | lone hsingle => rw [eq_of_single_eq_colon hsingle]

theorem head?_of_comment {t : Token} {rest : List Char} (h : Reads t.kind t.text.toList rest)
    (hkind : t.kind = .comment) : t.text.toList.head? = some '/' := by
  rw [hkind] at h
  generalize t.text.toList = text at h
  cases h with
  | comment => rfl
  | lone hsingle => exact absurd hsingle (single_ne rfl)

/-- Where a run ends cleanly no comment comes first, so the first piece is the first token. -/
theorem eq_cons_of_endsCleanly (hts : tokens (chars vs) = vs) (hclean : endsCleanly (chars vs) = true)
    (hpieces : Piece.ofTokens vs = q :: rest) : ∃ ws, vs = q.token :: ws ∧ Piece.ofTokens ws = rest := by
  obtain ⟨comments, ws, rfl, hall, -, hrest⟩ := exists_tokens_of_cons hpieces
  cases comments with
  | nil => exact ⟨ws, rfl, hrest⟩
  | cons t comments =>
      obtain ⟨after, hchars, -, hreads⟩ := reads_of_tokens hts
      have hhead := head?_of_comment hreads (hall t List.mem_cons_self)
      obtain ⟨tail, htail⟩ := exists_cons_of_head? hhead
      rw [hchars, htail] at hclean
      cases hclean

/-- Behind a colon the name of a pseudo selector is the run of letters and hyphens. -/
theorem name_of_endsCleanly {name after : List Char} (hclean : endsCleanly (name ++ after) = true)
    (hend : nameLength (name ++ after) = name.length) : (name ++ after).takeWhile isNameChar = name := by
  have hsplit := List.takeWhile_append_dropWhile (p := isNameChar) (l := name ++ after)
  have hletters : ∀ c ∈ (name ++ after).takeWhile isNameChar, continuesName c = true := by
    intro c hc
    have hletter := List.mem_takeWhile_imp hc
    simp only [isNameChar, Bool.or_eq_true] at hletter
    rcases hletter with h | h <;> simp [continuesName, startsName, h]
  have hstop : nameLength ((name ++ after).dropWhile isNameChar) = 0 := by
    rw [nameLength_eq_zero_iff]
    rw [endsCleanly] at hclean
    cases hdrop : (name ++ after).dropWhile isNameChar with
    | nil => rfl
    | cons c tail =>
        simp only [hdrop, List.head?_cons, Option.all_some, Bool.and_eq_true, Bool.not_eq_true', bne_iff_ne] at hclean
        have hescape : startsEscape (c :: tail) = false := by
          rw [startsEscape]
          rintro d more heq
          exact hclean.1.2 (List.cons.inj heq).1
        simp [hclean.1.1, hescape]
  have hlength : ((name ++ after).takeWhile isNameChar).length = name.length := by
    rw [← hend]
    conv_rhs => rw [← hsplit]
    rw [nameLength_append hletters, hstop, Nat.add_zero]
  exact (List.append_inj hsplit hlength).1

theorem lower_append (s t : String) : Text.lower (s ++ t) = Text.lower s ++ Text.lower t := by
  simp [Text.lower]

/-- The name that a piece gives to a pseudo selector. -/
def pseudoName (q : Piece) : List Char :=
  if q.kind = .function then q.token.text.toList.dropLast else q.token.text.toList

/-- A name or function behind colons is read there with its letters. -/
theorem read?_of_endsCleanly {colons : List Char} (hcolons : colons = [':'] ∨ colons = [':', ':'])
    (hts : tokens (chars vs) = vs) (hclean : endsCleanly (chars vs) = true) (hpieces : Piece.ofTokens vs = q :: rest)
    (hkind : q.kind = .ident ∨ q.kind = .function) :
    ∃ length, read? (colons ++ chars vs) = some (Text.lower (String.ofList (colons ++ pseudoName q)), length) := by
  obtain ⟨ws, rfl, -⟩ := eq_cons_of_endsCleanly hts hclean hpieces
  obtain ⟨after, hchars, -, hreads⟩ := reads_of_tokens hts
  obtain ⟨name, more, hsplit, hname, hne, hend⟩ : ∃ name more, chars (q.token :: ws) = name ++ more
      ∧ pseudoName q = name ∧ name ≠ [] ∧ nameLength (name ++ more) = name.length := by
    rw [hchars, pseudoName]
    have hreads : Reads q.kind q.token.text.toList after := hreads
    generalize q.token.text.toList = text at hreads
    rcases hkind with hkind | hkind
    · rw [hkind] at hreads ⊢
      cases hreads with
      | ident hstart hmarkup hend hparen =>
          exact ⟨text, after, rfl, by simp, (Reads.ident hstart hmarkup hend hparen).ne_nil, hend⟩
      | lone hsingle => exact absurd hsingle (single_ne rfl)
    · rw [hkind] at hreads ⊢
      cases hreads with
      | @function name _ hstart hend hurl =>
          refine ⟨name, '(' :: after, by simp, by simp, ?_, hend⟩
          rintro rfl
          exact absurd hend (nameLength_pos hstart).ne'
      | lone hsingle => exact absurd hsingle (single_ne rfl)
  rw [hsplit] at hclean ⊢
  have hrun := name_of_endsCleanly hclean hend
  have hstop := List.head?_dropWhile_not isNameChar (name ++ more)
  have hdrop : (name ++ more).dropWhile isNameChar = more := by
    have happend := List.takeWhile_append_dropWhile (p := isNameChar) (l := name ++ more)
    rw [hrun] at happend
    exact List.append_cancel_left happend
  refine ⟨_, read?_eq_some_iff.mpr ⟨colons, name, more, rfl, hcolons, hne, fun c hc => ?_, ?_, by rw [hname], rfl⟩⟩
  · rw [← hrun] at hc
    exact List.mem_takeWhile_imp hc
  · rw [hdrop] at hstop
    cases hhead : more.head? with
    | none => rfl
    | some c => simpa [hhead] using hstop

/-- No colon ends what stands before a place that the reader reaches. -/
theorem getLast?_chars_ne {s : List Char} {t : Token} (hlegible : isLegibleFrom none s = true)
    (hs : tokens s = us ++ t :: vs) (hlast : ∀ u ∈ us.getLast?, u.kind = .comment ∨ isSeam u.kind = true) :
    (chars us).getLast? ≠ some ':' := by
  rcases List.eq_nil_or_concat' us with rfl | ⟨us, u, rfl⟩
  · simp [chars]
  · rw [List.append_assoc] at hs
    obtain ⟨hsplit, hagain⟩ := tokens_of_append hs
    obtain ⟨after, hchars, htokens, hreads⟩ := reads_of_tokens hagain
    have hafter : after ≠ [] := by
      rintro rfl
      rw [tokens] at htokens
      cases htokens
    have hguards := hreads.guardsColon (hlast u (by simp)) hafter
    have htext : chars (us ++ [u]) = chars us ++ u.text.toList := by simp [chars]
    rw [htext, List.getLast?_append_of_ne_nil _ hreads.ne_nil]
    refine hguards.getLast?_ne fun front hfront hslash => ?_
    have hcolon : s = (chars us ++ front) ++ ':' :: after := by
      rw [hsplit, hchars, hfront]
      simp
    refine (isLegibleFrom_iff.mp hlegible _ _ hcolon).1 ?_
    rw [List.getLast?_append, hslash]
    rfl

end Names

/-- The name of a pseudo-class or pseudo-element with its colons. -/
def Simple.pseudo? : Simple → Option String
  | .pseudoClass name _ => some (":" ++ name)
  | .pseudoElement name doubleColon => some ((if doubleColon then "::" else ":") ++ name)
  | _ => none

/-- A pseudo selector of this name is read from a text, or from the argument of a pseudo-class that is. -/
inductive Finds : String → String → Prop
  | here {text name : String} {selectors : List Complex} {simple : Simple} (hparse : parseList text = .ok selectors)
      (hmem : simple ∈ simplesOf selectors) (hname : simple.pseudo? = some name) : Finds text name
  | inside {text argument name outer : String} {selectors : List Complex} (hparse : parseList text = .ok selectors)
      (hmem : .pseudoClass outer (some argument) ∈ simplesOf selectors) (hfinds : Finds argument name) : Finds text name

section Reading

open Mention

variable {started doubleColon : Bool} {p : Piece} {pieces rest after : List Piece} {simple : Simple} {name : String}

theorem pseudo?_of_readAttribute (h : readAttribute pieces = (some simple, after)) : simple.pseudo? = none := by
  rw [readAttribute] at h
  repeat' split at h
  all_goals obtain ⟨hsimple, -⟩ := Prod.mk.inj h
  all_goals cases hsimple
  all_goals rfl

theorem SimpleStep.pseudo?_of_ne (h : SimpleStep.read started p rest = .found simple after) (hkind : p.kind ≠ .colon) :
    simple.pseudo? = none := by
  rw [SimpleStep.read.eq_def] at h
  split at h
  · split at h
    · cases h
    · cases h
      rfl
  · cases h
    rfl
  · split at h
    · cases h
    · cases h
      rfl
  · split at h
    · split at h
      · cases h
        rfl
      · cases h
    · cases h
  · split at h
    · next hattribute =>
        cases h
        exact pseudo?_of_readAttribute hattribute
    · cases h
  · next hcolon => exact absurd hcolon hkind
  · cases h

/-- A pseudo selector is read behind one colon or two. -/
theorem SimpleStep.exists_of_read (h : SimpleStep.read started p rest = .found simple after)
    (hname : simple.pseudo? = some name) :
    p.kind = .colon ∧ ∃ doubleColon more, SimpleStep.readPseudo doubleColon more = .found simple after
      ∧ (doubleColon = false ∧ rest = more ∨ doubleColon = true ∧ ∃ q, q.kind = .colon ∧ rest = q :: more) := by
  have hkind : p.kind = .colon := by
    by_contra hne
    rw [SimpleStep.pseudo?_of_ne h hne] at hname
    cases hname
  refine ⟨hkind, ?_⟩
  simp only [SimpleStep.read, hkind] at h
  split at h
  · next q more =>
      split at h
      · next hcolon => exact ⟨true, more, h, .inr ⟨rfl, q, by simpa using hcolon, rfl⟩⟩
      · exact ⟨false, q :: more, h, .inl ⟨rfl, rfl⟩⟩
  · exact ⟨false, [], h, .inl ⟨rfl, rfl⟩⟩

/-- The colons of a pseudo selector. -/
def colonsOf (doubleColon : Bool) : List Char := if doubleColon then [':', ':'] else [':']

theorem lower_colonsOf (doubleColon : Bool) (name : List Char) :
    Text.lower (String.ofList (colonsOf doubleColon ++ name))
      = (if doubleColon then "::" else ":") ++ Text.lower (String.ofList name) := by
  rw [String.ofList_append, lower_append]
  cases doubleColon <;> rfl

/-- Its name is that of the piece behind the colons, and its argument the text up to the parenthesis. -/
theorem SimpleStep.exists_of_readPseudo (h : SimpleStep.readPseudo doubleColon pieces = .found simple after) :
    ∃ q more, pieces = q :: more ∧ (q.kind = .ident ∨ q.kind = .function)
      ∧ simple.pseudo? = some (Text.lower (String.ofList (colonsOf doubleColon ++ pseudoName q)))
      ∧ ∀ outer argument, simple = .pseudoClass outer (some argument) →
        q.kind = .function ∧ argument = argumentText (spanArgument 1 more).1 := by
  rw [SimpleStep.readPseudo.eq_def] at h
  split at h
  · cases h
  · next q more =>
      refine ⟨q, more, rfl, ?_⟩
      rw [lower_colonsOf]
      split at h
      · next hkind =>
          have hname : pseudoName q = q.token.text.toList := if_neg (by rw [hkind]; decide)
          rw [hname, hkind, String.ofList_toList]
          dsimp only at h
          split at h
          · cases h
            exact ⟨.inl rfl, rfl, by rintro _ _ ⟨⟩⟩
          · next hclass =>
              have hsimple : doubleColon = false := by
                rw [Bool.or_eq_true, not_or] at hclass
                simpa using hclass.1
              cases h
              exact ⟨.inl rfl, by rw [hsimple]; rfl, by rintro _ _ ⟨⟩⟩
      · next hkind =>
          have hname : pseudoName q = q.token.text.toList.dropLast := if_pos hkind
          rw [hname, hkind]
          dsimp only at h
          split at h
          · cases h
            exact ⟨.inr rfl, rfl, by rintro _ _ ⟨⟩⟩
          · next hclass =>
              have hsimple : doubleColon = false := by simpa using hclass
              cases h
              refine ⟨.inr rfl, by rw [hsimple]; rfl, ?_⟩
              intro outer argument heq
              exact ⟨rfl, (Option.some.inj (Simple.pseudoClass.inj heq).2).symm⟩
      · cases h

end Reading

section Arguments

open Mention

variable {vs : List Token} {body rest : List Piece}

/-- The text of an argument stands between its parentheses, or runs to the end. -/
theorem exists_body (pieces : List Piece) :
    ∃ body rest, pieces = body ++ rest ∧ argumentText (spanArgument 1 pieces).1 = Text.trim (Piece.source body)
      ∧ rest.head?.all (·.kind == .closeParen) = true := by
  obtain ⟨hsplit, hend⟩ := spanArgument_spec (by decide : (1 : Nat) ≠ 0) pieces
  generalize (spanArgument 1 pieces).1 = inside at hsplit hend ⊢
  generalize (spanArgument 1 pieces).2 = after at hsplit hend
  subst hsplit
  rw [argumentText]
  rcases List.eq_nil_or_concat' inside with rfl | ⟨body, p, rfl⟩
  · rcases hend with rfl | ⟨body, p, hnil, -⟩
    · exact ⟨[], [], rfl, rfl, rfl⟩
    · simp at hnil
  · by_cases hp : p.kind = .closeParen
    · exact ⟨body, p :: after, by simp, by simp [hp], by simp [hp]⟩
    · rcases hend with rfl | ⟨inside, q, heq, hq⟩
      · exact ⟨body ++ [p], [], by simp, by simp [hp], rfl⟩
      · rw [(List.append_inj' heq rfl).2 |> List.singleton_inj.mp] at hp
        exact absurd hq hp

/-- The characters of pieces with the comments before each. -/
def flatten (pieces : List Piece) : List Char := pieces.flatMap fun p => p.gap.toList ++ p.token.text.toList

theorem toList_source (p : Piece) (pieces : List Piece) :
    (Piece.source (p :: pieces)).toList = p.token.text.toList ++ flatten pieces := by
  rw [Piece.source, String.toList_append, Text.toList_concat, List.flatMap_map, flatten]
  simp only [String.toList_append]

/-- Behind some pieces comes a comment, the next piece or nothing. -/
theorem exists_chars_of_append (hts : tokens (chars vs) = vs) (hpieces : Piece.ofTokens vs = body ++ rest)
    (hclose : rest.head?.all (·.kind == .closeParen) = true) :
    ∃ more, chars vs = flatten body ++ more ∧ more.head?.all endsMention = true := by
  induction body generalizing vs with
  | nil =>
      refine ⟨chars vs, rfl, ?_⟩
      cases vs with
      | nil => rfl
      | cons t vs =>
          obtain ⟨after, hchars, -, hreads⟩ := reads_of_tokens hts
          have hhead : t.text.toList.head?.all endsMention = true := by
            by_cases hcomment : t.kind = .comment
            · rw [head?_of_comment hreads hcomment]
              rfl
            · rw [Piece.ofTokens, Piece.ofTokensAfter, if_neg (by simpa using hcomment), List.nil_append] at hpieces
              have hkind : t.kind = .closeParen := by simpa [← hpieces, Piece.kind] using hclose
              rw [hkind] at hreads
              generalize t.text.toList = text at hreads
              cases hreads with
              | lone hsingle =>
                  rw [eq_of_single_eq_closeParen hsingle]
                  rfl
          rw [hchars, List.head?_append_of_ne_nil _ hreads.ne_nil]
          exact hhead
  | cons p body ih =>
      obtain ⟨comments, ws, rfl, -, hgap, hws⟩ := exists_tokens_of_cons hpieces
      have hsplit : comments ++ p.token :: ws = (comments ++ [p.token]) ++ ws := by simp
      rw [hsplit] at hts
      obtain ⟨-, hagain⟩ := tokens_of_append hts
      obtain ⟨more, hmore, hhead⟩ := ih hagain hws
      refine ⟨more, ?_, hhead⟩
      have hgapchars : p.gap.toList = chars comments := by
        rw [hgap, String.empty_append, toList_tokenSource]
      simp only [chars, flatten] at hmore hgapchars ⊢
      simp [hmore, hgapchars]

theorem endsMention_of_isBlank {c : Char} (h : Text.isBlank c = true) : endsMention c = true := by
  rw [endsMention, isNameChar, Bool.and_eq_true, Bool.not_eq_true', Bool.or_eq_false_iff]
  have hne : ∀ d, Text.isBlank d = false → c ≠ d := by
    rintro d hd rfl
    rw [h] at hd
    cases hd
  refine ⟨⟨?_, by simpa using hne '-' rfl⟩, by simpa using hne ':' rfl⟩
  rw [Bool.eq_false_iff]
  intro halpha
  have hrange := Text.toNat_of_isAlpha halpha
  simp only [Text.isBlank, Bool.or_eq_true, Bool.and_eq_true, decide_eq_true_eq, beq_iff_eq] at h
  omega

/-- Comments with something behind them end in a slash. -/
theorem getLast?_chars_comments {comments ts : List Token} {t : Token}
    (hts : tokens (chars (comments ++ t :: ts)) = comments ++ t :: ts) (hall : ∀ c ∈ comments, c.kind = .comment) :
    (chars comments).getLast?.all (· == '/') = true := by
  rcases List.eq_nil_or_concat' comments with rfl | ⟨comments, c, rfl⟩
  · rfl
  · rw [List.append_assoc, List.singleton_append] at hts
    obtain ⟨-, hagain⟩ := tokens_of_append hts
    obtain ⟨after, -, hafter, hreads⟩ := reads_of_tokens hagain
    have hne : after ≠ [] := by
      rintro rfl
      rw [tokens] at hafter
      cases hafter
    rw [hall c (by simp)] at hreads
    have htext : chars (comments ++ [c]) = chars comments ++ c.text.toList := by simp [chars]
    rw [htext, List.getLast?_append_of_ne_nil _ hreads.ne_nil, getLast?_of_comment hreads hne]
    rfl

/-- The argument of a pseudo-class stands in the text without a pseudo selector being cut. -/
theorem inside_argument {front : List Char} (hts : tokens (chars vs) = vs) (hfront : front.getLast? = some '(')
    (hne : argumentText (spanArgument 1 (Piece.ofTokens vs)).1 ≠ "") :
    Inside (argumentText (spanArgument 1 (Piece.ofTokens vs)).1).toList (front ++ chars vs) := by
  obtain ⟨body, rest, hpieces, htext, hclose⟩ := exists_body (Piece.ofTokens vs)
  rw [htext] at hne ⊢
  cases body with
  | nil => exact absurd rfl hne
  | cons p body =>
      obtain ⟨comments, ws, rfl, hall, -, hws⟩ := exists_tokens_of_cons hpieces
      have hsplit : comments ++ p.token :: ws = (comments ++ [p.token]) ++ ws := by simp
      obtain ⟨-, hagain⟩ := tokens_of_append (hts.trans hsplit)
      obtain ⟨more, hmore, hhead⟩ := exists_chars_of_append hagain hws hclose
      obtain ⟨a, b, htrim, ha, hb⟩ := exists_eq_trimEnds Text.isBlank (Piece.source (p :: body)).toList
      have hcomments := getLast?_chars_comments hts hall
      rw [toList_source] at htrim
      rw [Text.trim, String.toList_ofList, toList_source]
      refine ⟨front ++ chars comments ++ a, b ++ more, ?_, ?_, ?_⟩
      · have hchars : chars (comments ++ p.token :: ws)
            = chars comments ++ (p.token.text.toList ++ flatten body ++ more) := by
          rw [chars_append, List.append_assoc, ← hmore]
          rfl
        rw [hchars]
        conv_lhs => rw [htrim]
        simp only [List.append_assoc]
      · rw [List.getLast?_append, List.getLast?_append, hfront]
        cases hlast : a.getLast? with
        | some c =>
            have hc := endsMention_of_isBlank (ha c (List.mem_of_getLast? hlast))
            rintro heq
            rw [Option.some_or, Option.some.injEq] at heq
            rw [heq] at hc
            cases hc
        | none =>
            cases hslash : (chars comments).getLast? with
            | none => simp
            | some c =>
                have hc : c = '/' := by simpa [hslash] using hcomments
                simp [hc]
      · cases b with
        | nil => exact hhead
        | cons c b => exact endsMention_of_isBlank (hb c List.mem_cons_self)

end Arguments

section Finding

open Mention

/-- A colon that is a token is followed by what the tokens behind it are read from. -/
theorem exists_chars_of_colon {s : List Char} {us vs : List Token} {t : Token} (hlegible : isLegibleFrom none s = true)
    (hs : tokens s = us ++ t :: vs) (hcolon : t.kind = .colon) :
    s = chars us ++ ':' :: chars vs ∧ tokens (chars vs) = vs ∧ endsCleanly (chars vs) = true
      ∧ t.text.toList = [':'] := by
  obtain ⟨hsplit, hagain⟩ := tokens_of_append hs
  obtain ⟨after, -, -, hreads⟩ := reads_of_tokens hagain
  have hbehind : tokens s = (us ++ [t]) ++ vs := by simpa using hs
  obtain ⟨-, htokens⟩ := tokens_of_append hbehind
  have hcolons := text_of_colon hreads hcolon
  have htext : s = chars us ++ ':' :: chars vs := by
    rw [hsplit]
    show chars us ++ (t.text.toList ++ chars vs) = _
    rw [hcolons]
    rfl
  exact ⟨htext, htokens, (isLegibleFrom_iff.mp hlegible _ _ htext).2, hcolons⟩

/-- Where a pseudo selector is read from a legible text, its colons and its name stand, behind no colon. -/
theorem exists_chars_of_mem {text name : String} {simple : Simple} (hlegible : isLegible text = true)
    (hmem : simple ∈ simplesOf (readList text).1) (hname : simple.pseudo? = some name) :
    ∃ us doubleColon ws q tail, text.toList = chars us ++ (colonsOf doubleColon ++ chars ws)
      ∧ (chars us).getLast? ≠ some ':' ∧ tokens (chars ws) = ws ∧ endsCleanly (chars ws) = true
      ∧ Piece.ofTokens ws = q :: tail ∧ (q.kind = .ident ∨ q.kind = .function)
      ∧ name = Text.lower (String.ofList (colonsOf doubleColon ++ pseudoName q))
      ∧ ∀ outer argument, simple = .pseudoClass outer (some argument) →
        q.kind = .function ∧ argument = argumentText (spanArgument 1 tail).1 := by
  obtain ⟨started, p, rest, after, hreach, hread⟩ := foundIn_readList hmem
  obtain ⟨hcolon, doubleColon, more, hpseudo, hmore⟩ := SimpleStep.exists_of_read hread hname
  obtain ⟨q, tail, rfl, hkind, hspelled, hargument⟩ := SimpleStep.exists_of_readPseudo hpseudo
  obtain ⟨us, vs, hts, hvs, hlast⟩ := exists_tokens_of_reaches hreach
  have hfront := getLast?_chars_ne hlegible hts hlast
  obtain ⟨htext, htokens, hclean, hfirst⟩ := exists_chars_of_colon hlegible hts hcolon
  have hnamed : name = Text.lower (String.ofList (colonsOf doubleColon ++ pseudoName q)) :=
    Option.some.inj (hname.symm.trans hspelled)
  rcases hmore with ⟨rfl, rfl⟩ | ⟨rfl, r, hr, rfl⟩
  · exact ⟨us, false, vs, q, tail, htext, hfront, htokens, hclean, hvs, hkind, hnamed, hargument⟩
  · obtain ⟨ws, rfl, hws⟩ := eq_cons_of_endsCleanly htokens hclean hvs
    have hagain : tokens text.toList = (us ++ [p.token]) ++ r.token :: ws := by simpa [tokenize] using hts
    obtain ⟨hdouble, htokens, hclean, -⟩ := exists_chars_of_colon hlegible hagain hr
    refine ⟨us, true, ws, q, tail, ?_, hfront, htokens, hclean, hws, hkind, hnamed, hargument⟩
    have hchars : chars (us ++ [p.token]) = chars us ++ [':'] := by
      rw [chars_append, ← hfirst]
      simp [chars]
    rw [hdouble, hchars, List.append_assoc]
    rfl

theorem getLast?_of_function {text rest : List Char} (h : Reads .function text rest) : text.getLast? = some '(' := by
  cases h with
  | function => exact List.getLast?_concat
  | lone hsingle => exact absurd hsingle (single_ne rfl)

theorem not_spells_nil {name : String} : ¬ Spells [] name := by
  rintro ⟨front, rest, length, hnil, -, hread⟩
  obtain ⟨-, rfl⟩ := List.append_eq_nil_iff.mp hnil.symm
  cases hread

/-- What is read from a legible text is spelled in it, also in arguments. -/
theorem spells_of_finds {text name : String} (h : Finds text name) (hlegible : isLegible text = true) :
    Spells text.toList name := by
  have hread : ∀ {text : String} {selectors : List Complex}, parseList text = .ok selectors →
      selectors = (readList text).1 := by
    intro text selectors hparse
    rw [parseList] at hparse
    split at hparse
    · exact (Except.ok.inj hparse).symm
    · cases hparse
  induction h with
  | @here text name selectors simple hparse hmem hname =>
      obtain rfl := hread hparse
      obtain ⟨us, doubleColon, ws, q, tail, htext, hfront, htokens, hclean, hpieces, hkind, rfl, -⟩ :=
        exists_chars_of_mem hlegible hmem hname
      have hcolons : colonsOf doubleColon = [':'] ∨ colonsOf doubleColon = [':', ':'] := by
        cases doubleColon <;> simp [colonsOf]
      obtain ⟨length, hlength⟩ := read?_of_endsCleanly hcolons htokens hclean hpieces hkind
      exact ⟨chars us, _, length, htext, hfront, hlength⟩
  | @inside text argument name outer selectors hparse hmem hfinds ih =>
      obtain rfl := hread hparse
      obtain ⟨us, doubleColon, ws, q, tail, htext, hfront, htokens, hclean, hpieces, hkind, hname, hargument⟩ :=
        exists_chars_of_mem hlegible hmem rfl
      obtain ⟨hfunction, rfl⟩ := hargument outer argument rfl
      obtain ⟨vs, rfl, rfl⟩ := eq_cons_of_endsCleanly htokens hclean hpieces
      obtain ⟨-, hagain⟩ := tokens_of_append (show _ = [q.token] ++ vs from htokens)
      obtain ⟨after, -, -, hreads⟩ := reads_of_tokens htokens
      have hsplit : text.toList = (chars us ++ colonsOf doubleColon ++ q.token.text.toList) ++ chars vs := by
        rw [htext, List.append_assoc, List.append_assoc]
        rfl
      have hparen : (chars us ++ colonsOf doubleColon ++ q.token.text.toList).getLast? = some '(' := by
        rw [List.getLast?_append_of_ne_nil _ hreads.ne_nil]
        have hkind : q.token.kind = .function := hfunction
        rw [hkind] at hreads
        exact getLast?_of_function hreads
      have hinside : argumentText (spanArgument 1 (Piece.ofTokens vs)).1 ≠ "" →
          Inside (argumentText (spanArgument 1 (Piece.ofTokens vs)).1).toList text.toList := by
        rw [hsplit]
        exact inside_argument hagain hparen
      by_cases hempty : argumentText (spanArgument 1 (Piece.ofTokens vs)).1 = ""
      · rw [hempty] at ih
        exact absurd (ih rfl) not_spells_nil
      · obtain ⟨front, rest, heq, -⟩ := hinside hempty
        have hpart : isLegible (argumentText (spanArgument 1 (Piece.ofTokens vs)).1) = true := by
          rw [isLegible, heq] at hlegible
          exact isLegibleFrom_of_infix hlegible
        exact (ih hpart).of_inside (hinside hempty)

/-- In a legible text, a pseudo selector that is read from a selector that may share a rule is one that every engine
knows, or it is spelled in an argument that the search passed over. -/
theorem known_of_areMergeable {profile : Profile} {text : String} (hlegible : isLegible text = true)
    (h : areMergeable profile [text] = true) {name : String} (hfinds : Finds text name) :
    name ∈ profile.selectors.mergeablePseudoClasses ∨ name ∈ profile.selectors.mergeablePseudoElements
      ∨ ∃ argument ∈ arguments text, Spells argument name := by
  obtain ⟨front, rest, length, htext, hfront, hread⟩ := spells_of_finds hfinds hlegible
  have hmentions : ∀ m ∈ Mention.all text, m.isMergeable profile.selectors = true := by
    simp only [areMergeable, isMergeable, List.all_cons, List.all_nil, Bool.and_eq_true, Bool.and_true] at h
    exact List.all_eq_true.mp h.2.2
  have hfound : (∃ m ∈ Mention.all text, m.name = name) ∨ ∃ argument ∈ arguments text, Spells argument name := by
    rw [Mention.all, arguments, htext]
    exact exists_of_spells (Nat.zero_le _) hfront hread
  rcases hfound with ⟨m, hm, rfl⟩ | hargument
  · have hknown := hmentions m hm
    simp only [Mention.isMergeable, Bool.and_eq_true] at hknown
    have hin := hknown.1.1.2
    split at hin
    · exact .inr (.inl (by simpa using hin))
    · exact .inl (by simpa using hin)
  · exact .inr (.inr hargument)

/-- The names of this selector are known, inside and outside of its argument. -/
theorem known_of_areMergeable_not : isLegible "a:not(.b):hover" = true ∧ areMergeable .modern ["a:not(.b):hover"] = true
    ∧ Finds "a:not(.b):hover" ":hover" ∧ (":hover" ∈ Profile.modern.selectors.mergeablePseudoClasses
      ∨ ":hover" ∈ Profile.modern.selectors.mergeablePseudoElements
      ∨ ∃ argument ∈ arguments "a:not(.b):hover", Spells argument ":hover") := by
  have hlegible : isLegible "a:not(.b):hover" = true := by decide +kernel
  have hmergeable : areMergeable .modern ["a:not(.b):hover"] = true := by decide +kernel
  have hparse : parseList "a:not(.b):hover"
      = .ok [⟨[⟨[.element "a", .pseudoClass "not" (some ".b"), .pseudoClass "hover" none], none⟩]⟩] := by decide +kernel
  have hmem : Simple.pseudoClass "hover" none
      ∈ simplesOf [⟨[⟨[.element "a", .pseudoClass "not" (some ".b"), .pseudoClass "hover" none], none⟩]⟩] := by decide
  have hfinds : Finds "a:not(.b):hover" ":hover" := .here hparse hmem rfl
  exact ⟨hlegible, hmergeable, hfinds, known_of_areMergeable hlegible hmergeable hfinds⟩

/-- A digit in a name and a name in an argument are overlooked. -/
theorem finds_unknown : (areMergeable .modern ["a:hover2"] = true ∧ Finds "a:hover2" ":hover2"
      ∧ ":hover2" ∉ Profile.modern.selectors.mergeablePseudoClasses
      ∧ ":hover2" ∉ Profile.modern.selectors.mergeablePseudoElements)
    ∧ (areMergeable .modern ["a:not(:foo)"] = true ∧ Finds "a:not(:foo)" ":foo"
      ∧ ":foo" ∉ Profile.modern.selectors.mergeablePseudoClasses
      ∧ ":foo" ∉ Profile.modern.selectors.mergeablePseudoElements) := by
  have hdigit : parseList "a:hover2" = .ok [⟨[⟨[.element "a", .pseudoClass "hover2" none], none⟩]⟩] := by
    decide +kernel
  have hnot : parseList "a:not(:foo)" = .ok [⟨[⟨[.element "a", .pseudoClass "not" (some ":foo")], none⟩]⟩] := by
    decide +kernel
  have hfoo : parseList ":foo" = .ok [⟨[⟨[.pseudoClass "foo" none], none⟩]⟩] := by decide +kernel
  have hsimples : Simple.pseudoClass "hover2" none
        ∈ simplesOf [⟨[⟨[.element "a", .pseudoClass "hover2" none], none⟩]⟩]
      ∧ Simple.pseudoClass "not" (some ":foo")
        ∈ simplesOf [⟨[⟨[.element "a", .pseudoClass "not" (some ":foo")], none⟩]⟩]
      ∧ Simple.pseudoClass "foo" none ∈ simplesOf [⟨[⟨[.pseudoClass "foo" none], none⟩]⟩] := by decide
  refine ⟨⟨by decide +kernel, ?_, by decide, by decide⟩, by decide +kernel, ?_, by decide, by decide⟩
  · exact .here hdigit hsimples.1 rfl
  · exact .inside hnot hsimples.2.1 (.here hfoo hsimples.2.2 rfl)

end Finding

end Selector

end CssMinify
