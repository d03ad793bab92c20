import CssMinify.Proofs.Printing.Selectors

/-!
Plain style sheets: rules with plain selectors and declarations, media blocks and comments, nested to any depth.
What is printed of one reads back as the same sheet.
-/

namespace CssMinify

open Lexer

/-- A plain node, and all nodes in it. -/
inductive Node.IsPlain : Node → Prop
  | rule {r : Rule} (hselectors : ∀ s ∈ r.selectors, Selector.IsChain s.toList)
      (hdeclarations : ∀ d ∈ r.declarations, d.IsPlain) (hnested : r.nested = []) : IsPlain (.rule r)
  | media {name : String} {children : List Node} (hname : IsName name.toList) (h : ∀ child ∈ children, IsPlain child) :
      IsPlain (.block ("@media " ++ name) children)
  | comment {body : String} (h : Text.contains body "*/" = false) : IsPlain (.comment ("/*!" ++ body ++ "*/"))

section Comments

theorem commentLength_append {cs rest : List Char} (h : Text.occursIn ['*', '/'] cs = false) :
    commentLength (cs ++ '*' :: '/' :: rest) = cs.length + 2 := by
  induction cs with
  | nil => rfl
  | cons c cs ih =>
      simp only [Text.occursIn, Bool.or_eq_false_iff] at h
      rw [List.cons_append, commentLength, ih h.2, List.length_cons]
      · omega
      · rintro more rfl hcons
        cases cs with
        | nil => cases hcons
        | cons d cs =>
            obtain ⟨rfl, -⟩ := List.cons.inj hcons
            exact absurd h.1 (by simp)

variable {body : String} (h : Text.contains body "*/" = false)

include h

theorem stands_comment (rest : List Char) : Stands [⟨.comment, "/*!" ++ body ++ "*/"⟩] rest := by
  have hbody : Text.occursIn ['*', '/'] ('!' :: body.toList) = false := h
  have htext : ("/*!" ++ body ++ "*/").toList = '/' :: '*' :: ('!' :: body.toList ++ ['*', '/']) := by simp
  refine stands_of_extent htext ?_
  have hextent : extent '/' ('*' :: ('!' :: body.toList ++ ['*', '/']) ++ rest)
      = (.comment, 2 + commentLength ('!' :: body.toList ++ ['*', '/'] ++ rest)) := rfl
  have hlength : commentLength ('!' :: body.toList ++ ['*', '/'] ++ rest) = ('!' :: body.toList).length + 2 := by
    rw [List.append_assoc]
    exact commentLength_append hbody
  rw [hextent, hlength]
  simp
  omega

end Comments

section Media

/-- The tokens of the head of a media block. -/
def Token.media (name : String) : List Token := [⟨.atKeyword, "@media"⟩, Token.space, ⟨.ident, name⟩]

variable {name : String} (hname : IsName name.toList)

include hname

theorem apart_media : Apart ['\x7b'] (Token.media name) := by
  intro rest hrest
  have hkeyword : ∀ rest, Stands [⟨.atKeyword, "@media"⟩] (' ' :: rest) := by
    intro rest
    have hnames : ∀ c ∈ ['m', 'e', 'd', 'i', 'a'], continuesName c = true := List.all_eq_true.mp rfl
    have hlength : nameLength (['m', 'e', 'd', 'i', 'a'] ++ ' ' :: rest) = 5 := by
      rw [nameLength_append hnames, nameLength_of_endsName rfl]
      rfl
    have hextent : extent '@' (['m', 'e', 'd', 'i', 'a'] ++ ' ' :: rest)
        = (.atKeyword, 1 + nameLength (['m', 'e', 'd', 'i', 'a'] ++ ' ' :: rest)) := rfl
    rw [hlength] at hextent
    exact stands_of_extent rfl hextent
  have hspace : Stands [Token.space] (name.toList ++ rest) := by
    refine stands_space ?_
    cases hchars : name.toList with
    | nil =>
        rw [hchars] at hname
        cases hname
    | cons c cs =>
        rw [hchars] at hname
        obtain ⟨hc, -⟩ := hname
        exact not_isSpace_of_startsName hc
  have hident := stands_name hname (all_of_stops hrest (by decide))
  have hchars : chars [⟨.ident, name⟩] = name.toList := by simp [chars]
  refine Stands.cons (hkeyword _) (Stands.cons ?_ hident)
  rw [hchars]
  exact hspace

theorem tokenize_media : tokenize ("@media " ++ name) = Token.media name := by
  refine (apart_media hname).tokenize_eq ?_
  simp [chars, Token.media, Token.space]

theorem isHead_media : Parser.IsHead ("@media " ++ name) ⟨.atKeyword, "@media"⟩ [Token.space, ⟨.ident, name⟩] := by
  have hne : name ≠ "" := by
    rintro rfl
    cases hname
  refine ⟨tokenize_media hname, apart_media hname, rfl, Parser.isClosedHead_of_isLevel (by simp [Token.space, TokenKind.isLevel,
    TokenKind.opensGroup, TokenKind.closesGroup]), ?_⟩
  have hcompact : Spacing.head.compact [Token.space, ⟨.ident, name⟩] = name := by
    simp [Spacing.compact, Spacing.compactAfter, Token.isTrivia, Token.space, TokenKind.isTrivia]
  have hatName : Parser.atName ⟨.atKeyword, "@media"⟩ = "media" := by decide
  rw [Parser.atHead, hcompact, hatName]
  simp [hne, ← String.append_assoc]

end Media

theorem itemsFrom_nil (count : Nat) (declarations : List Declaration) :
    Rule.itemsFrom count declarations [] = declarations.map .declaration := by
  induction declarations generalizing count with
  | nil => rfl
  | cons d declarations ih =>
      rw [Rule.itemsFrom, List.map_cons, ← ih (count + 1)]
      rfl

namespace Node.IsPlain

theorem rule_reads {r : Rule} (hselectors : ∀ s ∈ r.selectors, Selector.IsChain s.toList)
    (hdeclarations : ∀ d ∈ r.declarations, d.IsPlain) (hnested : r.nested = []) : r.Reads := by
  have hhead := Selector.tokenize_joined hselectors
  refine ⟨?_, ?_, ?_, ?_, ?_⟩
  · rw [hhead]
    exact Selector.apart_ofSelectors hselectors
  · rw [hhead]
    exact Selector.startsRule_ofSelectors hselectors
  · rw [hhead]
    exact Parser.isClosedHead_of_isLevel (Selector.isLevel_of_mem_ofSelectors hselectors)
  · rw [hhead]
    exact Selector.selectors_ofSelectors hselectors
  · rw [Rule.items, hnested, itemsFrom_nil]
    simpa using fun d hd => Declaration.reads (hdeclarations d hd)

theorem reads {node : Node} (h : node.IsPlain) : node.Reads := by
  induction h with
  | rule hselectors hdeclarations hnested => exact .rule (rule_reads hselectors hdeclarations hnested)
  | media hname _ ih => exact .block (isHead_media hname) (by decide) ih
  | comment h => exact .comment (stands_comment h)

theorem arises {node : Node} (h : node.IsPlain) : node.Arises := by
  induction h with
  | rule _ _ hnested =>
      refine .rule ?_
      rw [hnested]
      exact ⟨List.Pairwise.nil, by simp, by simp⟩
  | media _ _ ih => exact .block ih
  | comment h =>
      have hstart : "/*!".toList = ['/', '*', '!'] := rfl
      exact .comment (by simp [Text.startsWith, hstart, List.isPrefixOf])

end Node.IsPlain

/-- What is printed of a plain sheet reads back as the sheet. -/
theorem Sheet.parse_print {sheet : Sheet} (h : ∀ node ∈ sheet, node.IsPlain) : Sheet.parse sheet.print = sheet :=
  parse_print_of_reads (fun node hnode => (h node hnode).reads) fun node hnode => (h node hnode).arises

/-- A comment, and a rule in a block with hacks, an importance, separators and words of several kinds. -/
def Sheet.plainSample : Sheet :=
  [.comment ("/*!" ++ "a*" ++ "*/"),
    .block ("@media " ++ "print") [.rule
      { selectors := ["a>.b:c", "#d"],
        declarations :=
          [{ name := "color", value := ["red"], important := true, hack := .underscore },
            { name := "margin", value := ["-1.5e3px", "/", "50%", "#fff"], hack := .suffix "9" }] }]]

theorem Sheet.parse_print_plainSample :
    (∀ node ∈ plainSample, node.IsPlain) ∧ Sheet.parse plainSample.print = plainSample := by
  have hname : ∀ {c : Char} {cs : List Char}, startsName c = true → (cs.all continuesName) = true → IsName (c :: cs) :=
    fun hc hcs => ⟨hc, List.all_eq_true.mp hcs⟩
  have hlower : ∀ {c : Char} {cs : List Char}, c.isLower = true → cs.all Char.isLower = true →
      Declaration.IsPlainName (c :: cs) :=
    fun hc hcs => .intro hc fun d hd => .inl (List.all_eq_true.mp hcs d hd)
  have hcompound : Selector.IsCompound ['.', 'b', ':', 'c'] :=
    .bare (s := ['.', 'b']) (.dot (hname rfl rfl)) (.cons (s := [':', 'c']) (.colon (hname rfl rfl)) .nil)
  have hchain : Selector.IsChain "a>.b:c".toList :=
    .join (s := ['a']) (c := '>') (.type (n := ['a']) (s := []) (hname rfl rfl) .nil) (by decide) (.compound hcompound)
  have hhash : Selector.IsChain "#d".toList :=
    .compound (.bare (s := ['#', 'd']) (t := []) (.hash (hname rfl rfl)) .nil)
  have hcolor : Declaration.IsPlain { name := "color", value := ["red"], important := true, hack := .underscore } := by
    refine ⟨?_, by simp, ?_, by simp⟩
    · exact hlower (c := 'c') rfl rfl
    · intro w hw
      obtain rfl : w = "red" := by simpa using hw
      exact .inr (.name (hname (c := 'r') rfl rfl))
  have hdigits : ∀ {ds : List Char}, ds.all Char.isDigit = true → AreDigits ds := fun h => List.all_eq_true.mp h
  have hdecimal : IsDecimal (['-'] ++ (['1'] ++ '.' :: ['5'])) :=
    .fraction (.inr (.inr rfl)) (hdigits rfl) (by simp) (hdigits rfl)
  have hexponent : IsExponent ('e' :: ([] ++ ['3'])) := .intro (.inl rfl) (.inl rfl) (by simp) (hdigits rfl)
  have hpixels : IsUnit ['p', 'x'] := .intro rfl (List.all_eq_true.mp rfl)
  have hnumber : IsWord "-1.5e3px".toList := .number hdecimal (.inr hexponent) (.inr hpixels)
  have hfifty : IsDecimal ([] ++ ['5', '0']) := .whole (.inl rfl) (by simp) (hdigits rfl)
  have hwhite : ∀ d ∈ ['f', 'f', 'f'], Text.isHexDigit d = true := List.all_eq_true.mp rfl
  have hmargin : Declaration.IsPlain
      { name := "margin", value := ["-1.5e3px", "/", "50%", "#fff"], hack := .suffix "9" } := by
    refine ⟨hlower (c := 'm') rfl rfl, by simp, ?_, ?_⟩
    · intro w hw
      simp only [List.mem_cons, List.not_mem_nil, or_false] at hw
      rcases hw with rfl | rfl | rfl | rfl
      · exact .inr hnumber
      · exact .inl rfl
      · exact .inr (.percentage hfifty (.inl rfl))
      · exact .inr (.hash (by simp) hwhite)
    · rintro digits hsuffix
      obtain rfl : "9" = digits := by simpa using hsuffix
      exact .intro (by simp) (by decide) (hdigits rfl)
  have hplain : ∀ node ∈ plainSample, node.IsPlain := by
    intro node hnode
    simp only [plainSample, List.mem_cons, List.not_mem_nil, or_false] at hnode
    rcases hnode with rfl | rfl
    · exact .comment (by decide)
    · refine .media (hname (c := 'p') rfl rfl) fun child hchild => ?_
      obtain rfl := List.mem_singleton.mp hchild
      exact .rule (by simpa using ⟨hchain, hhash⟩) (by simpa using ⟨hcolor, hmargin⟩) rfl
  exact ⟨hplain, parse_print hplain⟩

end CssMinify
