import CssMinify.Proofs.Runs.SelectorLists
import CssMinify.Proofs.Selector.Agreeing
import CssMinify.Sheet.Parser

/-!
Where the selectors of a sheet come from. Whatever a step of the parser leaves is a suffix of its tokens, so the head
of each rule is a stretch of the sheet up to a brace, and each selector one of the head up to a comma or its end.
-/

namespace CssMinify

namespace Parser

section Suffixes

theorem append_spanHead (depth : Nat) (ts : List Token) : (spanHead depth ts).1 ++ (spanHead depth ts).2 = ts := by
  fun_induction spanHead depth ts with
  | case1 => rfl
  | case2 => rfl
  | case3 depth t rest _ head after hspan ih =>
      rw [hspan] at ih
      exact congrArg (t :: ·) ih

theorem suffix_spanBlock (depth : Nat) (ts : List Token) : (spanBlock depth ts).2 <:+ ts := by
  fun_induction spanBlock depth ts with
  | case1 => exact List.suffix_refl _
  | case2 _ t rest => exact List.suffix_cons t rest
  | case3 _ t rest _ _ block after hspan ih =>
      rw [hspan] at ih
      exact ih.trans (List.suffix_cons t rest)

theorem suffix_spanItem (custom : Bool) (depth : Nat) (nested : Bool) (ts : List Token) :
    (spanItem custom depth nested ts).rest <:+ ts := by
  fun_induction spanItem custom depth nested ts with
  | case1 => exact List.suffix_refl _
  | case2 => exact List.suffix_refl _
  | case3 _ _ t rest => exact List.suffix_cons t rest
  | case4 _ _ t rest _ _ _ _ item ih => exact ih.trans (List.suffix_cons t rest)

theorem suffix_bodyFrom (count : Nat) (ts : List Token) : (bodyFrom count ts).2 <:+ ts := by
  fun_induction bodyFrom count ts with
  | case1 => exact List.suffix_refl _
  | case2 _ t rest => exact List.suffix_cons t rest
  | case3 _ t rest _ _ ih => exact ih.trans (List.suffix_cons t rest)
  | case4 _ t rest _ _ _ ih => exact ih.trans (List.suffix_cons t rest)
  | case5 _ t rest _ _ _ item _ body after hbody ih =>
      rw [hbody] at ih
      exact ih.trans (suffix_spanItem _ _ _ _)
  | case6 _ t rest _ _ _ item _ d _ body after hbody ih =>
      rw [hbody] at ih
      exact ih.trans (suffix_spanItem _ _ _ _)
  | case7 _ t rest _ _ _ item _ _ ih => exact ih.trans (suffix_spanItem _ _ _ _)

theorem suffix_readAtRule (keyword : Token) (ts : List Token) : (Step.readAtRule keyword ts).rest <:+ ts := by
  have hhead : (spanHead 0 ts).2 <:+ ts := ⟨_, append_spanHead 0 ts⟩
  rw [Step.readAtRule]
  generalize spanHead 0 ts = split at hhead
  obtain ⟨head, after⟩ := split
  cases after with
  | nil => exact List.nil_suffix
  | cons t inner =>
      have hinner : inner <:+ ts := (List.suffix_cons t inner).trans hhead
      have hbody : (bodyFrom 0 inner).2 <:+ ts := (suffix_bodyFrom 0 inner).trans hinner
      have hblock : (spanBlock 1 inner).2 <:+ ts := (suffix_spanBlock 1 inner).trans hinner
      dsimp only
      repeat' split
      all_goals first | exact hinner | exact hbody | exact hblock | exact hhead

theorem suffix_readRule (ts : List Token) : (Step.readRule ts).rest <:+ ts := by
  have hhead : (spanHead 0 ts).2 <:+ ts := ⟨_, append_spanHead 0 ts⟩
  rw [Step.readRule]
  generalize spanHead 0 ts = split at hhead
  obtain ⟨head, after⟩ := split
  cases after with
  | nil => exact List.nil_suffix
  | cons t inner =>
      have hinner : inner <:+ ts := (List.suffix_cons t inner).trans hhead
      have hbody : (bodyFrom 0 inner).2 <:+ ts := (suffix_bodyFrom 0 inner).trans hinner
      dsimp only
      repeat' split
      all_goals first | exact hinner | exact hbody | exact hhead

/-- A step leaves a suffix. -/
theorem suffix_read (t : Token) (ts : List Token) : (Step.read t ts).rest <:+ t :: ts := by
  have hrest : ts <:+ t :: ts := List.suffix_cons t ts
  rw [Step.read]
  split
  all_goals first
    | exact hrest
    | exact (suffix_readAtRule t ts).trans hrest
    | exact suffix_readRule (t :: ts)
    | skip
  split <;> exact hrest

end Suffixes

/-- The head of the rule that a step finds, if it finds one. -/
def headAt (t : Token) (ts : List Token) : List (List Token) :=
  match Step.read t ts with
  | .node (.rule _) _ => [(spanHead 0 (t :: ts)).1]
  | _ => []

/-- The heads of the rules of a sheet, in the order in which they stand. -/
def heads : List Token → List (List Token)
  | [] => []
  | t :: ts => headAt t ts ++ heads (Step.read t ts).rest
termination_by ts => ts.length
decreasing_by exact Nat.lt_succ_of_le (Step.length_rest_read_le t ts)

/-- The selectors of a rule are those of its head. -/
def Stems (rule : Rule) (head : List Token) : Prop := rule.selectors = selectors head

theorem readRule_rule {ts rest : List Token} {rule : Rule} (h : Step.readRule ts = .node (.rule rule) rest) :
    Stems rule (spanHead 0 ts).1 ∧ ∃ brace inner, (spanHead 0 ts).2 = brace :: inner ∧ brace.kind = .openBrace := by
  rw [Step.readRule] at h
  generalize spanHead 0 ts = split at h ⊢
  obtain ⟨head, after⟩ := split
  cases after with
  | nil => cases h
  | cons t inner =>
      dsimp only at h
      split at h
      · next hbrace =>
          cases h
          exact ⟨rfl, t, inner, rfl, by simpa using hbrace⟩
      · split at h <;> cases h

theorem readRule_node {ts rest : List Token} {node : Node} (h : Step.readRule ts = .node node rest) :
    ∃ rule, node = .rule rule := by
  rw [Step.readRule] at h
  split at h
  dsimp only at h
  repeat' split at h
  all_goals first | cases h; done | skip
  cases h
  exact ⟨_, rfl⟩

theorem readAtRule_node {keyword : Token} {ts rest : List Token} {node : Node}
    (h : Step.readAtRule keyword ts = .node node rest) : node.rules = [] ∧ ∀ rule, node ≠ .rule rule := by
  rw [Step.readAtRule] at h
  split at h
  dsimp only at h
  repeat' split at h
  all_goals first | cases h; done | skip
  all_goals
    cases h
    exact ⟨by rw [Node.rules], by simp⟩

/-- Either a step reads a rule, or it finds none. -/
theorem read_node {t : Token} {ts rest : List Token} {node : Node} (h : Step.read t ts = .node node rest) :
    (∃ rule, node = .rule rule ∧ Step.readRule (t :: ts) = .node (.rule rule) rest)
      ∨ node.rules = [] ∧ ∀ rule, node ≠ .rule rule := by
  have hread := h
  rw [Step.read] at hread
  split at hread
  · cases hread
  · cases hread
  · cases hread
  · cases hread
  · split at hread
    · cases hread
      exact .inr ⟨by rw [Node.rules], by simp⟩
    · cases hread
  · cases hread
  · exact .inr (readAtRule_node hread)
  · obtain ⟨rule, rfl⟩ := readRule_node hread
    exact .inl ⟨rule, rfl, hread⟩

theorem forall₂_headAt {t : Token} {ts rest : List Token} {node : Node} (h : Step.read t ts = .node node rest) :
    List.Forall₂ Stems node.rules (headAt t ts) := by
  rw [headAt, h]
  rcases read_node h with ⟨rule, rfl, hread⟩ | ⟨hrules, hnot⟩
  · rw [Node.rules]
    exact .cons (readRule_rule hread).1 .nil
  · rw [hrules]
    split
    · next heq =>
        cases heq
        exact absurd rfl (hnot _)
    · exact .nil

theorem headAt_eq_nil {t : Token} {ts : List Token} (h : ∀ node rest, Step.read t ts ≠ .node node rest) :
    headAt t ts = [] := by
  rw [headAt]
  split
  · next heq => exact absurd heq (h _ _)
  · rfl

theorem heads_cons {t : Token} {ts : List Token} {step : Step} (h : Step.read t ts = step) :
    heads (t :: ts) = headAt t ts ++ heads step.rest := by
  rw [heads, h]

/-- The rules that are read and their heads, in the same order. -/
theorem forall₂_nodesFrom (inBlock : Bool) (ts : List Token) :
    ∃ hs, heads ts = hs ++ heads (nodesFrom inBlock ts).val.2
      ∧ List.Forall₂ Stems (Node.rulesOfAll (nodesFrom inBlock ts).val.1) hs := by
  fun_induction nodesFrom inBlock ts with
  | case1 => exact ⟨[], rfl, by rw [Node.rulesOfAll]; exact .nil⟩
  | case2 inBlock t ts _ rest hread _ result _ hfrom ih =>
      rw [hfrom] at ih
      obtain ⟨hs, hsplit, hrules⟩ := ih
      refine ⟨hs, ?_, hrules⟩
      rw [heads_cons hread, headAt_eq_nil (by simp [hread])]
      exact hsplit
  | case3 inBlock t ts _ node rest hread _ nodes after _ hfrom ih =>
      rw [hfrom] at ih
      obtain ⟨hs, hsplit, hrules⟩ := ih
      refine ⟨headAt t ts ++ hs, ?_, ?_⟩
      · rw [heads_cons hread, List.append_assoc]
        exact congrArg (headAt t ts ++ ·) hsplit
      · rw [Node.rulesOfAll]
        exact List.rel_append (forall₂_headAt hread) hrules
  | case4 t ts _ rest hread =>
      refine ⟨[], ?_, by rw [Node.rulesOfAll]; exact .nil⟩
      rw [heads_cons hread, headAt_eq_nil (by simp [hread])]
      rfl
  | case5 inBlock t ts _ rest hread _ _ result _ hfrom ih =>
      rw [hfrom] at ih
      obtain ⟨hs, hsplit, hrules⟩ := ih
      refine ⟨hs, ?_, hrules⟩
      rw [heads_cons hread, headAt_eq_nil (by simp [hread])]
      exact hsplit
  | case6 inBlock t ts _ head inner hread _ children rest _ hchildren _ nodes after _ hfrom ihchildren ih =>
      rw [hchildren] at ihchildren
      rw [hfrom] at ih
      obtain ⟨hs, hsplit, hrules⟩ := ihchildren
      obtain ⟨hs', hsplit', hrules'⟩ := ih
      refine ⟨hs ++ hs', ?_, ?_⟩
      · rw [heads_cons hread, headAt_eq_nil (by simp [hread]), List.append_assoc]
        exact hsplit.trans (congrArg (hs ++ ·) hsplit')
      · rw [Node.rulesOfAll, Node.rules]
        exact List.rel_append hrules hrules'

/-- Outside of blocks reading goes on to the end. -/
theorem nodesFrom_false (ts : List Token) : (nodesFrom false ts).val.2 = [] := by
  generalize hblock : false = inBlock
  fun_induction nodesFrom inBlock ts with
  | case1 => rfl
  | case2 _ _ _ _ _ _ _ _ _ hfrom ih =>
      rw [hfrom] at ih
      exact ih hblock
  | case3 _ _ _ _ _ _ _ _ _ _ _ hfrom ih =>
      rw [hfrom] at ih
      exact ih hblock
  | case4 => cases hblock
  | case5 _ _ _ _ _ _ _ _ _ _ hfrom ih =>
      rw [hfrom] at ih
      exact ih hblock
  | case6 _ _ _ _ _ _ _ _ _ _ _ hchildren _ _ _ _ hfrom ihchildren ih =>
      rw [hfrom] at ih
      exact ih hblock

/-- A head is a stretch of the tokens up to a brace. -/
theorem exists_of_mem_heads {ts head : List Token} (h : head ∈ heads ts) :
    ∃ front brace back, ts = front ++ (head ++ brace :: back) ∧ brace.kind = .openBrace := by
  fun_induction heads ts with
  | case1 => cases h
  | case2 t ts ih =>
      rcases List.mem_append.mp h with hat | hrest
      · rw [headAt] at hat
        split at hat
        · next rule rest hread =>
            obtain rfl := List.mem_singleton.mp hat
            have hrule : Step.readRule (t :: ts) = .node (.rule rule) rest := by
              rcases read_node hread with ⟨rule', heq, hrule⟩ | ⟨-, hnot⟩
              · cases heq
                exact hrule
              · exact absurd rfl (hnot rule)
            obtain ⟨-, brace, inner, hafter, hbrace⟩ := readRule_rule hrule
            refine ⟨[], brace, inner, ?_, hbrace⟩
            rw [List.nil_append, ← hafter, append_spanHead]
        · cases hat
      · obtain ⟨front, brace, back, hsplit, hbrace⟩ := ih hrest
        obtain ⟨start, hstart⟩ := suffix_read t ts
        refine ⟨start ++ front, brace, back, ?_, hbrace⟩
        rw [← hstart, List.append_assoc]
        exact congrArg (start ++ ·) hsplit

/-- Between the selectors of a head stand commas, and a brace behind the last. -/
def isStop (kind : TokenKind) : Bool := kind == .comma || kind == .openBrace

theorem splitSelectors_spec (depth : Nat) (head : List Token) {brace : Token} (hbrace : brace.kind = .openBrace) :
    ∃ first others, splitSelectors depth head = first :: others
      ∧ (∃ stop back, head ++ [brace] = first ++ stop :: back ∧ isStop stop.kind = true)
      ∧ ∀ piece ∈ others, ∃ front stop back, head ++ [brace] = front ++ (piece ++ stop :: back)
        ∧ isStop stop.kind = true := by
  induction head generalizing depth with
  | nil => exact ⟨[], [], rfl, ⟨brace, [], rfl, by rw [hbrace]; rfl⟩, by simp⟩
  | cons t rest ih =>
      rw [splitSelectors]
      split
      · next hcomma =>
          rw [Bool.and_eq_true, beq_iff_eq, beq_iff_eq] at hcomma
          obtain ⟨first, others, hsplit, ⟨stop, back, hfirst, hstop⟩, hothers⟩ := ih depth
          refine ⟨[], splitSelectors depth rest, rfl, ⟨t, rest ++ [brace], rfl, by rw [hcomma.2]; rfl⟩, ?_⟩
          rw [hsplit]
          intro piece hpiece
          rcases List.mem_cons.mp hpiece with rfl | hpiece
          · exact ⟨[t], stop, back, by rw [List.cons_append, hfirst]; rfl, hstop⟩
          · obtain ⟨front, stop, back, hpiece, hstop⟩ := hothers piece hpiece
            exact ⟨t :: front, stop, back, by rw [List.cons_append, hpiece]; rfl, hstop⟩
      · obtain ⟨first, others, hsplit, ⟨stop, back, hfirst, hstop⟩, hothers⟩ := ih (depthAfter depth t.kind)
        rw [hsplit]
        refine ⟨t :: first, others, rfl, ⟨stop, back, by rw [List.cons_append, hfirst]; rfl, hstop⟩, ?_⟩
        intro piece hpiece
        obtain ⟨front, stop, back, hpiece, hstop⟩ := hothers piece hpiece
        exact ⟨t :: front, stop, back, by rw [List.cons_append, hpiece]; rfl, hstop⟩

/-- The stretches of a head that its selectors are the compact forms of. -/
def sources (head : List Token) : List (List Token) :=
  (splitSelectors 0 head).filter fun piece => !(Spacing.selector.compact piece).isEmpty

theorem selectors_eq_map_sources (head : List Token) :
    selectors head = (sources head).map Spacing.selector.compact := by
  rw [selectors, sources, List.filter_map]
  rfl

end Parser

/-- The tokens that stand in a text up to a comma or a brace. -/
def IsStretch (text : String) (piece : List Token) : Prop :=
  ∃ front stop back, tokenize text = front ++ (piece ++ stop :: back) ∧ Parser.isStop stop.kind = true

theorem Parser.isStretch_of_mem {text : String} {head piece : List Token} (hhead : head ∈ heads (tokenize text))
    (hpiece : piece ∈ sources head) : IsStretch text piece := by
  obtain ⟨front, brace, back, htext, hbrace⟩ := exists_of_mem_heads hhead
  obtain ⟨first, others, hsplit, ⟨stop, back', hfirst, hstop⟩, hothers⟩ := splitSelectors_spec 0 head hbrace
  have hbefore : tokenize text = front ++ ((head ++ [brace]) ++ back) := by simp [htext]
  have hmem : piece ∈ first :: others := hsplit ▸ (List.mem_filter.mp hpiece).1
  rcases List.mem_cons.mp hmem with rfl | hmem
  · exact ⟨front, stop, back' ++ back, by rw [hbefore, hfirst]; simp, hstop⟩
  · obtain ⟨front', stop, back', hmiddle, hstop⟩ := hothers piece hmem
    exact ⟨front ++ front', stop, back' ++ back, by rw [hbefore, hmiddle]; simp, hstop⟩

/-- A stretch is read as the same tokens before the sign that ends it. -/
theorem IsStretch.stands {text : String} {piece : List Token} (h : IsStretch text piece) :
    ∃ c after, Lexer.Stands piece (c :: after) ∧ Lexer.isSpace c = false ∧ Lexer.isQuote c = false := by
  obtain ⟨front, stop, back, htext, hstop⟩ := h
  have hpiece := (Lexer.tokens_of_append (s := text.toList) htext).2
  have hback := (Lexer.tokens_of_append hpiece).2
  obtain ⟨rest, hrest, -, hreads⟩ := Lexer.reads_of_tokens hback
  have hkind : stop.kind = .comma ∨ stop.kind = .openBrace := by simpa [Parser.isStop] using hstop
  have hlone : Lexer.isLoneKind stop.kind = true := by rcases hkind with hkind | hkind <;> rw [hkind] <;> rfl
  obtain ⟨c, hc, hsingle⟩ := hreads.exists_single hlone
  have hstands : Lexer.Stands piece (c :: rest) := by
    have hchars : Lexer.chars (stop :: back) = c :: rest := by rw [hrest, hc]; rfl
    rw [Lexer.Stands, ← hchars, ← Lexer.chars_append, hpiece, hback]
  have hcases : c = ',' ∨ c = '\x7b' := by
    rw [← hsingle] at hkind
    unfold Lexer.single at hkind
    split at hkind <;> simp at hkind
    · exact .inl rfl
    · exact .inr rfl
  rcases hcases with rfl | rfl <;> exact ⟨_, rest, hstands, rfl, rfl⟩

/-- Compacting does not change what a selector says. Each rule of a sheet stores the compact forms of the stretches of
its head, and wherever the gaps of a stretch are plain and its arguments closed, reading the stored text and reading the
stretch as it stands, with its comments and all of its white space, give the same selectors. -/
theorem Sheet.forall₂_readingsAgree (text : String) :
    List.Forall₂ (fun rule head => List.Forall₂ (fun selector piece =>
        selector = Spacing.selector.compact piece ∧ IsStretch text piece
          ∧ (Selector.IsCompactable piece → Selector.ReadingsAgree (Selector.Piece.ofTokens piece)
            (Selector.parseList (Token.source piece)) (Selector.parseList selector)))
        rule.selectors (Parser.sources head))
      (Node.rulesOfAll (Sheet.parse text)) (Parser.heads (tokenize text)) := by
  obtain ⟨hs, hsplit, hstems⟩ := Parser.forall₂_nodesFrom false (tokenize text)
  rw [Parser.nodesFrom_false, Parser.heads, List.append_nil] at hsplit
  rw [Sheet.parse, hsplit]
  have hmem : ∀ head ∈ hs, head ∈ Parser.heads (tokenize text) := fun head hhead => hsplit ▸ hhead
  refine (((List.forall₂_and_left hs _).mpr ⟨hmem, hstems.flip⟩).imp ?_).flip
  rintro head rule ⟨hhead, hstem⟩
  rw [flip, hstem, Parser.selectors_eq_map_sources, List.forall₂_map_left_iff, List.forall₂_same]
  intro piece hpiece
  have hstretch := Parser.isStretch_of_mem hhead hpiece
  obtain ⟨c, after, hstands, hspace, hquote⟩ := hstretch.stands
  exact ⟨rfl, hstretch, fun h => h.readingsAgree hstands hspace hquote⟩

/-- Comments, white space around a combinator and inside of an argument. -/
theorem Sheet.forall₂_readingsAgree_commented :
    (Node.rulesOfAll (Sheet.parse "a /* b */ > c:not( .d,\n .e )\x7btop:0\x7d")).map Rule.selectors
        = [["a>c:not(.d,.e)"]]
      ∧ ∃ piece, Token.source piece = "a /* b */ > c:not( .d,\n .e )" ∧ Selector.IsCompactable piece
        ∧ Selector.ReadingsAgree (Selector.Piece.ofTokens piece)
          (Selector.parseList "a /* b */ > c:not( .d,\n .e )") (Selector.parseList "a>c:not(.d,.e)") := by
  have hrules : (Node.rulesOfAll (Sheet.parse "a /* b */ > c:not( .d,\n .e )\x7btop:0\x7d")).map Rule.selectors
      = [["a>c:not(.d,.e)"]] := by
    decide +kernel
  have hsources : ((Parser.heads (tokenize "a /* b */ > c:not( .d,\n .e )\x7btop:0\x7d")).map fun head =>
      (Parser.sources head).map Token.source) = [["a /* b */ > c:not( .d,\n .e )"]] := by
    decide +kernel
  have hcompactable : ∀ head ∈ Parser.heads (tokenize "a /* b */ > c:not( .d,\n .e )\x7btop:0\x7d"),
      ∀ piece ∈ Parser.sources head, Selector.IsCompactable piece := by
    decide +kernel
  refine ⟨hrules, ?_⟩
  have hagree := Sheet.forall₂_readingsAgree "a /* b */ > c:not( .d,\n .e )\x7btop:0\x7d"
  generalize Node.rulesOfAll (Sheet.parse "a /* b */ > c:not( .d,\n .e )\x7btop:0\x7d") = rules at hrules hagree
  generalize Parser.heads (tokenize "a /* b */ > c:not( .d,\n .e )\x7btop:0\x7d") = hs at hsources hcompactable hagree
  cases hagree with
  | nil => cases hrules
  | @cons rule head _ _ hfirst =>
      rw [List.map_cons, List.cons.injEq] at hrules hsources
      rw [hrules.1] at hfirst
      cases hpieces : Parser.sources head with
      | nil => simp [hpieces] at hsources
      | cons piece pieces =>
          have hsource : Token.source piece = "a /* b */ > c:not( .d,\n .e )" := by
            have heq := hsources.1
            rw [hpieces, List.map_cons, List.cons.injEq] at heq
            exact heq.1
          have hpiece := hcompactable head List.mem_cons_self piece (by simp [hpieces])
          rw [hpieces] at hfirst
          cases hfirst with
          | cons hstored _ => exact ⟨piece, hsource, hpiece, hsource ▸ hstored.2.2 hpiece⟩

/-- An argument is kept as it stands, so the white space in it shows. -/
theorem Sheet.parseList_argument_ne :
    (Node.rulesOfAll (Sheet.parse "a:not(.b  c)\x7btop:0\x7d")).map Rule.selectors = [["a:not(.b c)"]]
      ∧ ((Parser.heads (tokenize "a:not(.b  c)\x7btop:0\x7d")).map fun head =>
          (Parser.sources head).map Token.source) = [["a:not(.b  c)"]]
      ∧ Selector.parseList "a:not(.b c)" ≠ Selector.parseList "a:not(.b  c)" := by
  decide +kernel

end CssMinify
