import CssMinify.Proofs.Printing.Plain

/-!
Reading, printing and reading again. What the parser makes of a text has its nested texts in order and no comments
but those that are kept, so the sheet is the same when it is read again, provided that its pieces read back. There
are texts whose pieces do not: between a slash and an asterisk that stand apart in the text, printing leaves no
space, and they open a comment.
-/

namespace CssMinify

open Lexer

theorem Rule.Ordered.nested {count : Nat} {declarations : List Declaration} {nested : List NestedText}
    (h : Ordered count declarations nested) (text : String) :
    Ordered count declarations (⟨count, text⟩ :: nested) := by
  refine ⟨List.pairwise_cons.mpr ⟨h.lower, h.pairwise⟩, ?_, ?_⟩
  · exact List.forall_mem_cons.mpr ⟨le_refl count, h.lower⟩
  · exact List.forall_mem_cons.mpr ⟨Nat.le_add_right count _, h.upper⟩

theorem Rule.Ordered.declaration {count : Nat} {declarations : List Declaration} {nested : List NestedText}
    (h : Ordered (count + 1) declarations nested) (d : Declaration) : Ordered count (d :: declarations) nested := by
  refine ⟨h.pairwise, fun n hn => (Nat.le_succ count).trans (h.lower n hn), fun n hn => ?_⟩
  have hupper := h.upper n hn
  rw [List.length_cons]
  omega

namespace Parser

/-- A body is read with its nested texts in order. -/
theorem ordered_bodyFrom (count : Nat) (ts : List Token) :
    Rule.Ordered count (bodyFrom count ts).1.declarations (bodyFrom count ts).1.nested := by
  fun_induction bodyFrom count ts with
  | case1 | case2 => exact ⟨List.Pairwise.nil, by simp, by simp⟩
  | case3 _ _ _ _ _ ih => exact ih
  | case4 _ _ _ _ _ _ ih => exact ih
  | case5 count t rest _ _ _ item _ body after hbody ih =>
      rw [hbody] at ih
      exact ih.nested _
  | case6 count t rest _ _ _ item _ d _ body after hbody ih =>
      rw [hbody] at ih
      exact ih.declaration d
  | case7 _ _ _ _ _ _ _ _ _ ih => exact ih

theorem arises_readAtRule {keyword : Token} {ts rest : List Token} {node : Node}
    (h : Step.readAtRule keyword ts = .node node rest) : node.Arises := by
  simp only [Step.readAtRule] at h
  repeat' split at h
  all_goals cases h
  all_goals first | exact .statement _ | exact .fields _ _

theorem arises_readRule {ts rest : List Token} {node : Node} (h : Step.readRule ts = .node node rest) :
    node.Arises := by
  simp only [Step.readRule] at h
  split at h
  · split at h
    · cases h
      exact .rule (ordered_bodyFrom 0 _)
    · split at h <;> cases h
  · cases h

theorem arises_read {t : Token} {ts rest : List Token} {node : Node} (h : Step.read t ts = .node node rest) :
    node.Arises := by
  rw [Step.read] at h
  split at h
  · cases h
  · cases h
  · cases h
  · cases h
  · split at h
    · next hkept =>
        cases h
        exact .comment hkept
    · cases h
  · cases h
  · exact arises_readAtRule h
  · exact arises_readRule h

/-- Whatever is read arises. -/
theorem arises_nodesFrom (inBlock : Bool) (ts : List Token) : ∀ node ∈ (nodesFrom inBlock ts).val.1, node.Arises := by
  fun_induction nodesFrom inBlock ts with
  | case1 => simp
  | case2 _ _ _ _ _ _ _ _ _ hfrom ih =>
      rw [hfrom] at ih
      exact ih
  | case3 _ _ _ _ _ _ hread _ _ _ _ hfrom ih =>
      rw [hfrom] at ih
      exact List.forall_mem_cons.mpr ⟨arises_read hread, ih⟩
  | case4 => simp
  | case5 _ _ _ _ _ _ _ _ _ _ hfrom ih =>
      rw [hfrom] at ih
      exact ih
  | case6 _ _ _ _ _ _ _ _ _ _ _ hchildren _ _ _ _ hfrom ihchildren ih =>
      rw [hchildren] at ihchildren
      rw [hfrom] at ih
      exact List.forall_mem_cons.mpr ⟨.block ihchildren, ih⟩

end Parser

/-- A text whose pieces read back is read as the same sheet after it is printed. -/
theorem Sheet.parse_print_parse (text : String) (h : ∀ node ∈ Sheet.parse text, node.Reads) :
    Sheet.parse (Sheet.parse text).print = Sheet.parse text :=
  parse_print_of_reads h (Parser.arises_nodesFrom false (tokenize text))

/-- A text with spaces, a comment that is dropped and a declaration that makes no sense. -/
theorem Sheet.parse_print_parse_spaced :
    (∀ node ∈ Sheet.parse " a > b \x7b /* c */ d ; e : f , g ; \x7d", node.Reads)
      ∧ Sheet.parse (Sheet.parse " a > b \x7b /* c */ d ; e : f , g ; \x7d").print
        = Sheet.parse " a > b \x7b /* c */ d ; e : f , g ; \x7d" := by
  have hparse : Sheet.parse " a > b \x7b /* c */ d ; e : f , g ; \x7d"
      = [.rule { selectors := ["a>b"], declarations := [{ name := "e", value := ["f", ",", "g"] }] }] := by
    decide +kernel
  have hname : ∀ c : Char, startsName c = true → IsName [c] := fun c hc => .intro hc (by simp)
  have hchain : Selector.IsChain "a>b".toList :=
    .join (.type (hname 'a' rfl) .nil) (by decide) (.compound (.type (hname 'b' rfl) .nil))
  have hdeclaration : Declaration.IsPlain { name := "e", value := ["f", ",", "g"] } := by
    refine ⟨.intro (c := 'e') rfl (by simp), by simp, fun w hw => ?_, by simp⟩
    simp only [List.mem_cons, List.not_mem_nil, or_false] at hw
    rcases hw with rfl | rfl | rfl
    · exact .inr (.name (hname 'f' rfl))
    · exact .inl rfl
    · exact .inr (.name (hname 'g' rfl))
  have hreads : ∀ node ∈ Sheet.parse " a > b \x7b /* c */ d ; e : f , g ; \x7d", node.Reads := by
    rw [hparse]
    intro node hnode
    obtain rfl := List.mem_singleton.mp hnode
    exact (Node.IsPlain.rule (by simpa using hchain) (by simpa using hdeclaration) rfl).reads
  exact ⟨hreads, parse_print_parse _ hreads⟩

/-- A slash and an asterisk after it open a comment, up to the end of the sheet. -/
theorem Sheet.parse_print_parse_slash :
    Sheet.parse (Sheet.parse "a\x7bb:c/ *d\x7de\x7bf:g\x7d").print ≠ Sheet.parse "a\x7bb:c/ *d\x7de\x7bf:g\x7d" := by
  decide +kernel

end CssMinify
