import CssMinify.Proofs.Printing.Lexing
import CssMinify.Sheet.Parser
import CssMinify.Sheet.Printer

/-!
Reading back what is printed, piece by piece. A sheet is printed as heads, declarations and nested texts with
braces and semicolons around them. Where every piece reads back by itself, stands apart from what follows it, and
is closed, so that the end of the piece is found where it is, the sheet reads back, however long it is and however
deep its blocks nest.
-/

namespace CssMinify

open Lexer

namespace Token

def openBrace : Token := ⟨.openBrace, "\x7b"⟩

def closeBrace : Token := ⟨.closeBrace, "\x7d"⟩

def semicolon : Token := ⟨.semicolon, ";"⟩

end Token

namespace Rule

/-- The tokens of the items of a body, each item by itself. -/
def itemTokens : List Item → List Token
  | [] => []
  | [.declaration d] => tokenize d.print
  | .declaration d :: rest => tokenize d.print ++ Token.semicolon :: itemTokens rest
  | .nested text :: rest => tokenize text ++ itemTokens rest

end Rule

namespace Node

mutual

/-- The tokens of a node, each of its pieces by itself. -/
def tokens : Node → List Token
  | rule r => tokenize (Text.joined "," r.selectors) ++ Token.openBrace :: (Rule.itemTokens r.items ++ [Token.closeBrace])
  | block head children => tokenize head ++ Token.openBrace :: (tokensOfAll children ++ [Token.closeBrace])
  | fields head declarations =>
    tokenize head ++ Token.openBrace :: (Rule.itemTokens (declarations.map .declaration) ++ [Token.closeBrace])
  | statement text => tokenize (printStatement text)
  | comment text => tokenize text

def tokensOfAll : List Node → List Token
  | [] => []
  | node :: rest => node.tokens ++ tokensOfAll rest

end

end Node

namespace Parser

section Closed

variable {ts rest : List Token}

/-- A head is closed if the brace after it is the one that ends it. -/
def IsClosedHead (ts : List Token) : Prop := spanHead 0 (ts ++ [Token.openBrace]) = (ts, [Token.openBrace])

theorem spanHead_append {depth : Nat} (h : spanHead depth (ts ++ [Token.openBrace]) = (ts, [Token.openBrace])) :
    spanHead depth (ts ++ Token.openBrace :: rest) = (ts, Token.openBrace :: rest) := by
  induction ts generalizing depth with
  | nil =>
      rw [List.nil_append, spanHead] at h ⊢
      split
      · rfl
      · next hdepth =>
          rw [if_neg hdepth] at h
          simp at h
  | cons t ts ih =>
      rw [List.cons_append, spanHead] at h ⊢
      split
      · next hend =>
          rw [if_pos hend] at h
          simp at h
      · next hend =>
          rw [if_neg hend] at h
          have hinner : spanHead (depthAfter depth t.kind) (ts ++ [Token.openBrace]) = (ts, [Token.openBrace]) := by
            simpa [Prod.ext_iff] using h
          simp [ih hinner]

/-- Does an item start here? -/
def startsItem : List Token → Bool
  | t :: _ => t.kind != .closeBrace && t.kind != .semicolon && !t.isTrivia
  | [] => false

/-- All the tokens are one item of a body, with a nested block if `nested` says so. -/
structure IsItem (nested : Bool) (ts : List Token) : Prop where
  starts : startsItem ts = true
  spans : spanItem (ts.head?.any (isCustomName ·.text)) 0 false (ts ++ [Token.semicolon])
    = ⟨ts, nested, [Token.semicolon]⟩

theorem Item.eq_of {item : Item} {tokens : List Token} {nested : Bool} {rest : List Token}
    (h : item.tokens = tokens ∧ item.nested = nested ∧ item.rest = rest) : item = ⟨tokens, nested, rest⟩ := by
  obtain ⟨rfl, rfl, rfl⟩ := h
  rfl

/-- A declaration ends before the semicolon or the brace after it. -/
theorem spanItem_declaration {custom : Bool} {depth : Nat} {nested : Bool} {stop : Token}
    (hstop : stop.kind = .semicolon ∨ stop.kind = .closeBrace)
    (h : spanItem custom depth nested (ts ++ [Token.semicolon]) = ⟨ts, false, [Token.semicolon]⟩) :
    spanItem custom depth nested (ts ++ stop :: rest) = ⟨ts, false, stop :: rest⟩ := by
  induction ts generalizing depth nested with
  | nil =>
      rw [List.nil_append, spanItem] at h ⊢
      split
      · rfl
      · next hdepth =>
          rw [if_neg (by simpa [Token.semicolon, hstop] using hdepth)] at h
          simp [Token.semicolon] at h
  | cons t ts ih =>
      rw [List.cons_append, spanItem] at h ⊢
      split
      · next hend =>
          rw [if_pos hend] at h
          simp at h
      next hend =>
      rw [if_neg hend] at h
      split
      · next hclose =>
          rw [if_pos hclose] at h
          simp at h
      next hclose =>
      rw [if_neg hclose] at h
      simp only [Item.mk.injEq, List.cons.injEq, true_and] at h
      simp only [ih (Item.eq_of h)]

/-- An item with a nested block ends with the brace that closes the block, whatever follows. -/
theorem spanItem_nested {custom : Bool} {depth : Nat} {nested : Bool}
    (h : spanItem custom depth nested (ts ++ [Token.semicolon]) = ⟨ts, true, [Token.semicolon]⟩) :
    spanItem custom depth nested (ts ++ rest) = ⟨ts, true, rest⟩ := by
  induction ts generalizing depth nested with
  | nil =>
      rw [List.nil_append, spanItem] at h
      split at h <;> simp [Token.semicolon] at h
  | cons t ts ih =>
      rw [List.cons_append, spanItem] at h ⊢
      split
      · next hend =>
          rw [if_pos hend] at h
          simp at h
      next hend =>
      rw [if_neg hend] at h
      split
      · next hclose =>
          rw [if_pos hclose] at h
          simp only [Item.mk.injEq, List.cons.injEq, true_and] at h
          rw [← h.1, List.nil_append]
      next hclose =>
      rw [if_neg hclose] at h
      simp only [Item.mk.injEq, List.cons.injEq, true_and] at h
      simp only [ih (Item.eq_of h)]

end Closed

section Bodies

variable {ts rest : List Token}

theorem bodyFrom_closeBrace (count : Nat) : bodyFrom count (Token.closeBrace :: rest) = (⟨[], []⟩, rest) := by
  rw [bodyFrom]
  rfl

theorem bodyFrom_semicolon (count : Nat) : bodyFrom count (Token.semicolon :: rest) = bodyFrom count rest := by
  rw [bodyFrom]
  simp [Token.semicolon]

/-- Reading the body from an item on. -/
theorem bodyFrom_item {nested : Bool} {after : List Token} (hitem : startsItem ts = true)
    (hspan : spanItem (ts.head?.any (isCustomName ·.text)) 0 false (ts ++ rest) = ⟨ts, nested, after⟩)
    (count : Nat) :
    bodyFrom count (ts ++ rest)
      = if nested then
          let (body, after) := bodyFrom count after
          ({ body with nested := ⟨count, Token.source ts⟩ :: body.nested }, after)
        else
          match Declaration.ofTokens? ts with
          | some d =>
            let (body, after) := bodyFrom (count + 1) after
            ({ body with declarations := d :: body.declarations }, after)
          | none => bodyFrom count after := by
  cases ts with
  | nil => cases hitem
  | cons t ts =>
      simp only [startsItem, Bool.and_eq_true, bne_iff_ne, ne_eq, Bool.not_eq_true'] at hitem
      simp only [List.head?_cons, Option.any_some, List.cons_append] at hspan
      rewrite [List.cons_append, bodyFrom, dif_neg hitem.1.1, dif_neg hitem.1.2, if_neg (by simp [hitem.2]), hspan]
      rfl

/-- The body that has these items, with `count` declarations before them. -/
def Body.ofItems (count : Nat) : List Rule.Item → Body
  | [] => ⟨[], []⟩
  | .declaration d :: rest =>
    let body := ofItems (count + 1) rest
    { body with declarations := d :: body.declarations }
  | .nested text :: rest =>
    let body := ofItems count rest
    { body with nested := ⟨count, text⟩ :: body.nested }

end Bodies

end Parser

namespace Rule

/-- An item that reads back by itself. A declaration stands apart from a semicolon or a brace after it, and a
nested text from whatever follows. -/
def Item.Reads : Item → Prop
  | .declaration d =>
    Apart [';', '\x7d'] (tokenize d.print) ∧ Parser.IsItem false (tokenize d.print)
      ∧ Declaration.ofTokens? (tokenize d.print) = some d
  | .nested text => (∀ rest, Stands (tokenize text) rest) ∧ Parser.IsItem true (tokenize text)

theorem bodyFrom_itemTokens {items : List Item} (h : ∀ item ∈ items, item.Reads) (count : Nat)
    (rest : List Token) :
    Parser.bodyFrom count (itemTokens items ++ Token.closeBrace :: rest) = (Parser.Body.ofItems count items, rest) := by
  fun_induction itemTokens items generalizing count with
  | case1 => exact Parser.bodyFrom_closeBrace count
  | case2 d =>
      obtain ⟨-, hitem, hread⟩ := h _ List.mem_cons_self
      rw [Parser.bodyFrom_item hitem.starts (Parser.spanItem_declaration (.inr rfl) hitem.spans), hread]
      simp [Parser.bodyFrom_closeBrace, Parser.Body.ofItems]
  | case3 d more hne ih =>
      obtain ⟨-, hitem, hread⟩ := h _ List.mem_cons_self
      rw [List.append_assoc, List.cons_append,
        Parser.bodyFrom_item hitem.starts (Parser.spanItem_declaration (.inl rfl) hitem.spans), hread]
      simp [Parser.bodyFrom_semicolon, ih (fun item hitem => h item (List.mem_cons_of_mem _ hitem)),
        Parser.Body.ofItems]
  | case4 text more ih =>
      obtain ⟨-, hitem⟩ := h _ List.mem_cons_self
      rw [List.append_assoc, Parser.bodyFrom_item hitem.starts (Parser.spanItem_nested hitem.spans)]
      simp [ih (fun item hitem => h item (List.mem_cons_of_mem _ hitem)), Parser.Body.ofItems, source_tokenize]

/-- Nested texts in the order of their positions, none of which is beyond the last declaration. -/
structure Ordered (count : Nat) (declarations : List Declaration) (nested : List NestedText) : Prop where
  pairwise : nested.Pairwise (·.position ≤ ·.position)
  lower : ∀ n ∈ nested, count ≤ n.position
  upper : ∀ n ∈ nested, n.position ≤ count + declarations.length

theorem ofItems_append_nested (count : Nat) (nested : List NestedText) (items : List Item)
    (h : ∀ n ∈ nested, n.position = count) :
    Parser.Body.ofItems count (nested.map (Item.nested ·.text) ++ items)
      = { Parser.Body.ofItems count items with nested := nested ++ (Parser.Body.ofItems count items).nested } := by
  induction nested with
  | nil => rfl
  | cons n nested ih =>
      rw [List.map_cons, List.cons_append, Parser.Body.ofItems, ih fun m hm => h m (List.mem_cons_of_mem n hm),
        ← h n List.mem_cons_self]
      rfl

/-- The declarations and the nested texts are found again in the items. -/
theorem ofItems_itemsFrom {count : Nat} {declarations : List Declaration} {nested : List NestedText}
    (h : Ordered count declarations nested) :
    Parser.Body.ofItems count (itemsFrom count declarations nested) = ⟨declarations, nested⟩ := by
  induction declarations generalizing count nested with
  | nil =>
      have hall : ∀ n ∈ nested, n.position = count := fun n hn => by
        have hlower := h.lower n hn
        have hupper := h.upper n hn
        rw [List.length_nil] at hupper
        omega
      have hitems := ofItems_append_nested count nested [] hall
      rw [List.append_nil] at hitems
      rw [itemsFrom, hitems]
      simp [Parser.Body.ofItems]
  | cons d declarations ih =>
      rw [itemsFrom, List.span_eq_takeWhile_dropWhile]
      have hbefore : ∀ n ∈ nested.takeWhile (·.position ≤ count), n.position = count := by
        intro n hn
        have hle : n.position ≤ count := by simpa using List.mem_takeWhile_imp hn
        have hlower := h.lower n ((List.takeWhile_sublist _).subset hn)
        omega
      have hafter : Ordered (count + 1) declarations (nested.dropWhile (·.position ≤ count)) := by
        have hsub : (nested.dropWhile (·.position ≤ count)).Sublist nested := List.dropWhile_sublist _
        have hpairwise := h.pairwise.sublist hsub
        refine ⟨hpairwise, ?_, fun n hn => ?_⟩
        · have hhead := List.head?_dropWhile_not (·.position ≤ count) nested
          cases hdrop : nested.dropWhile (·.position ≤ count) with
          | nil => simp
          | cons m more =>
              rw [hdrop] at hhead hpairwise
              have hm : count < m.position := by simpa using hhead
              rw [List.forall_mem_cons]
              exact ⟨hm, fun n hn => hm.trans_le ((List.pairwise_cons.mp hpairwise).1 n hn)⟩
        · have hupper := h.upper n (hsub.subset hn)
          rw [List.length_cons] at hupper
          omega
      rw [ofItems_append_nested count _ _ hbefore, Parser.Body.ofItems, ih hafter]
      simp

end Rule

namespace Parser

/-- Does a rule start here? What is left out in a sheet, what closes a block and what starts an at-rule do not
start one. -/
def startsRule : List Token → Bool
  | t :: _ => match t.kind with
    | .whitespace | .markupOpen | .markupClose | .semicolon | .comment | .closeBrace | .atKeyword => false
    | _ => true
  | [] => true

theorem read_rule {t : Token} (rest : List Token) (h : startsRule (t :: rest) = true) :
    Step.read t rest = Step.readRule (t :: rest) := by
  rw [startsRule] at h
  rw [Step.read]
  split at h <;> simp_all

/-- The name of an at-rule. -/
def atName (keyword : Token) : String := Text.lower (String.ofList (keyword.text.toList.drop 1))

/-- The text of the head of an at-rule. -/
def atHead (keyword : Token) (ts : List Token) : String :=
  let details := Spacing.head.compact ts
  "@" ++ atName keyword ++ (if details.isEmpty then "" else " " ++ details)

/-- The head of an at-rule with a block, which reads back by itself. -/
structure IsHead (head : String) (keyword : Token) (ts : List Token) : Prop where
  tokens : tokenize head = keyword :: ts
  apart : Apart ['\x7b'] (keyword :: ts)
  kind : keyword.kind = .atKeyword
  closed : IsClosedHead ts
  text : atHead keyword ts = head

section Heads

variable {head : String} {keyword : Token} {ts : List Token} (h : IsHead head keyword ts)

include h

theorem read_block (rest : List Token) :
    Step.read keyword (ts ++ Token.openBrace :: rest)
      = if takesNodes (atName keyword) then .enter head rest
        else if takesFields (atName keyword) then
          if (bodyFrom 0 rest).1.nested.isEmpty then
            .node (.fields head (bodyFrom 0 rest).1.declarations) (bodyFrom 0 rest).2
          else
            .node (.statement (keyword.text ++ Step.textBefore (ts ++ Token.openBrace :: rest) (bodyFrom 0 rest).2))
              (bodyFrom 0 rest).2
        else
          .node (.statement (keyword.text ++ Step.textBefore (ts ++ Token.openBrace :: rest) (spanBlock 1 rest).2))
            (spanBlock 1 rest).2 := by
  have hbrace : (Token.openBrace.kind == .openBrace) = true := rfl
  rw [Step.read, h.kind, ← h.text, atHead, atName]
  simp only [Step.readAtRule, spanHead_append h.closed, hbrace, if_true]

theorem read_enter (htakes : takesNodes (atName keyword) = true) (rest : List Token) :
    Step.read keyword (ts ++ Token.openBrace :: rest) = .enter head rest := by
  rw [read_block h, if_pos htakes]

omit h in
theorem ofItems_declarations (count : Nat) (declarations : List Declaration) :
    Body.ofItems count (declarations.map .declaration) = ⟨declarations, []⟩ := by
  induction declarations generalizing count with
  | nil => rfl
  | cons d declarations ih => rw [List.map_cons, Body.ofItems, ih]

theorem read_fields (hnodes : takesNodes (atName keyword) = false) (htakes : takesFields (atName keyword) = true)
    {declarations : List Declaration} (hitems : ∀ d ∈ declarations, (Rule.Item.declaration d).Reads)
    (rest : List Token) :
    Step.read keyword (ts ++ Token.openBrace
        :: (Rule.itemTokens (declarations.map .declaration) ++ Token.closeBrace :: rest))
      = .node (.fields head declarations) rest := by
  have hall : ∀ item ∈ declarations.map Rule.Item.declaration, item.Reads := by simpa using hitems
  have hbody := Rule.bodyFrom_itemTokens hall 0 rest
  rw [ofItems_declarations] at hbody
  rw [read_block h, if_neg (by simp [hnodes]), if_pos htakes, hbody]
  rfl

end Heads

end Parser

/-- A rule whose head and whose items read back by themselves. -/
structure Rule.Reads (r : Rule) : Prop where
  apart : Apart ['\x7b'] (tokenize (Text.joined "," r.selectors))
  starts : Parser.startsRule (tokenize (Text.joined "," r.selectors)) = true
  closed : Parser.IsClosedHead (tokenize (Text.joined "," r.selectors))
  selectors : Parser.selectors (tokenize (Text.joined "," r.selectors)) = r.selectors
  items : ∀ item ∈ r.items, item.Reads

theorem Rule.Reads.readRule {r : Rule} (h : r.Reads) (hordered : Ordered 0 r.declarations r.nested)
    (rest : List Token) : Parser.Step.readRule ((Node.rule r).tokens ++ rest) = .node (.rule r) rest := by
  have hbody := bodyFrom_itemTokens h.items 0 rest
  rw [Rule.items, ofItems_itemsFrom hordered] at hbody
  have happend : (Node.rule r).tokens ++ rest = tokenize (Text.joined "," r.selectors)
      ++ Token.openBrace :: (itemTokens r.items ++ Token.closeBrace :: rest) := by
    simp [Node.tokens]
  have hbrace : (Token.openBrace.kind == .openBrace) = true := rfl
  rw [happend, Parser.Step.readRule, Parser.spanHead_append h.closed]
  simp only [hbrace, if_true, Rule.items, hbody, h.selectors]

/-- A node as the parser makes it: the nested texts of a rule are in order, and a comment is one that is kept. -/
inductive Node.Arises : Node → Prop
  | rule {r : Rule} (h : Rule.Ordered 0 r.declarations r.nested) : Arises (.rule r)
  | block {head : String} {children : List Node} (h : ∀ child ∈ children, Arises child) : Arises (.block head children)
  | fields (head : String) (declarations : List Declaration) : Arises (.fields head declarations)
  | statement (text : String) : Arises (.statement text)
  | comment {text : String} (h : Text.startsWith text "/*!" = true) : Arises (.comment text)

/-- A node all of whose pieces read back by themselves. -/
inductive Node.Reads : Node → Prop
  | rule {r : Rule} (h : r.Reads) : Reads (.rule r)
  | block {head : String} {children : List Node} {keyword : Token} {ts : List Token}
      (hhead : Parser.IsHead head keyword ts) (htakes : Parser.takesNodes (Parser.atName keyword) = true)
      (h : ∀ child ∈ children, Reads child) : Reads (.block head children)
  | fields {head : String} {declarations : List Declaration} {keyword : Token} {ts : List Token}
      (hhead : Parser.IsHead head keyword ts) (hnodes : Parser.takesNodes (Parser.atName keyword) = false)
      (htakes : Parser.takesFields (Parser.atName keyword) = true)
      (h : ∀ d ∈ declarations, (Rule.Item.declaration d).Reads) : Reads (.fields head declarations)
  | statement {text : String} {keyword : Token} {ts : List Token}
      (htokens : tokenize (printStatement text) = keyword :: ts) (hapart : ∀ rest, Stands (keyword :: ts) rest)
      (hkind : keyword.kind = .atKeyword)
      (h : ∀ rest, Parser.Step.readAtRule keyword (ts ++ rest) = .node (.statement text) rest) :
      Reads (.statement text)
  | comment {text : String} (h : ∀ rest, Stands [⟨.comment, text⟩] rest) : Reads (.comment text)

namespace Parser

section Nodes

variable {inBlock : Bool} {t : Token} {ts rest : List Token}

theorem nodesFrom_node {node : Node} (h : Step.read t ts = .node node rest) :
    (nodesFrom inBlock (t :: ts)).val = (node :: (nodesFrom inBlock rest).val.1, (nodesFrom inBlock rest).val.2) := by
  rw [nodesFrom]
  split <;> rename_i heq <;> rw [h] at heq <;> cases heq
  rfl

theorem nodesFrom_enter {head : String} (h : Step.read t ts = .enter head rest) :
    (nodesFrom inBlock (t :: ts)).val
      = (.block head (nodesFrom true rest).val.1 :: (nodesFrom inBlock (nodesFrom true rest).val.2).val.1,
          (nodesFrom inBlock (nodesFrom true rest).val.2).val.2) := by
  rw [nodesFrom]
  split <;> rename_i heq <;> rw [h] at heq <;> cases heq
  rfl

theorem nodesFrom_skip (h : Step.read t ts = .skip rest) :
    (nodesFrom inBlock (t :: ts)).val = (nodesFrom inBlock rest).val := by
  rw [nodesFrom]
  split <;> rename_i heq <;> rw [h] at heq <;> cases heq
  rfl

theorem nodesFrom_leave (h : Step.read t ts = .leave rest) :
    (nodesFrom inBlock (t :: ts)).val = if inBlock then ([], rest) else (nodesFrom inBlock rest).val := by
  rw [nodesFrom]
  split <;> rename_i heq <;> rw [h] at heq <;> cases heq
  split <;> rfl

theorem nodesFrom_closeBrace : (nodesFrom true (Token.closeBrace :: rest)).val = ([], rest) :=
  nodesFrom_leave rfl

/-- What is read from the tokens of nodes, given what is read from those of each node. -/
theorem nodesFrom_tokensOfAll (inBlock : Bool) {nodes : List Node} (rest : List Token)
    (h : ∀ node ∈ nodes, ∀ inBlock rest, (nodesFrom inBlock (node.tokens ++ rest)).val
      = (node :: (nodesFrom inBlock rest).val.1, (nodesFrom inBlock rest).val.2)) :
    (nodesFrom inBlock (Node.tokensOfAll nodes ++ rest)).val
      = (nodes ++ (nodesFrom inBlock rest).val.1, (nodesFrom inBlock rest).val.2) := by
  induction nodes with
  | nil => simp [Node.tokensOfAll]
  | cons node nodes ih =>
      rw [Node.tokensOfAll, List.append_assoc, h node List.mem_cons_self,
        ih fun n hn => h n (List.mem_cons_of_mem node hn)]
      rfl

end Nodes

end Parser

theorem tokenize_of_stands {text : String} (h : Stands [⟨.comment, text⟩] []) :
    tokenize text = [⟨.comment, text⟩] :=
  h.tokenize_eq (by simp [chars])

/-- A node that reads back by itself is read wherever its tokens stand. -/
theorem Node.Reads.nodesFrom {node : Node} (h : node.Reads) (harises : node.Arises) (inBlock : Bool)
    (rest : List Token) :
    (Parser.nodesFrom inBlock (node.tokens ++ rest)).val
      = (node :: (Parser.nodesFrom inBlock rest).val.1, (Parser.nodesFrom inBlock rest).val.2) := by
  induction h generalizing inBlock rest with
  | @rule r h =>
      cases harises with
      | rule hordered =>
      have hread := h.readRule hordered rest
      have hstarts : Parser.startsRule ((Node.rule r).tokens ++ rest) = true := by
        have hstarts := h.starts
        rw [Node.tokens]
        cases htokens : tokenize (Text.joined "," r.selectors) with
        | nil => rfl
        | cons t ts =>
            rw [htokens] at hstarts
            exact hstarts
      cases htokens : (Node.rule r).tokens ++ rest with
      | nil => simp [Node.tokens] at htokens
      | cons t ts =>
          rw [htokens] at hread hstarts
          exact Parser.nodesFrom_node ((Parser.read_rule ts hstarts).trans hread)
  | @block head children keyword ts hhead htakes _ ih =>
      cases harises with
      | block harises =>
      have hread := Parser.read_enter hhead htakes (Node.tokensOfAll children ++ Token.closeBrace :: rest)
      have hchildren := Parser.nodesFrom_tokensOfAll true (Token.closeBrace :: rest) fun child hchild =>
        ih child hchild (harises child hchild)
      rw [Parser.nodesFrom_closeBrace, List.append_nil] at hchildren
      have happend : (Node.block head children).tokens ++ rest
          = keyword :: (ts ++ Token.openBrace :: (Node.tokensOfAll children ++ Token.closeBrace :: rest)) := by
        simp [Node.tokens, hhead.tokens]
      rw [happend, Parser.nodesFrom_enter hread, hchildren]
  | @fields head declarations keyword ts hhead hnodes htakes h =>
      have hread := Parser.read_fields hhead hnodes htakes h rest
      have happend : (Node.fields head declarations).tokens ++ rest
          = keyword :: (ts ++ Token.openBrace
            :: (Rule.itemTokens (declarations.map .declaration) ++ Token.closeBrace :: rest)) := by
        simp [Node.tokens, hhead.tokens]
      rw [happend, Parser.nodesFrom_node hread]
  | @statement text keyword ts htokens hapart hkind h =>
      have hread : Parser.Step.read keyword (ts ++ rest) = .node (.statement text) rest := by
        rw [Parser.Step.read, hkind]
        exact h rest
      rw [Node.tokens, htokens]
      exact Parser.nodesFrom_node hread
  | @comment text h =>
      cases harises with
      | comment hkept =>
      have hread : Parser.Step.read ⟨.comment, text⟩ rest = .node (.comment text) rest := if_pos hkept
      rw [Node.tokens, tokenize_of_stands (h [])]
      exact Parser.nodesFrom_node hread

section Falling

theorem chars_itemTokens (items : List Rule.Item) : chars (Rule.itemTokens items) = (Rule.printItems items).toList := by
  fun_induction Rule.itemTokens items with
  | case1 => rfl
  | case2 d => rw [chars_tokenize, Rule.printItems]
  | case3 d rest hne ih =>
      have hsemicolon : chars (Token.semicolon :: Rule.itemTokens rest) = ';' :: chars (Rule.itemTokens rest) := rfl
      rw [chars_append, hsemicolon, chars_tokenize, ih, Rule.printItems]
      · simp
      · exact hne
  | case4 text rest ih => rw [chars_append, chars_tokenize, ih, Rule.printItems, String.toList_append]

theorem stands_itemTokens {items : List Rule.Item} (h : ∀ item ∈ items, item.Reads) (rest : List Char) :
    Stands (Rule.itemTokens items) ('\x7d' :: rest) := by
  fun_induction Rule.itemTokens items with
  | case1 => exact Stands.nil
  | case2 d => exact (h _ List.mem_cons_self).1 _ rfl
  | case3 d more hne ih =>
      have hmore := Stands.cons (stands_single (t := Token.semicolon) (c := ';') rfl rfl)
        (ih fun item hitem => h item (List.mem_cons_of_mem _ hitem))
      exact Stands.append ((h _ List.mem_cons_self).1 _ rfl) hmore
  | case4 text more ih =>
      exact Stands.append ((h _ List.mem_cons_self).1 _) (ih fun item hitem => h item (List.mem_cons_of_mem _ hitem))

theorem printBody_eq_printItems (declarations : List Declaration) :
    Declaration.printBody declarations = Rule.printItems (declarations.map .declaration) := by
  induction declarations with
  | nil => rfl
  | cons d declarations ih =>
      cases declarations with
      | nil => rfl
      | cons e declarations =>
          rw [Declaration.printBody] at ih
          rw [Declaration.printBody, List.map_cons, List.map_cons, Text.joined, List.map_cons, Rule.printItems,
            ← ih, List.map_cons]
          simp

theorem tokens_openBrace (rest : List Char) : tokens ('\x7b' :: rest) = Token.openBrace :: tokens rest :=
  stands_single (t := Token.openBrace) (c := '\x7b') rfl rfl

theorem tokens_closeBrace (rest : List Char) : tokens ('\x7d' :: rest) = Token.closeBrace :: tokens rest :=
  stands_single (t := Token.closeBrace) (c := '\x7d') rfl rfl

/-- A head, and a body between braces. -/
theorem tokens_braces {head : String} (hhead : Apart ['\x7b'] (tokenize head)) {body : List Char} {ts : List Token}
    {rest : List Char} (hbody : tokens (body ++ '\x7d' :: rest) = ts ++ tokens ('\x7d' :: rest)) :
    tokens (head.toList ++ '\x7b' :: (body ++ '\x7d' :: rest))
      = tokenize head ++ Token.openBrace :: (ts ++ Token.closeBrace :: tokens rest) := by
  have hstands := hhead ('\x7b' :: (body ++ '\x7d' :: rest)) rfl
  rw [Stands, chars_tokenize] at hstands
  rw [hstands, tokens_openBrace, hbody, tokens_closeBrace]

theorem tokens_printItems {items : List Rule.Item} (h : ∀ item ∈ items, item.Reads) (rest : List Char) :
    tokens ((Rule.printItems items).toList ++ '\x7d' :: rest) = Rule.itemTokens items ++ tokens ('\x7d' :: rest) := by
  rw [← chars_itemTokens]
  exact stands_itemTokens h rest

/-- A list of nodes falls into their tokens if each of them does. -/
theorem tokens_printAll {nodes : List Node}
    (h : ∀ node ∈ nodes, ∀ rest, tokens (node.print.toList ++ rest) = node.tokens ++ tokens rest) (rest : List Char) :
    tokens ((Node.printAll nodes).toList ++ rest) = Node.tokensOfAll nodes ++ tokens rest := by
  induction nodes with
  | nil => rfl
  | cons node nodes ih =>
      rw [Node.printAll, Node.tokensOfAll, String.toList_append, List.append_assoc, h node List.mem_cons_self,
        ih fun n hn => h n (List.mem_cons_of_mem node hn), List.append_assoc]

/-- A node falls into the tokens of its pieces, whatever follows. -/
theorem Node.Reads.tokens_print {node : Node} (h : node.Reads) (rest : List Char) :
    Lexer.tokens (node.print.toList ++ rest) = node.tokens ++ Lexer.tokens rest := by
  induction h generalizing rest with
  | @rule r h =>
      have hbraces := tokens_braces h.apart (tokens_printItems h.items rest)
      simpa [Node.print, Rule.print, Rule.printBody, Node.tokens] using hbraces
  | @block head children keyword ts hhead _ _ ih =>
      have hbraces := tokens_braces (hhead.tokens ▸ hhead.apart) (tokens_printAll ih ('\x7d' :: rest))
      simpa [Node.print, Node.tokens] using hbraces
  | @fields head declarations keyword ts hhead _ _ h =>
      have hitems : ∀ item ∈ declarations.map Rule.Item.declaration, item.Reads := by simpa using h
      have hbraces := tokens_braces (hhead.tokens ▸ hhead.apart) (tokens_printItems hitems rest)
      simpa [Node.print, Node.tokens, printBody_eq_printItems] using hbraces
  | @statement text keyword ts htokens hapart _ _ =>
      have hstands := hapart rest
      rw [← htokens, Stands, chars_tokenize] at hstands
      exact hstands
  | @comment text h =>
      have hstands := h rest
      rw [← tokenize_of_stands (h []), Stands, chars_tokenize] at hstands
      exact hstands

end Falling

/-- A sheet reads back if every piece of it reads back by itself. -/
theorem Sheet.parse_print_of_reads {sheet : Sheet} (hreads : ∀ node ∈ sheet, node.Reads)
    (harises : ∀ node ∈ sheet, node.Arises) : Sheet.parse sheet.print = sheet := by
  have htokens := tokens_printAll (fun node hnode => (hreads node hnode).tokens_print) []
  have hnodes := Parser.nodesFrom_tokensOfAll false [] fun node hnode =>
    (hreads node hnode).nodesFrom (harises node hnode)
  have htext : tokens [] = [] := by rw [tokens]
  have hnil : (Parser.nodesFrom false []).val = ([], []) := by rw [Parser.nodesFrom]
  rw [List.append_nil, htext, List.append_nil] at htokens
  rw [List.append_nil, hnil, List.append_nil] at hnodes
  rw [Sheet.parse, tokenize, Sheet.print, htokens, hnodes]

end CssMinify
