import CssMinify.Sheet.DeclarationParser
import CssMinify.Token.Lexer

/-!
Reading a style sheet. Nothing is rejected: a declaration that makes no sense is skipped up to its
semicolon, a rule up to its brace, and an unknown at-rule is kept as written.

The sheet is read in steps. `Step.read` looks at one node's beginning and says what it found and which
tokens are left; `length_rest_read_le` says that every step makes progress.
-/

namespace CssMinify

namespace Parser

/-- At-rules around nodes. -/
def takesNodes (name : String) : Bool :=
  ["media", "supports", "document", "-moz-document", "layer", "container"].contains name
    || Text.endsWith name "keyframes"

/-- At-rules around declarations. -/
def takesFields (name : String) : Bool :=
  ["font-face", "page", "viewport", "-ms-viewport", "counter-style"].contains name

/-- How deep in groups the tokens after this one are. A group that was never opened cannot be closed. -/
def depthAfter (depth : Nat) (kind : TokenKind) : Nat :=
  if kind.opensGroup then depth + 1 else if kind.closesGroup then depth - 1 else depth

def endsHead : TokenKind → Bool
  | .openBrace | .semicolon | .closeBrace => true
  | _ => false

/-- The tokens before the brace or semicolon that ends a head, and those from it on. Inside a group
neither counts. -/
def spanHead : Nat → List Token → List Token × List Token
  | _, [] => ([], [])
  | depth, t :: rest =>
    if depth == 0 && endsHead t.kind then ([], t :: rest)
    else
      let (head, after) := spanHead (depthAfter depth t.kind) rest
      (t :: head, after)

theorem length_spanHead_le (depth : Nat) (tokens : List Token) :
    (spanHead depth tokens).2.length ≤ tokens.length := by
  fun_induction spanHead depth tokens with
  | case1 => simp
  | case2 => simp
  | case3 _ _ _ _ _ _ _ ih => simp_all; omega

/-- The tokens up to the brace that closes a block `depth` levels deep, and those after it. -/
def spanBlock : Nat → List Token → List Token × List Token
  | _, [] => ([], [])
  | depth, t :: rest =>
    let depth :=
      if t.kind == .openBrace then depth + 1 else if t.kind == .closeBrace then depth - 1 else depth
    if depth == 0 then ([t], rest)
    else
      let (block, after) := spanBlock depth rest
      (t :: block, after)

theorem length_spanBlock_le (depth : Nat) (tokens : List Token) :
    (spanBlock depth tokens).2.length ≤ tokens.length := by
  fun_induction spanBlock depth tokens with
  | case1 => simp
  | case2 => simp
  | case3 _ _ _ _ _ _ _ _ ih => simp_all; omega

/-- One item of a body and what follows it. -/
structure Item where
  tokens : List Token
  /-- The item has a block of its own and so is no declaration. -/
  nested : Bool
  rest : List Token

/-- The rest of an item, `depth` groups and braces deep. `nested` says that a block has been opened, and
in a `custom` property braces open none. A semicolon or brace at the top level ends the item and is not
part of it, while the brace that closes a nested block is. -/
def spanItem (custom : Bool) : Nat → Bool → List Token → Item
  | _, nested, [] => ⟨[], nested, []⟩
  | depth, nested, t :: rest =>
    if depth == 0 && (t.kind == .semicolon || t.kind == .closeBrace) then ⟨[], false, t :: rest⟩
    else if t.kind == .closeBrace && nested && depth == 1 then ⟨[t], true, rest⟩
    else
      let opensNested := depth == 0 && t.kind == .openBrace && !custom
      let depth :=
        if t.kind == .openBrace then depth + 1
        else if t.kind == .closeBrace then depth - 1
        else depthAfter depth t.kind
      let item := spanItem custom depth (nested || opensNested) rest
      { item with tokens := t :: item.tokens }

theorem length_rest_spanItem_le (custom : Bool) (depth : Nat) (nested : Bool) (tokens : List Token) :
    (spanItem custom depth nested tokens).rest.length ≤ tokens.length := by
  fun_induction spanItem custom depth nested tokens with
  | case1 => simp
  | case2 => simp
  | case3 => simp
  | case4 _ _ _ _ _ _ _ _ item ih => exact Nat.le_succ_of_le ih

/-- An item that does not start with the end of one takes at least a token. -/
theorem length_rest_spanItem_cons_le (custom : Bool) {t : Token} (rest : List Token)
    (h : t.kind ≠ .semicolon) (h' : t.kind ≠ .closeBrace) :
    (spanItem custom 0 false (t :: rest)).rest.length ≤ rest.length := by
  rw [spanItem]
  simp [h, h', length_rest_spanItem_le]

/-- What stands between the braces of a rule. -/
structure Body where
  declarations : List Declaration
  nested : List NestedText

/-- Reads a body up to its closing brace, with `count` declarations before this point. Answers the body
and the tokens after it. -/
def bodyFrom (count : Nat) : List Token → Body × List Token
  | [] => (⟨[], []⟩, [])
  | t :: rest =>
    if _h : t.kind = .closeBrace then (⟨[], []⟩, rest)
    else if _h' : t.kind = .semicolon then bodyFrom count rest
    else if t.isTrivia then bodyFrom count rest
    else
      let item := spanItem (isCustomName t.text) 0 false (t :: rest)
      if item.nested then
        let (body, after) := bodyFrom count item.rest
        ({ body with nested := ⟨count, Token.source item.tokens⟩ :: body.nested }, after)
      else
        match Declaration.ofTokens? item.tokens with
        | some d =>
          let (body, after) := bodyFrom (count + 1) item.rest
          ({ body with declarations := d :: body.declarations }, after)
        | none => bodyFrom count item.rest
termination_by tokens => tokens.length
decreasing_by
  all_goals first
    | exact Nat.lt_succ_self _
    | exact Nat.lt_succ_of_le (length_rest_spanItem_cons_le _ rest _h' _h)

theorem length_bodyFrom_le (count : Nat) (tokens : List Token) :
    (bodyFrom count tokens).2.length ≤ tokens.length := by
  fun_induction bodyFrom count tokens with
  | case1 => simp
  | case2 => simp
  | case3 count t rest _ _ ih => exact Nat.le_succ_of_le ih
  | case4 count t rest _ _ _ ih => exact Nat.le_succ_of_le ih
  | case5 count t rest h h' _ item _ body after hb ih =>
    have hitem : item.rest.length ≤ rest.length := length_rest_spanItem_cons_le _ rest h' h
    rw [hb] at ih
    exact Nat.le_succ_of_le (Nat.le_trans ih hitem)
  | case6 count t rest h h' _ item _ d _ body after hb ih =>
    have hitem : item.rest.length ≤ rest.length := length_rest_spanItem_cons_le _ rest h' h
    rw [hb] at ih
    exact Nat.le_succ_of_le (Nat.le_trans ih hitem)
  | case7 count t rest h h' _ item _ _ ih =>
    have hitem : item.rest.length ≤ rest.length := length_rest_spanItem_cons_le _ rest h' h
    exact Nat.le_succ_of_le (Nat.le_trans ih hitem)

/-- Cuts the head of a rule at its top-level commas. -/
def splitSelectors : Nat → List Token → List (List Token)
  | _, [] => [[]]
  | depth, t :: rest =>
    if depth == 0 && t.kind == .comma then [] :: splitSelectors depth rest
    else match splitSelectors (depthAfter depth t.kind) rest with
      | piece :: pieces => (t :: piece) :: pieces
      | [] => [[t]]

/-- The selectors in the head of a rule; empty ones are dropped. -/
def selectors (head : List Token) : List String :=
  ((splitSelectors 0 head).map Spacing.selector.compact).filter (!·.isEmpty)

/-- What one step of reading a sheet finds. -/
inductive Step where
  /-- Nothing worth keeping. -/
  | skip (rest : List Token)
  | node (node : Node) (rest : List Token)
  /-- A block of nodes opens here. -/
  | enter (head : String) (rest : List Token)
  /-- A closing brace. -/
  | leave (rest : List Token)

namespace Step

/-- The tokens that are left after a step. -/
def rest : Step → List Token
  | skip rest | node _ rest | enter _ rest | leave rest => rest

/-- The text of the tokens that come before `after`. -/
def textBefore (tokens after : List Token) : String :=
  Token.source (tokens.take (tokens.length - after.length))

/-- Reads an at-rule from its keyword on. -/
def readAtRule (keyword : Token) (tokens : List Token) : Step :=
  let name := Text.lower (String.ofList (keyword.text.toList.drop 1))
  let (headTokens, after) := spanHead 0 tokens
  let details := Spacing.head.compact headTokens
  let head := "@" ++ name ++ (if details.isEmpty then "" else " " ++ details)
  match after with
  | t :: inner =>
    if t.kind == .openBrace then
      if takesNodes name then enter head inner
      else if takesFields name then
        let (body, after) := bodyFrom 0 inner
        if body.nested.isEmpty then node (.fields head body.declarations) after
        else node (.statement (keyword.text ++ textBefore tokens after)) after
      else
        let (_, after) := spanBlock 1 inner
        node (.statement (keyword.text ++ textBefore tokens after)) after
    else if t.kind == .semicolon then node (.statement head) inner
    else node (.statement head) after
  | [] => node (.statement head) []

/-- Reads a rule. A head without a block is dropped. -/
def readRule (tokens : List Token) : Step :=
  let (head, after) := spanHead 0 tokens
  match after with
  | t :: inner =>
    if t.kind == .openBrace then
      let (body, after) := bodyFrom 0 inner
      node (.rule ⟨selectors head, body.declarations, body.nested⟩) after
    else if t.kind == .semicolon then skip inner
    else skip after
  | [] => skip []

/-- Reads what starts with the token `t`. -/
def read (t : Token) (tokens : List Token) : Step :=
  match t.kind with
  | .whitespace | .markupOpen | .markupClose | .semicolon => skip tokens
  | .comment => if Text.startsWith t.text "/*!" then node (.comment t.text) tokens else skip tokens
  | .closeBrace => leave tokens
  | .atKeyword => readAtRule t tokens
  | _ => readRule (t :: tokens)

theorem length_rest_readAtRule_le (keyword : Token) (tokens : List Token) :
    (readAtRule keyword tokens).rest.length ≤ tokens.length := by
  have hle := length_spanHead_le 0 tokens
  rw [readAtRule]
  generalize spanHead 0 tokens = split at hle
  obtain ⟨head, after⟩ := split
  cases after with
  | nil => simp [rest]
  | cons t inner =>
    have hbody := length_bodyFrom_le 0 inner
    have hblock := length_spanBlock_le 1 inner
    simp only [List.length_cons] at hle ⊢
    repeat' split
    all_goals simp only [rest, List.length_cons]
    all_goals omega

/-- Reading a rule makes progress unless the tokens start with a closing brace. -/
theorem length_rest_readRule_lt (t : Token) (tokens : List Token) (h : t.kind ≠ .closeBrace) :
    (readRule (t :: tokens)).rest.length < (t :: tokens).length := by
  have hle : t.kind = .openBrace ∨ t.kind = .semicolon ∨
      (spanHead 0 (t :: tokens)).2.length ≤ tokens.length := by
    rw [spanHead]
    have := length_spanHead_le (depthAfter 0 t.kind) tokens
    by_cases hend : endsHead t.kind
    · cases hk : t.kind <;> simp_all [endsHead]
    · simp [hend, this]
  have hle' := length_spanHead_le 0 (t :: tokens)
  have hhead : endsHead t.kind → spanHead 0 (t :: tokens) = ([], t :: tokens) := by
    intro hend; simp [spanHead, hend]
  rw [readRule]
  rcases hle with hk | hk | hle
  · rw [hhead (by simp [hk, endsHead])]
    have := length_bodyFrom_le 0 tokens
    simp [hk, rest]; omega
  · rw [hhead (by simp [hk, endsHead])]
    simp [hk, rest]
  · generalize spanHead 0 (t :: tokens) = split at hle
    obtain ⟨head, after⟩ := split
    cases after with
    | nil => simp [rest]
    | cons u inner =>
      have hbody := length_bodyFrom_le 0 inner
      simp only [List.length_cons] at hle ⊢
      repeat' split
      all_goals simp only [rest, List.length_cons]
      all_goals omega

/-- Every step makes progress. -/
theorem length_rest_read_le (t : Token) (tokens : List Token) :
    (read t tokens).rest.length ≤ tokens.length := by
  rw [read]
  split
  all_goals try exact Nat.le_refl _
  · split <;> exact Nat.le_refl _
  · exact length_rest_readAtRule_le t tokens
  · exact Nat.le_of_lt_succ (length_rest_readRule_lt t tokens (by assumption))

end Step

/-- Reads nodes up to the end of the tokens, or up to the brace that closes the block they are in.
Answers the nodes and the tokens after them. -/
def nodesFrom (inBlock : Bool) (tokens : List Token) :
    { r : List Node × List Token // r.2.length ≤ tokens.length } :=
  match tokens with
  | [] => ⟨([], []), Nat.le_refl _⟩
  | t :: tokens =>
    have hstep := Step.length_rest_read_le t tokens
    match h : Step.read t tokens with
    | .skip rest =>
      have hrest : rest.length ≤ tokens.length := by rw [h] at hstep; exact hstep
      let ⟨result, hresult⟩ := nodesFrom inBlock rest
      ⟨result, Nat.le_succ_of_le (Nat.le_trans hresult hrest)⟩
    | .node node rest =>
      have hrest : rest.length ≤ tokens.length := by rw [h] at hstep; exact hstep
      let ⟨(nodes, after), hresult⟩ := nodesFrom inBlock rest
      ⟨(node :: nodes, after), Nat.le_succ_of_le (Nat.le_trans hresult hrest)⟩
    | .leave rest =>
      have hrest : rest.length ≤ tokens.length := by rw [h] at hstep; exact hstep
      if inBlock then ⟨([], rest), Nat.le_succ_of_le hrest⟩
      else
        let ⟨result, hresult⟩ := nodesFrom inBlock rest
        ⟨result, Nat.le_succ_of_le (Nat.le_trans hresult hrest)⟩
    | .enter head inner =>
      have hinner : inner.length ≤ tokens.length := by rw [h] at hstep; exact hstep
      let ⟨(children, rest), hchildren⟩ := nodesFrom true inner
      have hrest : rest.length ≤ tokens.length := Nat.le_trans hchildren hinner
      let ⟨(nodes, after), hresult⟩ := nodesFrom inBlock rest
      ⟨(.block head children :: nodes, after), Nat.le_succ_of_le (Nat.le_trans hresult hrest)⟩
termination_by tokens.length
decreasing_by all_goals exact Nat.lt_succ_of_le (by assumption)

end Parser

/-- Reads a style sheet. -/
def Sheet.parse (text : String) : Sheet := (Parser.nodesFrom false (tokenize text)).val.1

/-- Reads the declarations of a body, such as `color:red;margin:0`. -/
def Declaration.parseAll (text : String) : List Declaration :=
  (Parser.bodyFrom 0 (tokenize text)).1.declarations

end CssMinify
