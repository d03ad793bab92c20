import CssMinify.Proofs.Parsing.Walk

/-!
Every turn of reading moves on. The loops that read a body and that read nodes are walked through turn by turn: a turn
starts at a token and the next one starts behind it, inside of the tokens, so that neither loop takes more turns than
there are tokens, and the walk reads what the parser reads. Outside of blocks it stops at the end of the tokens and
nowhere else.
-/

namespace CssMinify

namespace Parser

namespace Walk

section Values

variable (tokens : List Token)

/-- The components of a value from a position on, the first of which continues `current`. -/
def componentsFrom? : (fuel : Nat) → (current : String) → (pos : Nat) → Option Value
  | 0, _, _ => none
  | fuel + 1, current, pos =>
    match tokens[pos]? with
    | none => some (Value.flush current)
    | some t =>
      if t.isTrivia then do
        let more ← componentsFrom? fuel "" (pos + 1)
        return Value.flush current ++ more
      else if t.kind == .comma then do
        let more ← componentsFrom? fuel "" (pos + 1)
        return Value.flush current ++ "," :: more
      else if t.kind == .delim '/' then do
        let more ← componentsFrom? fuel "" (pos + 1)
        return Value.flush current ++ "/" :: more
      else if t.kind.opensGroup then do
        let stop ← groupEnd? tokens (fuel + 1) 0 pos
        componentsFrom? fuel (current ++ Spacing.value.compact (slice tokens pos stop)) stop
      else componentsFrom? fuel (current ++ t.text) (pos + 1)

variable {tokens} {ts : List Token}

theorem componentsFrom?_place (h : ts <:+ tokens) {fuel : Nat} (hfuel : ts.length < fuel) (current : String) :
    componentsFrom? tokens fuel current (place tokens ts) = some (Value.ofTokensAfter current ts) := by
  fun_induction Value.ofTokensAfter current ts generalizing fuel <;>
    obtain ⟨fuel, rfl⟩ := Nat.exists_eq_succ_of_ne_zero (Nat.ne_zero_of_lt hfuel)
  case case1 current => rw [componentsFrom?, getElem?_place_nil]
  case case2 current t rest htrivia ih =>
    rw [componentsFrom?, getElem?_place h, place_cons h,
      ih ((List.suffix_cons t rest).trans h) (Nat.lt_of_succ_lt_succ hfuel)]
    simp only [htrivia, if_true]
    rfl
  case case3 current t rest htrivia hcomma ih =>
    rw [componentsFrom?, getElem?_place h, place_cons h,
      ih ((List.suffix_cons t rest).trans h) (Nat.lt_of_succ_lt_succ hfuel)]
    simp only [htrivia, hcomma, if_true]
    rfl
  case case4 current t rest htrivia hcomma hslash ih =>
    rw [componentsFrom?, getElem?_place h, place_cons h,
      ih ((List.suffix_cons t rest).trans h) (Nat.lt_of_succ_lt_succ hfuel)]
    simp only [htrivia, hcomma, hslash, if_true]
    rfl
  case case5 current t rest htrivia hcomma hslash hopens group ih =>
    have hsplit : (t :: group.1) ++ group.2 = t :: rest := congrArg (t :: ·) (append_spanGroup 1 rest)
    have hgroup : group.2 <:+ tokens := (List.suffix_append (t :: group.1) group.2).trans (hsplit ▸ h)
    have hless : group.2.length < fuel :=
      (length_spanGroup_le 1 rest).trans_lt (Nat.lt_of_succ_lt_succ hfuel)
    rw [componentsFrom?, getElem?_place h]
    simp only [htrivia, hcomma, hslash, hopens, if_true, groupEnd?_place h hfuel hopens]
    rw [← ih hgroup hless, ← slice_place h hsplit]
    rfl
  case case6 current t rest htrivia hcomma hslash hopens ih =>
    rw [componentsFrom?, getElem?_place h, place_cons h]
    simp only [htrivia, hcomma, hslash, hopens]
    exact ih ((List.suffix_cons t rest).trans h) (Nat.lt_of_succ_lt_succ hfuel)

end Values

/-- What a turn of a loop finds, the position at which the next turn starts, and whether there is none. -/
structure Turn (α : Type) where
  found : α
  next : Nat
  last : Bool

section Turns

variable {α : Type} {tokens : List Token} {t : Token} {rest : List Token}

/-- A turn that is taken, and that ends behind the position it starts at and within the tokens. -/
def MovesOn (tokens : List Token) (pos : Nat) (turn : Option (Turn α)) : Prop :=
  ∃ taken, turn = some taken ∧ pos < taken.next ∧ taken.next ≤ tokens.length

/-- A turn that is taken, and that ends where `after` starts, one of the ends of `rest`. -/
structure EndsAt (tokens rest : List Token) (attempt : Option (Turn α)) (turn : Turn α) (after : List Token) : Prop where
  reads : attempt = some turn
  next : turn.next = place tokens after
  suffix : after <:+ rest

theorem EndsAt.movesOn {attempt : Option (Turn α)} {turn : Turn α} {after : List Token} (h : t :: rest <:+ tokens)
    (hends : EndsAt tokens rest attempt turn after) : MovesOn tokens (place tokens (t :: rest)) attempt := by
  refine ⟨turn, hends.reads, ?_, ?_⟩ <;> rw [hends.next]
  · exact place_lt h hends.suffix
  · exact place_le after

end Turns

section Bodies

/-- A body and what is read behind it. -/
def join (body more : Body) : Body := ⟨body.declarations ++ more.declarations, body.nested ++ more.nested⟩

variable (tokens : List Token)

/-- A turn of reading a body that has `count` declarations before this point. -/
def bodyTurn? (fuel count pos : Nat) : Option (Turn Body) := do
  let t ← tokens[pos]?
  if t.kind == .closeBrace then return ⟨⟨[], []⟩, pos + 1, true⟩
  else if t.kind == .semicolon || t.isTrivia then return ⟨⟨[], []⟩, pos + 1, false⟩
  else
    let (stop, nested) ← itemEnd? tokens (isCustomName t.text) fuel 0 false pos
    if nested then
      let text ← textUpTo? tokens pos stop
      return ⟨⟨[], [⟨count, text⟩]⟩, stop, false⟩
    else
      let ended := (tokens[stop]?).any fun t => t.kind == .semicolon
      let found := (Declaration.ofTokens? (slice tokens pos stop)).toList
      return ⟨⟨found, []⟩, if ended then stop + 1 else stop, false⟩

/-- Reads a body up to its closing brace. -/
def body? : (fuel count pos : Nat) → Option (Body × Nat)
  | 0, _, _ => none
  | fuel + 1, count, pos =>
    if pos < tokens.length then do
      let turn ← bodyTurn? tokens (fuel + 1) count pos
      if turn.last then return (turn.found, turn.next)
      let (more, stop) ← body? fuel (count + turn.found.declarations.length) turn.next
      return (join turn.found more, stop)
    else return (⟨[], []⟩, pos)

variable {tokens} {t : Token} {rest : List Token}

theorem bodyFrom_of_semicolon (h : t.kind = .semicolon) (count : Nat) :
    bodyFrom count (t :: rest) = bodyFrom count rest := by
  rw [bodyFrom]
  simp [h]

/-- An item that does not start with the end of one has a token. -/
theorem exists_spanItem_tokens (custom : Bool) (rest : List Token) (hclose : t.kind ≠ .closeBrace)
    (hsemicolon : t.kind ≠ .semicolon) : ∃ ts, (spanItem custom 0 false (t :: rest)).tokens = t :: ts := by
  by_cases hopen : t.kind = .openBrace
  · rw [spanItem_open hopen]
    exact ⟨_, rfl⟩
  · rw [spanItem_other (by simp [hclose, hsemicolon]) (by simpa using hclose) (by simpa using hopen)]
    exact ⟨_, rfl⟩

/-- A turn of a body ends behind the token it starts at. The body is what the turn finds and what the next turns
find. -/
structure BodyTurn (tokens : List Token) (fuel count : Nat) (t : Token) (rest : List Token) (turn : Turn Body)
    (after : List Token) : Prop
    extends EndsAt tokens rest (bodyTurn? tokens fuel count (place tokens (t :: rest))) turn after where
  body : bodyFrom count (t :: rest) = if turn.last then (turn.found, after) else
    (join turn.found (bodyFrom (count + turn.found.declarations.length) after).1,
      (bodyFrom (count + turn.found.declarations.length) after).2)

section Turns

variable (h : t :: rest <:+ tokens) {fuel : Nat} (hfuel : (t :: rest).length < fuel) (count : Nat)

include h hfuel

theorem exists_bodyTurn_item (hitem : startsItem (t :: rest) = true) :
    ∃ turn after, BodyTurn tokens fuel count t rest turn after := by
  have hkinds := hitem
  simp only [startsItem, Bool.and_eq_true, bne_iff_ne, ne_eq, Bool.not_eq_true'] at hkinds
  obtain ⟨⟨hclose, hsemicolon⟩, htrivia⟩ := hkinds
  obtain ⟨ts, htokens⟩ := exists_spanItem_tokens (isCustomName t.text) rest hclose hsemicolon
  have hsplit := append_spanItem (isCustomName t.text) 0 false (t :: rest)
  have hend := itemEnd?_place h hfuel (isCustomName t.text) 0 false
  obtain ⟨⟨_, nested, after⟩, hspan⟩ : ∃ item, spanItem (isCustomName t.text) 0 false (t :: rest) = item := ⟨_, rfl⟩
  rw [hspan] at htokens hsplit hend
  obtain rfl : _ = t :: ts := htokens
  have hafter : after <:+ rest := ⟨ts, List.cons_injective hsplit⟩
  have hbody := bodyFrom_item (show startsItem (t :: ts) = true from hitem)
    (show spanItem ((t :: ts).head?.any (isCustomName ·.text)) 0 false (t :: ts ++ after) = ⟨t :: ts, nested, after⟩ by
      rw [hsplit]; exact hspan) count
  rw [hsplit] at hbody
  have hturn : bodyTurn? tokens fuel count (place tokens (t :: rest)) = if nested then
      some ⟨⟨[], [⟨count, Token.source (t :: ts)⟩]⟩, place tokens after, false⟩
      else
        some ⟨⟨(Declaration.ofTokens? (t :: ts)).toList, []⟩,
          if (tokens[place tokens after]?).any fun t => t.kind == .semicolon then place tokens after + 1
          else place tokens after, false⟩ := by
    rw [bodyTurn?, getElem?_place h]
    simp only [Option.bind_eq_bind, Option.bind_some, hend, textUpTo?_place h hsplit (List.cons_ne_nil t ts),
      slice_place h hsplit]
    simp [hclose, hsemicolon, htrivia]
  cases nested with
  | true =>
      refine ⟨_, after, ⟨hturn, rfl, hafter⟩, ?_⟩
      rw [hbody]
      rfl
  | false =>
      have hfound : bodyFrom count (t :: rest) =
          (join ⟨(Declaration.ofTokens? (t :: ts)).toList, []⟩
            (bodyFrom (count + (Declaration.ofTokens? (t :: ts)).toList.length) after).1,
            (bodyFrom (count + (Declaration.ofTokens? (t :: ts)).toList.length) after).2) := by
        rw [hbody]
        cases Declaration.ofTokens? (t :: ts) <;> rfl
      have hwithin : after <:+ tokens := hafter.trans ((List.suffix_cons t rest).trans h)
      by_cases hended : (after.head?.any fun u => u.kind == .semicolon) = true
      · -- The turn takes the semicolon as well.
        obtain ⟨u, more, rfl, hu⟩ : ∃ u more, after = u :: more ∧ u.kind = .semicolon := by
          cases after with
          | nil => cases hended
          | cons u more => exact ⟨u, more, rfl, beq_iff_eq.mp hended⟩
        refine ⟨_, more, ⟨hturn, ?_, (List.suffix_cons u more).trans hafter⟩, ?_⟩
        · simp [getElem?_place hwithin, hu, place_cons hwithin]
        · simpa [bodyFrom_of_semicolon hu] using hfound
      · refine ⟨_, after, ⟨hturn, ?_, hafter⟩, hfound⟩
        cases after with
        | nil => simp [getElem?_place_nil]
        | cons u more =>
            have hu : (u.kind == .semicolon) = false := Bool.eq_false_iff.mpr hended
            simp [getElem?_place hwithin, hu]

theorem exists_bodyTurn : ∃ turn after, BodyTurn tokens fuel count t rest turn after := by
  by_cases hitem : startsItem (t :: rest) = true
  · exact exists_bodyTurn_item h hfuel count hitem
  have hturn : bodyTurn? tokens fuel count (place tokens (t :: rest)) =
      some ⟨⟨[], []⟩, place tokens rest, t.kind == .closeBrace⟩ := by
    rw [bodyTurn?, getElem?_place h, place_cons h]
    simp only [startsItem, Bool.and_eq_true, bne_iff_ne, Bool.not_eq_true', not_and] at hitem
    by_cases hclose : t.kind = .closeBrace
    · simp [hclose]
    · by_cases hsemicolon : t.kind = .semicolon
      · simp [hsemicolon]
      · simp [hclose, hsemicolon, hitem ⟨hclose, hsemicolon⟩]
  refine ⟨_, rest, ⟨hturn, rfl, List.suffix_refl rest⟩, ?_⟩
  rw [bodyFrom]
  split
  · next hclose => simp [hclose]
  next hclose =>
  split
  · simp [hclose, join]
  next hsemicolon =>
  split
  · simp [hclose, join]
  · next htrivia => exact absurd (by simp [startsItem, hclose, hsemicolon, htrivia]) hitem

end Turns

/-- The body that is read by position, from wherever its tokens start. -/
theorem body?_place {ts : List Token} (h : ts <:+ tokens) {fuel : Nat} (hfuel : ts.length < fuel) (count : Nat) :
    body? tokens fuel count (place tokens ts) = some ((bodyFrom count ts).1, place tokens (bodyFrom count ts).2) := by
  induction fuel generalizing ts count with
  | zero => cases hfuel
  | succ fuel ih =>
      cases ts with
      | nil =>
          rw [body?, place_nil, if_neg (Nat.lt_irrefl _), bodyFrom]
          rfl
      | cons t rest =>
          obtain ⟨turn, after, hturn⟩ := exists_bodyTurn h hfuel count
          have hafter : after <:+ tokens := hturn.suffix.trans ((List.suffix_cons t rest).trans h)
          have hless : after.length < fuel := hturn.suffix.length_le.trans_lt (Nat.lt_of_succ_lt_succ hfuel)
          rw [body?, if_pos (place_lt_length h), hturn.reads, Option.bind_eq_bind, Option.bind_some, hturn.next,
            ih hafter hless, hturn.body]
          split <;> rfl

end Bodies

section Nodes

variable (tokens : List Token)

/-- Reads a rule. -/
def rule? (fuel pos : Nat) : Option (List Node × Nat) := do
  let stop ← headEnd? tokens fuel 0 pos
  let kind := (tokens[stop]?).map Token.kind
  if kind == some .openBrace then
    let (body, next) ← body? tokens fuel 0 (stop + 1)
    return ([.rule ⟨selectors (slice tokens pos stop), body.declarations, body.nested⟩], next)
  else if kind == some .semicolon then return ([], stop + 1)
  else return ([], stop)

/-- Reads an at-rule from its keyword on. `block?` reads the nodes of a block. -/
def atRule? (block? : Nat → Option (List Node × Nat)) (fuel pos : Nat) : Option (Node × Nat) := do
  let keyword ← tokens[pos]?
  let name := atName keyword
  let stop ← headEnd? tokens fuel 0 (pos + 1)
  let details := Spacing.head.compact (slice tokens (pos + 1) stop)
  let head := "@" ++ name ++ (if details.isEmpty then "" else " " ++ details)
  let kind := (tokens[stop]?).map Token.kind
  if kind == some .openBrace then
    if takesNodes name then
      let (children, next) ← block? (stop + 1)
      return (.block head children, next)
    else if takesFields name then
      let (body, next) ← body? tokens fuel 0 (stop + 1)
      if body.nested.isEmpty then return (.fields head body.declarations, next)
      else return (.statement (← textUpTo? tokens pos next), next)
    else
      let next ← blockEnd? tokens fuel 1 (stop + 1)
      return (.statement (← textUpTo? tokens pos next), next)
  else if kind == some .semicolon then return (.statement head, stop + 1)
  else return (.statement head, stop)

/-- A turn of reading nodes. -/
def turn? (block? : Nat → Option (List Node × Nat)) (fuel : Nat) (inBlock : Bool) (pos : Nat) :
    Option (Turn (List Node)) := do
  let t ← tokens[pos]?
  match t.kind with
  | .whitespace | .markupOpen | .markupClose | .semicolon => return ⟨[], pos + 1, false⟩
  | .comment => return ⟨if Text.startsWith t.text "/*!" then [.comment t.text] else [], pos + 1, false⟩
  | .closeBrace => return ⟨[], pos + 1, inBlock⟩
  | .atKeyword =>
    let (node, next) ← atRule? tokens block? fuel pos
    return ⟨[node], next, false⟩
  | _ =>
    let (found, next) ← rule? tokens fuel pos
    return ⟨found, next, false⟩

/-- Reads nodes up to the end of the tokens, or up to the brace that closes the block they are in. -/
def nodes? : (fuel : Nat) → (inBlock : Bool) → (pos : Nat) → Option (List Node × Nat)
  | 0, _, _ => none
  | fuel + 1, inBlock, pos =>
    if pos < tokens.length then do
      let turn ← turn? tokens (nodes? fuel true) (fuel + 1) inBlock pos
      if turn.last then return (turn.found, turn.next)
      let (more, stop) ← nodes? fuel inBlock turn.next
      return (turn.found ++ more, stop)
    else return ([], pos)

variable {tokens} {t : Token} {ts : List Token}

theorem suffix_nodesFrom (inBlock : Bool) (ts : List Token) : (nodesFrom inBlock ts).val.2 <:+ ts := by
  have hstep {t : Token} {ts rest : List Token} {step : Step} (hread : Step.read t ts = step) (hrest : step.rest = rest) :
      rest <:+ t :: ts := by
    have hsuffix := suffix_read t ts
    rwa [hread, hrest] at hsuffix
  fun_induction nodesFrom inBlock ts with
  | case1 => exact List.suffix_refl _
  | case2 _ _ _ _ _ hread _ _ _ hfrom ih =>
      rw [hfrom] at ih
      exact ih.trans (hstep hread rfl)
  | case3 _ _ _ _ _ _ hread _ _ _ _ hfrom ih =>
      rw [hfrom] at ih
      exact ih.trans (hstep hread rfl)
  | case4 _ _ _ _ hread => exact hstep hread rfl
  | case5 _ _ _ _ _ hread _ _ _ _ hfrom ih =>
      rw [hfrom] at ih
      exact ih.trans (hstep hread rfl)
  | case6 _ _ _ _ _ _ hread _ _ _ _ hchildren _ _ _ _ hfrom ihchildren ih =>
      rw [hchildren] at ihchildren
      rw [hfrom] at ih
      exact (ih.trans ihchildren).trans (hstep hread rfl)

/-- The turn that is taken where the parser takes a step. A block is read in one turn. -/
def turnOf (tokens : List Token) (inBlock : Bool) : Step → Turn (List Node)
  | .skip rest => ⟨[], place tokens rest, false⟩
  | .node node rest => ⟨[node], place tokens rest, false⟩
  | .enter head inner =>
    ⟨[.block head (nodesFrom true inner).val.1], place tokens (nodesFrom true inner).val.2, false⟩
  | .leave rest => ⟨[], place tokens rest, inBlock⟩

/-- What `block?` reads in `ts` are the nodes of a block, wherever it starts. -/
def ReadsBlocks (tokens : List Token) (block? : Nat → Option (List Node × Nat)) (ts : List Token) : Prop :=
  ∀ inner, inner <:+ ts → block? (place tokens inner)
    = some ((nodesFrom true inner).val.1, place tokens (nodesFrom true inner).val.2)

theorem textUpTo?_keyword (h : t :: ts <:+ tokens) {after : List Token} (hafter : after <:+ ts) :
    textUpTo? tokens (place tokens (t :: ts)) (place tokens after) = some (t.text ++ Step.textBefore ts after) := by
  obtain ⟨front, rfl⟩ := hafter
  rw [textUpTo?_place h (List.cons_append ..) (List.cons_ne_nil t front), Step.textBefore, List.length_append,
    Nat.add_sub_cancel, List.take_left]
  simp [Token.source, Text.concat]

section Steps

variable (inBlock : Bool) (h : t :: ts <:+ tokens) {fuel : Nat} (hfuel : (t :: ts).length < fuel)
  {block? : Nat → Option (List Node × Nat)} (hblocks : ReadsBlocks tokens block? ts)

include h hfuel hblocks

theorem exists_atRule? : ∃ node next, atRule? tokens block? fuel (place tokens (t :: ts)) = some (node, next)
    ∧ turnOf tokens inBlock (Step.readAtRule t ts) = ⟨[node], next, false⟩ := by
  have hts : ts <:+ tokens := (List.suffix_cons t ts).trans h
  have hless {after : List Token} (hafter : after <:+ ts) : after.length < fuel :=
    (hafter.trans (List.suffix_cons t ts)).length_le.trans_lt hfuel
  have hstop := headEnd?_place hts (hless (List.suffix_refl ts)) 0
  have hsplit := append_spanHead 0 ts
  rw [atRule?, getElem?_place h, place_cons h, Step.readAtRule]
  generalize spanHead 0 ts = span at hstop hsplit
  obtain ⟨head, after⟩ := span
  have hslice := slice_place hts hsplit
  have hafter : after <:+ ts := ⟨head, hsplit⟩
  simp only [Option.bind_eq_bind, Option.bind_some, hstop, hslice, atName]
  cases after with
  | nil => exact ⟨_, _, by rw [getElem?_place_nil]; rfl, rfl⟩
  | cons u inner =>
      have hinner : inner <:+ ts := (List.suffix_cons u inner).trans hafter
      rw [getElem?_place (hafter.trans hts), place_cons (hafter.trans hts), Option.map_some]
      have hblock := blockEnd?_place (hinner.trans hts) (hless hinner) Nat.one_pos
      have hbody := body?_place (hinner.trans hts) (hless hinner) 0
      simp only [hblocks inner hinner, hblock, hbody, Option.bind_some, Option.some_beq_some]
      split
      · split
        · exact ⟨_, _, rfl, rfl⟩
        split
        · split
          · exact ⟨_, _, rfl, rfl⟩
          · rw [textUpTo?_keyword h ((suffix_bodyFrom 0 inner).trans hinner)]
            exact ⟨_, _, rfl, rfl⟩
        · rw [textUpTo?_keyword h ((suffix_spanBlock 1 inner).trans hinner)]
          exact ⟨_, _, rfl, rfl⟩
      by_cases hsemicolon : (u.kind == .semicolon) = true <;> simp only [hsemicolon, if_true]
      all_goals exact ⟨_, _, rfl, rfl⟩

omit hblocks in
theorem exists_rule? : ∃ found next, rule? tokens fuel (place tokens (t :: ts)) = some (found, next)
    ∧ turnOf tokens inBlock (Step.readRule (t :: ts)) = ⟨found, next, false⟩ := by
  have hstop := headEnd?_place h hfuel 0
  have hsplit := append_spanHead 0 (t :: ts)
  rw [rule?, Step.readRule]
  generalize spanHead 0 (t :: ts) = span at hstop hsplit
  obtain ⟨head, after⟩ := span
  have hslice := slice_place h hsplit
  have hafter : after <:+ t :: ts := ⟨head, hsplit⟩
  simp only [Option.bind_eq_bind, Option.bind_some, hstop, hslice]
  cases after with
  | nil => exact ⟨_, _, by rw [getElem?_place_nil]; rfl, rfl⟩
  | cons u inner =>
      have hinner : inner <:+ t :: ts := (List.suffix_cons u inner).trans hafter
      have hbody := body?_place (hinner.trans h) (hinner.length_le.trans_lt hfuel) 0
      rw [getElem?_place (hafter.trans h), place_cons (hafter.trans h), Option.map_some]
      simp only [hbody, Option.bind_some, Option.some_beq_some]
      split
      · exact ⟨_, _, rfl, rfl⟩
      by_cases hsemicolon : (u.kind == .semicolon) = true <;> simp only [hsemicolon, if_true]
      all_goals exact ⟨_, _, rfl, rfl⟩

/-- At each token the turn is the one that belongs to the parser's step. -/
theorem turn?_place :
    turn? tokens block? fuel inBlock (place tokens (t :: ts)) = some (turnOf tokens inBlock (Step.read t ts)) := by
  obtain ⟨node, next, hnode, hatRule⟩ := exists_atRule? inBlock h hfuel hblocks
  obtain ⟨found, next', hfound, hrule⟩ := exists_rule? inBlock h hfuel
  rw [turn?, getElem?_place h, place_cons h, Step.read]
  simp only [Option.bind_eq_bind, Option.bind_some, hnode, hfound]
  cases hkind : t.kind
  case atKeyword => rw [hatRule]; rfl
  case comment =>
    dsimp only
    split <;> rfl
  case whitespace | markupOpen | markupClose | semicolon | closeBrace => rfl
  all_goals rw [hrule]; rfl

end Steps

/-- A turn of the nodes ends behind the token it starts at. The nodes are what the turn finds and what the next turns
find. -/
structure NodesTurn (tokens : List Token) (block? : Nat → Option (List Node × Nat)) (fuel : Nat) (inBlock : Bool)
    (t : Token) (ts : List Token) (turn : Turn (List Node)) (after : List Token) : Prop
    extends EndsAt tokens ts (turn? tokens block? fuel inBlock (place tokens (t :: ts))) turn after where
  nodes : (nodesFrom inBlock (t :: ts)).val = if turn.last then (turn.found, after) else
    (turn.found ++ (nodesFrom inBlock after).val.1, (nodesFrom inBlock after).val.2)

theorem exists_nodesTurn (inBlock : Bool) (h : t :: ts <:+ tokens) {fuel : Nat} (hfuel : (t :: ts).length < fuel)
    {block? : Nat → Option (List Node × Nat)} (hblocks : ReadsBlocks tokens block? ts) :
    ∃ turn after, NodesTurn tokens block? fuel inBlock t ts turn after := by
  have hturn := turn?_place inBlock h hfuel hblocks
  have hsuffix : (Step.read t ts).rest <:+ ts :=
    List.suffix_of_suffix_length_le (suffix_read t ts) (List.suffix_cons t ts) (Step.length_rest_read_le t ts)
  cases hread : Step.read t ts with
  | skip rest =>
      rw [hread] at hturn hsuffix
      exact ⟨_, rest, ⟨hturn, rfl, hsuffix⟩, nodesFrom_skip hread⟩
  | node node rest =>
      rw [hread] at hturn hsuffix
      exact ⟨_, rest, ⟨hturn, rfl, hsuffix⟩, nodesFrom_node hread⟩
  | enter head inner =>
      rw [hread] at hturn hsuffix
      exact ⟨_, _, ⟨hturn, rfl, (suffix_nodesFrom true inner).trans hsuffix⟩, nodesFrom_enter hread⟩
  | leave rest =>
      rw [hread] at hturn hsuffix
      exact ⟨_, rest, ⟨hturn, rfl, hsuffix⟩, nodesFrom_leave hread⟩

/-- The nodes that are read by position, from wherever their tokens start. -/
theorem nodes?_place (inBlock : Bool) {ts : List Token} (h : ts <:+ tokens) {fuel : Nat} (hfuel : ts.length < fuel) :
    nodes? tokens fuel inBlock (place tokens ts)
      = some ((nodesFrom inBlock ts).val.1, place tokens (nodesFrom inBlock ts).val.2) := by
  induction fuel generalizing ts inBlock with
  | zero => cases hfuel
  | succ fuel ih =>
      cases ts with
      | nil =>
          rw [nodes?, place_nil, if_neg (Nat.lt_irrefl _), nodesFrom]
          rfl
      | cons t rest =>
          have hrest : rest <:+ tokens := (List.suffix_cons t rest).trans h
          have hless {after : List Token} (hafter : after <:+ rest) : after.length < fuel :=
            hafter.length_le.trans_lt (Nat.lt_of_succ_lt_succ hfuel)
          -- A block starts behind the turn's first token, so what reads it needs fewer turns.
          obtain ⟨turn, after, hturn⟩ := exists_nodesTurn inBlock h hfuel fun inner hinner =>
            ih true (hinner.trans hrest) (hless hinner)
          rw [nodes?, if_pos (place_lt_length h), hturn.reads, Option.bind_eq_bind, Option.bind_some, hturn.next,
            ih inBlock (hturn.suffix.trans hrest) (hless hturn.suffix), hturn.nodes]
          split <;> rfl

end Nodes

section Runs

/-- The turns that every loop can do with: one for each token, and one to find the end. -/
def turns (tokens : List Token) : Nat := tokens.length + 1

variable {tokens : List Token} {pos : Nat}

theorem length_lt_turns {ts : List Token} (h : ts <:+ tokens) : ts.length < turns tokens :=
  Nat.lt_succ_of_le h.length_le

theorem movesOn_turn? (inBlock : Bool) (h : pos < tokens.length) :
    MovesOn tokens pos (turn? tokens (nodes? tokens (turns tokens) true) (turns tokens) inBlock pos) := by
  obtain ⟨t, rest, hends, rfl⟩ := exists_place_cons h
  obtain ⟨turn, after, hturn⟩ := exists_nodesTurn inBlock hends (length_lt_turns hends) fun inner hinner =>
    have hwithin := hinner.trans ((List.suffix_cons t rest).trans hends)
    nodes?_place true hwithin (length_lt_turns hwithin)
  exact hturn.toEndsAt.movesOn hends

theorem movesOn_bodyTurn? (count : Nat) (h : pos < tokens.length) :
    MovesOn tokens pos (bodyTurn? tokens (turns tokens) count pos) := by
  obtain ⟨t, rest, hends, rfl⟩ := exists_place_cons h
  obtain ⟨turn, after, hturn⟩ := exists_bodyTurn hends (length_lt_turns hends) count
  exact hturn.toEndsAt.movesOn hends

/-- A block that has been opened comes to an end. -/
theorem exists_blockEnd? (h : pos ≤ tokens.length) :
    ∃ stop, blockEnd? tokens (turns tokens) 1 pos = some stop ∧ pos ≤ stop ∧ stop ≤ tokens.length := by
  have hdrop := List.drop_suffix pos tokens
  have hclose := blockEnd?_place hdrop (length_lt_turns hdrop) Nat.one_pos
  rw [place_drop h] at hclose
  exact ⟨_, hclose, le_place h (suffix_spanBlock 1 _), place_le _⟩

/-- A group ends behind the token that opens it. -/
theorem exists_groupEnd? {t : Token} (h : tokens[pos]? = some t) (hopens : t.kind.opensGroup = true) :
    ∃ stop, groupEnd? tokens (turns tokens) 0 pos = some stop ∧ pos < stop ∧ stop ≤ tokens.length := by
  obtain ⟨u, rest, hends, rfl⟩ := exists_place_cons (List.getElem?_eq_some_iff.mp h).1
  rw [getElem?_place hends, Option.some.injEq] at h
  subst h
  exact ⟨_, groupEnd?_place hends (length_lt_turns hends) hopens, place_lt hends ⟨_, append_spanGroup 1 rest⟩,
    place_le _⟩

theorem exists_body? (count : Nat) (h : pos ≤ tokens.length) :
    ∃ stop, body? tokens (turns tokens) count pos = some ((bodyFrom count (tokens.drop pos)).1, stop)
      ∧ pos ≤ stop ∧ stop ≤ tokens.length := by
  have hdrop := List.drop_suffix pos tokens
  have hbody := body?_place hdrop (length_lt_turns hdrop) count
  rw [place_drop h] at hbody
  exact ⟨_, hbody, le_place h (suffix_bodyFrom count _), place_le _⟩

/-- Outside of blocks the nodes end where the tokens do. -/
theorem exists_nodes? (inBlock : Bool) (h : pos ≤ tokens.length) :
    ∃ stop, nodes? tokens (turns tokens) inBlock pos = some ((nodesFrom inBlock (tokens.drop pos)).val.1, stop)
      ∧ pos ≤ stop ∧ stop ≤ tokens.length ∧ (inBlock = false → stop = tokens.length) := by
  have hdrop := List.drop_suffix pos tokens
  have hnodes := nodes?_place inBlock hdrop (length_lt_turns hdrop)
  rw [place_drop h] at hnodes
  refine ⟨_, hnodes, le_place h (suffix_nodesFrom inBlock _), place_le _, ?_⟩
  rintro rfl
  rw [nodesFrom_false, place_nil]

/-- Reading comes to its end on every list of tokens. Each turn of the two loops moves on, wherever it starts. A block
and a group that are open come to their ends without taking one from a depth of zero. The components of a value, a
body and the nodes are read to their end, without looking at a token before the first, and outside of blocks the nodes
end where the tokens do. -/
theorem reading_moves_on (tokens : List Token) :
    (∀ inBlock, ∀ pos < tokens.length,
      MovesOn tokens pos (turn? tokens (nodes? tokens (turns tokens) true) (turns tokens) inBlock pos)) ∧
    (∀ count, ∀ pos < tokens.length, MovesOn tokens pos (bodyTurn? tokens (turns tokens) count pos)) ∧
    (∀ pos ≤ tokens.length, ∃ stop,
      blockEnd? tokens (turns tokens) 1 pos = some stop ∧ pos ≤ stop ∧ stop ≤ tokens.length) ∧
    (∀ pos t, tokens[pos]? = some t → t.kind.opensGroup = true → ∃ stop,
      groupEnd? tokens (turns tokens) 0 pos = some stop ∧ pos < stop ∧ stop ≤ tokens.length) ∧
    componentsFrom? tokens (turns tokens) "" 0 = some (Value.ofTokens tokens) ∧
    (∀ count, ∀ pos ≤ tokens.length, ∃ stop,
      body? tokens (turns tokens) count pos = some ((bodyFrom count (tokens.drop pos)).1, stop) ∧
        pos ≤ stop ∧ stop ≤ tokens.length) ∧
    (∀ inBlock, ∀ pos ≤ tokens.length, ∃ stop,
      nodes? tokens (turns tokens) inBlock pos = some ((nodesFrom inBlock (tokens.drop pos)).val.1, stop) ∧
        pos ≤ stop ∧ stop ≤ tokens.length ∧ (inBlock = false → stop = tokens.length)) ∧
    ∀ text, tokenize text = tokens →
      nodes? tokens (turns tokens) false 0 = some (Sheet.parse text, tokens.length) := by
  have hall := length_lt_turns (List.suffix_refl tokens)
  have hvalue := componentsFrom?_place (List.suffix_refl tokens) hall ""
  have hnodes := nodes?_place false (List.suffix_refl tokens) hall
  rw [place_self] at hvalue hnodes
  refine ⟨fun inBlock pos h => movesOn_turn? inBlock h, fun count pos h => movesOn_bodyTurn? count h,
    fun pos h => exists_blockEnd? h, fun pos t h hopens => exists_groupEnd? h hopens, hvalue,
    fun count pos h => exists_body? count h, fun inBlock pos h => exists_nodes? inBlock h, ?_⟩
  rintro text rfl
  rw [nodesFrom_false, place_nil] at hnodes
  exact hnodes

end Runs

end Walk

end Parser

end CssMinify
