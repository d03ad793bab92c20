import CssMinify.Proofs.Printing.Reading
import CssMinify.Proofs.Selector.Heads
import Mathlib.Data.Nat.PSub

/-!
Reading by position. The reader of a sheet as a walk over the positions of its tokens, in which nothing is cut off:
to take one from a depth of zero and to look at the token before the first or past the last come to no answer. Every
loop has `fuel`, the number of turns that it may take, and comes to no answer when it runs out of it; so does a loop
that does not move on, however much it has. The scanners of the walk stop where the spans end that the tokens are cut
into, and need no more turns than there are tokens, and one to find the end.
-/

namespace CssMinify

namespace Parser

namespace Walk

section Places

variable (tokens : List Token)

/-- The position at which `rest` starts, an end of the tokens. -/
def place (rest : List Token) : Nat := tokens.length - rest.length

/-- The tokens from a position up to another. -/
def slice (start stop : Nat) : List Token := (tokens.take stop).drop start

/-- The text from a position up to the end of the token before another. -/
def textUpTo? (start pos : Nat) : Option String := do
  let last ← pos.ppred
  let t ← tokens[last]?
  if start ≤ last then some (Token.source (slice tokens start last) ++ t.text) else none

variable {tokens} {t : Token} {ts front rest : List Token}

theorem place_append (done rest : List Token) : place (done ++ rest) rest = done.length := by
  rw [place, List.length_append, Nat.add_sub_cancel]

theorem place_nil : place tokens [] = tokens.length := rfl

theorem place_self : place tokens tokens = 0 := Nat.sub_self _

theorem place_le (rest : List Token) : place tokens rest ≤ tokens.length := Nat.sub_le _ _

theorem place_cons (h : t :: rest <:+ tokens) : place tokens (t :: rest) + 1 = place tokens rest := by
  have hle := h.length_le
  rw [List.length_cons] at hle
  rw [place, place, List.length_cons]
  omega

theorem place_lt (h : t :: rest <:+ tokens) {after : List Token} (hafter : after <:+ rest) :
    place tokens (t :: rest) < place tokens after := by
  have hle := h.length_le
  have hle' := hafter.length_le
  rw [List.length_cons] at hle
  rw [place, place, List.length_cons]
  omega

theorem place_lt_length (h : t :: rest <:+ tokens) : place tokens (t :: rest) < tokens.length :=
  place_lt h List.nil_suffix

theorem place_drop {pos : Nat} (h : pos ≤ tokens.length) : place tokens (tokens.drop pos) = pos := by
  rw [place, List.length_drop]
  omega

/-- No end of what stands from a position on starts before it. -/
theorem le_place {pos : Nat} (h : pos ≤ tokens.length) {after : List Token} (hafter : after <:+ tokens.drop pos) :
    pos ≤ place tokens after :=
  calc pos = place tokens (tokens.drop pos) := (place_drop h).symm
    _ ≤ place tokens after := Nat.sub_le_sub_left hafter.length_le _

/-- Inside of the tokens every position is the place of a token. -/
theorem exists_place_cons {pos : Nat} (h : pos < tokens.length) :
    ∃ t rest, t :: rest <:+ tokens ∧ place tokens (t :: rest) = pos := by
  have hcons := List.drop_eq_getElem_cons h
  refine ⟨tokens[pos], tokens.drop (pos + 1), ?_, ?_⟩
  · rw [← hcons]
    exact List.drop_suffix pos tokens
  · rw [← hcons, place_drop h.le]

theorem getElem?_place (h : t :: rest <:+ tokens) : tokens[place tokens (t :: rest)]? = some t := by
  obtain ⟨done, rfl⟩ := h
  rw [place_append, List.getElem?_append_right (Nat.le_refl _), Nat.sub_self, List.getElem?_cons_zero]

theorem getElem?_place_nil : tokens[place tokens []]? = none := List.getElem?_eq_none (Nat.le_refl _)

theorem slice_place (h : ts <:+ tokens) (hsplit : front ++ rest = ts) :
    slice tokens (place tokens ts) (place tokens rest) = front := by
  subst hsplit
  obtain ⟨done, rfl⟩ := h
  have hstop := place_append (done ++ front) rest
  rw [List.append_assoc] at hstop
  rw [place_append, hstop, slice, ← List.append_assoc, List.take_left, List.drop_left]

/-- Where there is a token to look back at, the text up to it is the one that was passed. -/
theorem textUpTo?_place (h : ts <:+ tokens) (hsplit : front ++ rest = ts) (hne : front ≠ []) :
    textUpTo? tokens (place tokens ts) (place tokens rest) = some (Token.source front) := by
  subst hsplit
  obtain ⟨init, t, rfl⟩ : ∃ init t, front = init ++ [t] := ⟨_, _, (List.dropLast_append_getLast hne).symm⟩
  rw [List.append_assoc, List.singleton_append] at h ⊢
  have hlast : t :: rest <:+ tokens := (List.suffix_append init _).trans h
  have hstart : place tokens (init ++ t :: rest) ≤ place tokens (t :: rest) :=
    Nat.sub_le_sub_left (List.suffix_append init _).length_le _
  have hone : Token.source [t] = t.text := by simp [Token.source, Text.concat]
  rw [textUpTo?, ← place_cons hlast, Nat.ppred_succ]
  simp only [Option.bind_eq_bind, Option.bind_some, getElem?_place hlast]
  rw [if_pos hstart, slice_place h rfl, Token.source_append, hone]

end Places

section Scanners

variable (tokens : List Token)

/-- The position after the token that closes a group `depth` levels deep. -/
def closeEnd? (opens closes : TokenKind → Bool) : (fuel depth pos : Nat) → Option Nat
  | 0, _, _ => none
  | fuel + 1, depth, pos =>
    match tokens[pos]? with
    | none => some pos
    | some t =>
      if opens t.kind then closeEnd? opens closes fuel (depth + 1) (pos + 1)
      else if closes t.kind then do
        let depth ← depth.ppred
        if depth = 0 then some (pos + 1) else closeEnd? opens closes fuel depth (pos + 1)
      else closeEnd? opens closes fuel depth (pos + 1)

/-- The position after the brace that closes a block. -/
def blockEnd? (fuel depth pos : Nat) : Option Nat :=
  closeEnd? tokens (· == .openBrace) (· == .closeBrace) fuel depth pos

/-- The position after the parenthesis or bracket that closes a group. -/
def groupEnd? (fuel depth pos : Nat) : Option Nat :=
  closeEnd? tokens TokenKind.opensGroup TokenKind.closesGroup fuel depth pos

/-- The position of the brace or semicolon that ends a head. -/
def headEnd? : (fuel depth pos : Nat) → Option Nat
  | 0, _, _ => none
  | fuel + 1, depth, pos =>
    match tokens[pos]? with
    | none => some pos
    | some t =>
      if depth == 0 && endsHead t.kind then some pos else headEnd? fuel (depthAfter depth t.kind) (pos + 1)

/-- Where an item of a body ends, and whether it has a block of its own. -/
def itemEnd? (custom : Bool) : (fuel depth : Nat) → (nested : Bool) → (pos : Nat) → Option (Nat × Bool)
  | 0, _, _, _ => none
  | fuel + 1, depth, nested, pos =>
    match tokens[pos]? with
    | none => some (pos, nested)
    | some t =>
      if depth == 0 && (t.kind == .semicolon || t.kind == .closeBrace) then some (pos, false)
      else if t.kind == .closeBrace then do
        let depth ← depth.ppred
        if nested && depth == 0 then some (pos + 1, true) else itemEnd? custom fuel depth nested (pos + 1)
      else if t.kind == .openBrace then
        itemEnd? custom fuel (depth + 1) (nested || (depth == 0 && !custom)) (pos + 1)
      else itemEnd? custom fuel (depthAfter depth t.kind) nested (pos + 1)

/-- What a scanner of groups cuts off: the tokens up to the one that closes a group, and those after it. -/
def spanClosed (opens closes : TokenKind → Bool) : Nat → List Token → List Token × List Token
  | _, [] => ([], [])
  | depth, t :: rest =>
    let depth := if opens t.kind then depth + 1 else if closes t.kind then depth - 1 else depth
    if depth == 0 then ([t], rest)
    else (t :: (spanClosed opens closes depth rest).1, (spanClosed opens closes depth rest).2)

theorem spanBlock_eq (depth : Nat) (ts : List Token) :
    spanBlock depth ts = spanClosed (· == .openBrace) (· == .closeBrace) depth ts := by
  induction ts generalizing depth with
  | nil => rfl
  | cons t rest ih => simp only [spanBlock, spanClosed, ih]

theorem spanGroup_eq (depth : Nat) (ts : List Token) :
    spanGroup depth ts = spanClosed TokenKind.opensGroup TokenKind.closesGroup depth ts := by
  induction ts generalizing depth with
  | nil => rfl
  | cons t rest ih => simp only [spanGroup, spanClosed, ih]

variable {tokens} {ts : List Token}

section Closed

variable {opens closes : TokenKind → Bool}

theorem append_spanClosed (depth : Nat) (ts : List Token) :
    (spanClosed opens closes depth ts).1 ++ (spanClosed opens closes depth ts).2 = ts := by
  induction ts generalizing depth with
  | nil => rfl
  | cons t rest ih =>
      rw [spanClosed]
      generalize (if opens t.kind then depth + 1 else if closes t.kind then depth - 1 else depth) = inside
      by_cases hzero : (inside == 0) = true
      · rw [if_pos hzero, List.singleton_append]
      · rw [if_neg hzero]
        exact congrArg (t :: ·) (ih inside)

/-- A scanner that starts inside a group never takes one from a depth of zero: it stops when the depth becomes
zero. -/
theorem closeEnd?_place (h : ts <:+ tokens) {fuel depth : Nat} (hfuel : ts.length < fuel) (hdepth : 0 < depth) :
    closeEnd? tokens opens closes fuel depth (place tokens ts)
      = some (place tokens (spanClosed opens closes depth ts).2) := by
  induction ts generalizing fuel depth with
  | nil =>
      obtain ⟨fuel, rfl⟩ := Nat.exists_eq_succ_of_ne_zero (Nat.ne_zero_of_lt hfuel)
      rw [closeEnd?, getElem?_place_nil, spanClosed]
  | cons t rest ih =>
      obtain ⟨fuel, rfl⟩ := Nat.exists_eq_succ_of_ne_zero (Nat.ne_zero_of_lt hfuel)
      have hrest : rest <:+ tokens := (List.suffix_cons t rest).trans h
      have hfuel : rest.length < fuel := Nat.lt_of_succ_lt_succ hfuel
      rw [closeEnd?, getElem?_place h, spanClosed, place_cons h]
      dsimp only
      split
      · exact ih hrest hfuel (Nat.succ_pos depth)
      split
      · obtain ⟨depth, rfl⟩ := Nat.exists_eq_succ_of_ne_zero hdepth.ne'
        rw [Nat.ppred_succ, Option.bind_eq_bind, Option.bind_some, Nat.succ_sub_one]
        by_cases hzero : depth = 0
        · simp [hzero]
        · simp [hzero, ih hrest hfuel (Nat.pos_of_ne_zero hzero)]
      · simp [hdepth.ne', ih hrest hfuel hdepth]

end Closed

/-- Outside of all groups a token that closes one has nothing to take its depth from. -/
example : groupEnd? [⟨.closeParen, ")"⟩] 2 0 0 = none := by decide

theorem blockEnd?_place (h : ts <:+ tokens) {fuel depth : Nat} (hfuel : ts.length < fuel) (hdepth : 0 < depth) :
    blockEnd? tokens fuel depth (place tokens ts) = some (place tokens (spanBlock depth ts).2) := by
  rw [blockEnd?, closeEnd?_place h hfuel hdepth, spanBlock_eq]

theorem append_spanGroup (depth : Nat) (ts : List Token) : (spanGroup depth ts).1 ++ (spanGroup depth ts).2 = ts := by
  rw [spanGroup_eq, append_spanClosed]

theorem groupEnd?_place {t : Token} {rest : List Token} (h : t :: rest <:+ tokens) {fuel : Nat}
    (hfuel : (t :: rest).length < fuel) (hopens : t.kind.opensGroup = true) :
    groupEnd? tokens fuel 0 (place tokens (t :: rest)) = some (place tokens (spanGroup 1 rest).2) := by
  obtain ⟨fuel, rfl⟩ := Nat.exists_eq_succ_of_ne_zero (Nat.ne_zero_of_lt hfuel)
  rw [groupEnd?, closeEnd?, getElem?_place h]
  dsimp only
  rw [if_pos hopens, place_cons h,
    closeEnd?_place ((List.suffix_cons t rest).trans h) (Nat.lt_of_succ_lt_succ hfuel) Nat.one_pos, spanGroup_eq]

theorem headEnd?_place (h : ts <:+ tokens) {fuel : Nat} (hfuel : ts.length < fuel) (depth : Nat) :
    headEnd? tokens fuel depth (place tokens ts) = some (place tokens (spanHead depth ts).2) := by
  induction ts generalizing fuel depth with
  | nil =>
      obtain ⟨fuel, rfl⟩ := Nat.exists_eq_succ_of_ne_zero (Nat.ne_zero_of_lt hfuel)
      rw [headEnd?, getElem?_place_nil, spanHead]
  | cons t rest ih =>
      obtain ⟨fuel, rfl⟩ := Nat.exists_eq_succ_of_ne_zero (Nat.ne_zero_of_lt hfuel)
      rw [headEnd?, getElem?_place h, spanHead, place_cons h]
      dsimp only
      split
      · rfl
      · exact ih ((List.suffix_cons t rest).trans h) (Nat.lt_of_succ_lt_succ hfuel) _

theorem append_spanItem (custom : Bool) (depth : Nat) (nested : Bool) (ts : List Token) :
    (spanItem custom depth nested ts).tokens ++ (spanItem custom depth nested ts).rest = ts := by
  fun_induction spanItem custom depth nested ts with
  | case1 => rfl
  | case2 => rfl
  | case3 => rfl
  | case4 _ _ t rest _ _ _ _ item ih => exact congrArg (t :: ·) ih

/-- A closing brace inside an item goes one level up, or ends the item with its block. -/
theorem spanItem_close {custom nested : Bool} {depth : Nat} {t : Token} {rest : List Token} (h : t.kind = .closeBrace) :
    spanItem custom (depth + 1) nested (t :: rest)
      = if nested && depth == 0 then ⟨[t], true, rest⟩
        else { spanItem custom depth nested rest with tokens := t :: (spanItem custom depth nested rest).tokens } := by
  rw [spanItem]
  simp [h]

theorem spanItem_open {custom nested : Bool} {depth : Nat} {t : Token} {rest : List Token} (h : t.kind = .openBrace) :
    spanItem custom depth nested (t :: rest)
      = { spanItem custom (depth + 1) (nested || (depth == 0 && !custom)) rest with
          tokens := t :: (spanItem custom (depth + 1) (nested || (depth == 0 && !custom)) rest).tokens } := by
  rw [spanItem]
  simp [h]

theorem spanItem_other {custom nested : Bool} {depth : Nat} {t : Token} {rest : List Token}
    (hend : ¬(depth == 0 && (t.kind == .semicolon || t.kind == .closeBrace)) = true)
    (hclose : (t.kind == .closeBrace) = false) (hopen : (t.kind == .openBrace) = false) :
    spanItem custom depth nested (t :: rest)
      = { spanItem custom (depthAfter depth t.kind) nested rest with
          tokens := t :: (spanItem custom (depthAfter depth t.kind) nested rest).tokens } := by
  rw [spanItem, if_neg hend]
  simp [hclose, hopen]

theorem itemEnd?_place (h : ts <:+ tokens) {fuel : Nat} (hfuel : ts.length < fuel) (custom : Bool) (depth : Nat)
    (nested : Bool) :
    itemEnd? tokens custom fuel depth nested (place tokens ts)
      = some (place tokens (spanItem custom depth nested ts).rest, (spanItem custom depth nested ts).nested) := by
  induction ts generalizing fuel depth nested with
  | nil =>
      obtain ⟨fuel, rfl⟩ := Nat.exists_eq_succ_of_ne_zero (Nat.ne_zero_of_lt hfuel)
      rw [itemEnd?, getElem?_place_nil, spanItem]
  | cons t rest ih =>
      obtain ⟨fuel, rfl⟩ := Nat.exists_eq_succ_of_ne_zero (Nat.ne_zero_of_lt hfuel)
      have hrest := (List.suffix_cons t rest).trans h
      have hfuel : rest.length < fuel := Nat.lt_of_succ_lt_succ hfuel
      rw [itemEnd?, getElem?_place h, place_cons h]
      dsimp only
      split
      · next hend => rw [spanItem, if_pos hend]
      next hend =>
      split
      · next hclose =>
          rw [beq_iff_eq] at hclose
          -- The brace closes something, for at the top level it would have ended the item.
          obtain ⟨depth, rfl⟩ : ∃ n, depth = n + 1 :=
            Nat.exists_eq_succ_of_ne_zero (by rintro rfl; simp [hclose] at hend)
          rw [Nat.ppred_succ, Option.bind_eq_bind, Option.bind_some, ih hrest hfuel, spanItem_close hclose]
          split <;> rfl
      next hclose =>
      split
      · next hopen => rw [ih hrest hfuel, spanItem_open (beq_iff_eq.mp hopen)]
      · next hopen =>
          rw [ih hrest hfuel, spanItem_other hend (Bool.eq_false_iff.mpr hclose) (Bool.eq_false_iff.mpr hopen)]

end Scanners

end Walk

end Parser

end CssMinify
