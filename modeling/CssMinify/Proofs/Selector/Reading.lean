import CssMinify.Proofs.Selector.Reader
import CssMinify.Proofs.Selector.Written

/-!
Reading a selector list back. Each simple selector is found where its tokens stand, a compound ends at the space,
the sign or the comma after it, and the links follow from left to right, so a list of chains is read as it was
written and nothing of it is left. How strongly the list binds is then a matter of counting.
-/

namespace CssMinify

open Lexer

namespace Selector

section Compounds

variable {rest : List Piece}

theorem read_attribute (name : String) (test : Test) (operand : Option Operand)
    (h : test = .present ↔ operand = none) :
    readAttribute (((⟨.ident, name⟩ : Token) :: (test.signs.map Token.sign
        ++ (operand.toList.map Operand.token ++ [Token.closeBracket]))).map Piece.bare ++ rest)
      = (some (.attribute name test operand), rest) := by
  cases operand with
  | none =>
      rw [h.mpr rfl]
      rfl
  | some operand =>
      have htest : test ≠ .present := fun heq => by simpa using h.mp heq
      cases operand <;> cases test <;> first | exact absurd rfl htest | rfl

/-- A simple selector is found where its tokens stand. -/
theorem Simple.IsPlain.read {s : Simple} (h : s.IsPlain) {started : Bool}
    (hleading : s.isLeading = true → started = false) (rest : List Piece) :
    ∃ (p : Piece) (more : List Piece), s.tokens.map Piece.bare = p :: more
      ∧ SimpleStep.read started p (more ++ rest) = .found s rest := by
  have hattribute : ∀ {name : String} {test : Test} {operand : Option Operand},
      (test = .present ↔ operand = none) → ∃ (p : Piece) (more : List Piece),
        (Simple.attribute name test operand).tokens.map Piece.bare = p :: more
          ∧ SimpleStep.read started p (more ++ rest) = .found (.attribute name test operand) rest := by
    intro name test operand hiff
    refine ⟨_, _, rfl, ?_⟩
    have hkind : (Piece.bare Token.openBracket).kind = .openBracket := rfl
    simp only [SimpleStep.read, hkind]
    rw [read_attribute name test operand hiff]
  cases h with
  | @element name h =>
      refine ⟨_, _, rfl, ?_⟩
      show (if started = true then _ else SimpleStep.found (.element (Text.lower name)) rest) = _
      rw [hleading rfl, if_neg (by simp), lower_of_isIdentifier h]
  | universal =>
      refine ⟨_, _, rfl, ?_⟩
      show (if started = true then _ else SimpleStep.found .universal rest) = _
      rw [hleading rfl, if_neg (by simp)]
  | @id name h =>
      refine ⟨_, _, rfl, ?_⟩
      show SimpleStep.found (.id (String.ofList (("#" ++ name).toList.drop 1))) rest = _
      rw [String.toList_append]
      simp
  | className h => exact ⟨_, _, rfl, rfl⟩
  | present h => exact hattribute (by simp)
  | compared h htest hoperand => exact hattribute (by simp [htest])
  | @pseudoClass name h hlegacy =>
      refine ⟨_, _, rfl, ?_⟩
      show SimpleStep.readPseudo false (Piece.bare ⟨.ident, name⟩ :: rest) = _
      simp [SimpleStep.readPseudo, Piece.bare, Piece.kind, lower_of_isIdentifier h, hlegacy]
  | @pseudoElement name h =>
      refine ⟨_, _, rfl, ?_⟩
      show SimpleStep.readPseudo true (Piece.bare ⟨.ident, name⟩ :: rest) = _
      simp [SimpleStep.readPseudo, Piece.bare, Piece.kind, lower_of_isIdentifier h]
  | oldElement h =>
      refine ⟨_, _, rfl, ?_⟩
      rcases h with rfl | rfl <;> rfl

/-- What ends a compound: a space, a comma or the sign of a combinator, or nothing more. -/
def endsCompound : List Piece → Bool
  | [] => true
  | p :: _ => match p.kind with
    | .whitespace | .comma | .delim '>' | .delim '+' | .delim '~' => true
    | _ => false

theorem compoundFrom_of_endsCompound (h : endsCompound rest = true) (started : Bool) :
    compoundFrom started rest = ([], rest) := by
  cases rest with
  | nil => rw [compoundFrom_nil]
  | cons p rest =>
      have hread : SimpleStep.read started p rest = .stopped (p :: rest) := by
        rw [endsCompound] at h
        rw [SimpleStep.read.eq_def]
        split at h
        case h_6 => cases h
        all_goals
          next hkind => simp [hkind]
      exact compoundFrom_stopped hread

theorem compoundFrom_simples {simples : List Simple} (h : ∀ s ∈ simples, s.IsPlain)
    (htail : ∀ s ∈ simples, s.isLeading = false) (hrest : endsCompound rest = true) :
    compoundFrom true ((Compound.tokens simples).map Piece.bare ++ rest) = (simples, rest) := by
  induction simples with
  | nil => exact compoundFrom_of_endsCompound hrest true
  | cons s simples ih =>
      have hmore := ih (fun t ht => h t (List.mem_cons_of_mem s ht)) fun t ht => htail t (List.mem_cons_of_mem s ht)
      have hleading : s.isLeading = true → true = false := by simp [htail s List.mem_cons_self]
      obtain ⟨p, more, htokens, hread⟩ := (h s List.mem_cons_self).read hleading
        ((Compound.tokens simples).map Piece.bare ++ rest)
      have hcons : (Compound.tokens (s :: simples)).map Piece.bare ++ rest
          = p :: (more ++ ((Compound.tokens simples).map Piece.bare ++ rest)) := by
        rw [Compound.tokens, List.flatMap_cons, List.map_append, htokens]
        simp [Compound.tokens]
      rw [hcons, compoundFrom_found hread, hmore]

/-- A compound is read up to its end. -/
theorem Compound.IsPlain.compoundFrom {c : Compound} (h : c.IsPlain) (hrest : endsCompound rest = true) :
    Selector.compoundFrom false (c.tokens.map Piece.bare ++ rest) = (c, rest) := by
  cases c with
  | nil => exact absurd rfl h.ne_nil
  | cons s simples =>
      have hmore := compoundFrom_simples (fun t ht => h.simples t (List.mem_cons_of_mem s ht)) h.tail hrest
      obtain ⟨p, more, htokens, hread⟩ := (h.simples s List.mem_cons_self).read (fun _ => rfl)
        ((Compound.tokens simples).map Piece.bare ++ rest)
      have hcons : (Compound.tokens (s :: simples)).map Piece.bare ++ rest
          = p :: (more ++ ((Compound.tokens simples).map Piece.bare ++ rest)) := by
        rw [Compound.tokens, List.flatMap_cons, List.map_append, htokens]
        simp [Compound.tokens]
      rw [hcons, compoundFrom_found hread, hmore]

end Compounds

section Links

variable {rest : List Piece}

/-- The first token of a compound is no space, no comma and no sign of a combinator. -/
theorem Compound.IsPlain.exists_token {c : Compound} (h : c.IsPlain) :
    ∃ (t : Token) (more : List Token), c.tokens = t :: more
      ∧ (t.kind = .ident ∨ t.kind = .hash ∨ t.kind = .colon ∨ t.kind = .openBracket ∨ t.kind = .delim '*'
        ∨ t.kind = .delim '.') := by
  cases c with
  | nil => exact absurd rfl h.ne_nil
  | cons s simples =>
      rw [Compound.tokens, List.flatMap_cons]
      cases h.simples s List.mem_cons_self with
      | element | universal | id | className | present | compared | pseudoClass | pseudoElement | oldElement =>
          refine ⟨_, _, rfl, ?_⟩
          simp [Token.sign, Token.openBracket, Token.colon]

theorem skipSpace_blank (b : Blank) (more : List Piece) :
    Piece.skipSpace (b.tokens.map Piece.bare ++ more) = Piece.skipSpace more := by
  rw [Blank.tokens]
  split
  · rfl
  · exact Piece.skipSpace_of_eq rfl more

/-- A combinator is read from the tokens in front of its compound. -/
theorem readCombinator?_joint (l : Link) (h : l.compound.IsPlain) (rest : List Piece) :
    readCombinator?
        ((Piece.skipSpace (l.tokens.map Piece.bare ++ rest)).length < (l.tokens.map Piece.bare ++ rest).length)
        (Piece.skipSpace (l.tokens.map Piece.bare ++ rest))
      = some (l.combinator, l.compound.tokens.map Piece.bare ++ rest) := by
  obtain ⟨t, more, htokens, hkind⟩ := h.exists_token
  have hne : ∀ tail : List Piece, Piece.skipSpace (Piece.bare t :: tail) = Piece.bare t :: tail := by
    intro tail
    refine Piece.skipSpace_of_ne ?_ tail
    show t.kind ≠ .whitespace
    rcases hkind with hk | hk | hk | hk | hk | hk <;> simp [hk]
  have hcompound :
      Piece.skipSpace (l.compound.tokens.map Piece.bare ++ rest) = l.compound.tokens.map Piece.bare ++ rest := by
    rw [htokens]
    exact hne _
  rw [Link.tokens, Link.joint, List.map_append, List.append_assoc]
  cases hsign : l.combinator.sign? with
  | none =>
      have hdescendant : l.combinator = .descendant := by
        cases hk : l.combinator <;> first | rfl | (rw [hk] at hsign; cases hsign)
      have hblank : (l.before.append l.after).text.isEmpty = false := by
        rw [Bool.eq_false_iff, Ne, String.isEmpty_iff]
        exact l.spaced hdescendant
      have hlength : (l.compound.tokens.map Piece.bare ++ rest).length
          < ((l.before.append l.after).tokens.map Piece.bare ++ (l.compound.tokens.map Piece.bare ++ rest)).length := by
        rw [Blank.tokens, hblank]
        simp
      rw [hdescendant, skipSpace_blank, hcompound, decide_eq_true hlength, htokens]
      rcases hkind with hk | hk | hk | hk | hk | hk <;> simp [readCombinator?, Piece.kind, Piece.bare, hk]
  | some c =>
      have hc : (Piece.bare (Token.sign c)).kind = .delim c := rfl
      have hskip : Piece.skipSpace ((l.before.tokens ++ Token.sign c :: l.after.tokens).map Piece.bare
            ++ (l.compound.tokens.map Piece.bare ++ rest))
          = Piece.bare (Token.sign c)
            :: (l.after.tokens.map Piece.bare ++ (l.compound.tokens.map Piece.bare ++ rest)) := by
        rw [List.map_append, List.append_assoc, skipSpace_blank]
        exact Piece.skipSpace_of_ne (by simp [hc]) _
      have hafter := (skipSpace_blank l.after (l.compound.tokens.map Piece.bare ++ rest)).trans hcompound
      rw [hskip, readCombinator?.eq_def]
      cases hk : l.combinator <;> rw [hk] at hsign <;> cases hsign <;> simp [hc, hafter]

theorem endsCompound_joint (l : Link) (more : List Token) (tail : List Piece) :
    endsCompound ((l.tokens ++ more).map Piece.bare ++ tail) = true := by
  have hblank : ∀ (b : Blank) (ts : List Token), b.text.isEmpty = false →
      endsCompound ((b.tokens ++ ts).map Piece.bare ++ tail) = true := by
    intro b ts hb
    rw [Blank.tokens, hb]
    rfl
  rw [Link.tokens, Link.joint]
  cases hsign : l.combinator.sign? with
  | none =>
      have hdescendant : l.combinator = .descendant := by
        cases hk : l.combinator <;> first | rfl | (rw [hk] at hsign; cases hsign)
      rw [List.append_assoc]
      refine hblank _ _ ?_
      rw [Bool.eq_false_iff, Ne, String.isEmpty_iff]
      exact l.spaced hdescendant
  | some c =>
      rw [List.append_assoc, List.append_assoc]
      cases hb : l.before.text.isEmpty with
      | false => exact hblank _ _ hb
      | true =>
          rw [Blank.tokens, hb, if_pos rfl]
          cases hk : l.combinator <;> rw [hk] at hsign <;> cases hsign <;> rfl

/-- After a chain, the list ends or goes on with a comma. -/
def endsLinks : List Piece → Bool
  | [] => true
  | p :: _ => p.kind == .comma

theorem endsCompound_trail (b : Blank) (h : endsLinks rest = true) :
    endsCompound (b.tokens.map Piece.bare ++ rest) = true := by
  rw [Blank.tokens]
  split
  · cases rest with
    | nil => rfl
    | cons p rest =>
        have hkind : p.kind = .comma := by simpa [endsLinks] using h
        simp [endsCompound, hkind]
  · rfl

theorem skipSpace_of_endsLinks (h : endsLinks rest = true) : Piece.skipSpace rest = rest := by
  cases rest with
  | nil => rfl
  | cons p rest =>
      have hkind : p.kind = .comma := by simpa [endsLinks] using h
      exact Piece.skipSpace_of_ne (by simp [hkind]) rest

/-- Nothing is linked to the space at the end of a chain. -/
theorem linksFrom_trail (b : Blank) (h : endsLinks rest = true) :
    linksFrom (b.tokens.map Piece.bare ++ rest) = ([], rest) := by
  rw [linksFrom_eq, skipSpace_blank, skipSpace_of_endsLinks h]
  cases rest with
  | nil => rfl
  | cons p rest =>
      have hkind : p.kind = .comma := by simpa [endsLinks] using h
      have hends : endsCompound (p :: rest) = true := by simp [endsCompound, hkind]
      have hstop := compoundFrom_of_endsCompound hends false
      cases decide ((p :: rest).length < (b.tokens.map Piece.bare ++ p :: rest).length) <;>
        simp [readCombinator?, hkind, hstop]

/-- The links are read from left to right. -/
theorem linksFrom_links {links : List Link} (h : ∀ l ∈ links, l.compound.IsPlain) (b : Blank)
    (hrest : endsLinks rest = true) :
    linksFrom ((links.flatMap Link.tokens ++ b.tokens).map Piece.bare ++ rest) = (links.map Link.part, rest) := by
  induction links with
  | nil => exact linksFrom_trail b hrest
  | cons l links ih =>
      have hl := h l List.mem_cons_self
      have hends : endsCompound ((links.flatMap Link.tokens ++ b.tokens).map Piece.bare ++ rest) = true := by
        cases links with
        | nil => exact endsCompound_trail b hrest
        | cons m links =>
            rw [List.flatMap_cons, List.append_assoc]
            exact endsCompound_joint m _ rest
      have hcons : ((l :: links).flatMap Link.tokens ++ b.tokens).map Piece.bare ++ rest
          = l.tokens.map Piece.bare ++ ((links.flatMap Link.tokens ++ b.tokens).map Piece.bare ++ rest) := by simp
      rw [hcons, linksFrom_eq, readCombinator?_joint l hl]
      dsimp only
      rw [hl.compoundFrom hends, if_neg hl.ne_nil, ih fun m hm => h m (List.mem_cons_of_mem l hm)]
      rfl

end Links

section Lists

variable {rest : List Piece}

/-- A chain is read as the complex selector that it stands for. -/
theorem Chain.IsPlain.complexFrom {c : Chain} (h : c.IsPlain) (hrest : endsLinks rest = true) :
    Selector.complexFrom ((c.first.tokens ++ c.restTokens).map Piece.bare ++ rest) = (some c.complex, rest) := by
  have hends : endsCompound (c.restTokens.map Piece.bare ++ rest) = true := by
    rw [Chain.restTokens]
    cases c.links with
    | nil => exact endsCompound_trail c.trail hrest
    | cons l links =>
        rw [List.flatMap_cons, List.append_assoc]
        exact endsCompound_joint l _ rest
  have hlinks := linksFrom_links h.link c.trail hrest
  rw [← Chain.restTokens] at hlinks
  rw [List.map_append, List.append_assoc, complexFrom_eq, h.first.compoundFrom hends, if_neg h.first.ne_nil, hlinks]
  rfl

theorem Chain.IsPlain.skipSpace {c : Chain} (h : c.IsPlain) (rest : List Piece) :
    Piece.skipSpace (c.tokens.map Piece.bare ++ rest) = (c.first.tokens ++ c.restTokens).map Piece.bare ++ rest := by
  obtain ⟨t, more, htokens, hkind⟩ := h.first.exists_token
  rw [Chain.tokens, List.map_append, List.append_assoc, skipSpace_blank, htokens]
  refine Piece.skipSpace_of_ne ?_ _
  show t.kind ≠ .whitespace
  rcases hkind with hk | hk | hk | hk | hk | hk <;> simp [hk]

theorem Chain.IsPlain.ne_nil {c : Chain} (h : c.IsPlain) (rest : List Piece) :
    (c.first.tokens ++ c.restTokens).map Piece.bare ++ rest ≠ [] := by
  obtain ⟨t, more, htokens, -⟩ := h.first.exists_token
  simp [htokens]

/-- A list of chains is read to its end. -/
theorem listFrom_tokensOfAll {chains : List Chain} (h : ∀ c ∈ chains, c.IsPlain) :
    listFrom (Piece.skipSpace ((tokensOfAll chains).map Piece.bare)) = (chains.map Chain.complex, []) := by
  fun_induction tokensOfAll chains with
  | case1 => exact listFrom_nil
  | case2 c =>
      have hc := h c List.mem_cons_self
      have hends : endsLinks [] = true := rfl
      have hskip := hc.skipSpace []
      have hcomplex := hc.complexFrom hends
      have hne := hc.ne_nil []
      rw [List.append_nil, List.append_nil] at hskip
      rw [List.append_nil] at hcomplex hne
      rw [hskip, listFrom_eq hne, hcomplex]
      rfl
  | case3 c d more ih =>
      have hc := h c List.mem_cons_self
      have hends : endsLinks ((Token.comma :: tokensOfAll (d :: more)).map Piece.bare) = true := rfl
      have hcomma : (Piece.bare Token.comma).kind = .comma := rfl
      rw [List.map_append, hc.skipSpace, listFrom_eq (hc.ne_nil _), hc.complexFrom hends, skipSpace_of_endsLinks hends,
        List.map_cons]
      dsimp only
      rw [if_pos hcomma, ih fun e he => h e (List.mem_cons_of_mem c he)]
      rfl

/-- No token is a comment. -/
def isUncommented (ts : List Token) : Bool := ts.all (·.kind != .comment)

theorem isUncommented_append (ts us : List Token) :
    isUncommented (ts ++ us) = (isUncommented ts && isUncommented us) := List.all_append

theorem Blank.isUncommented_tokens (b : Blank) : isUncommented b.tokens = true := by
  rw [Blank.tokens]
  split <;> rfl

theorem Simple.isUncommented_tokens (s : Simple) : isUncommented s.tokens = true := by
  match s with
  | .element _ | .universal | .id _ | .className _ | .pseudoClass _ _ | .pseudoElement _ true
  | .pseudoElement _ false => rfl
  | .attribute name test none => cases test <;> rfl
  | .attribute name test (some (.ident _)) | .attribute name test (some (.quoted _)) => cases test <;> rfl

theorem Compound.isUncommented_tokens (c : Compound) : isUncommented c.tokens = true := by
  induction c with
  | nil => rfl
  | cons s c ih =>
      rw [Compound.tokens] at ih
      rw [Compound.tokens, List.flatMap_cons, isUncommented_append, s.isUncommented_tokens, ih, Bool.and_self]

theorem Link.isUncommented_tokens (l : Link) : isUncommented l.tokens = true := by
  rw [Link.tokens, isUncommented_append, l.compound.isUncommented_tokens, Bool.and_true, Link.joint]
  split
  · exact Blank.isUncommented_tokens _
  · next c _ =>
      have hsign : isUncommented (Token.sign c :: l.after.tokens) = isUncommented l.after.tokens := rfl
      rw [isUncommented_append, hsign, Blank.isUncommented_tokens, Blank.isUncommented_tokens, Bool.and_self]

theorem Chain.isUncommented_tokens (c : Chain) : isUncommented c.tokens = true := by
  have hlinks : isUncommented (c.links.flatMap Link.tokens) = true := by
    induction c.links with
    | nil => rfl
    | cons l links ih =>
        rw [List.flatMap_cons, isUncommented_append, l.isUncommented_tokens, ih, Bool.and_self]
  simp [Chain.tokens, Chain.restTokens, isUncommented_append, Blank.isUncommented_tokens,
    Compound.isUncommented_tokens, hlinks]

theorem isUncommented_tokensOfAll (chains : List Chain) : isUncommented (tokensOfAll chains) = true := by
  fun_induction tokensOfAll chains with
  | case1 => rfl
  | case2 c => exact c.isUncommented_tokens
  | case3 c d more ih =>
      have hcomma : isUncommented (Token.comma :: tokensOfAll (d :: more))
          = isUncommented (tokensOfAll (d :: more)) := rfl
      rw [isUncommented_append, hcomma, c.isUncommented_tokens, ih, Bool.and_self]

/-- A written list is read to its end. -/
theorem readList_textOfAll {chains : List Chain} (h : ∀ c ∈ chains, c.IsPlain) :
    readList (textOfAll chains) = (chains.map Chain.complex, []) := by
  have huncommented : ∀ t ∈ tokensOfAll chains, t.kind ≠ .comment := fun t ht =>
    bne_iff_ne.mp (List.all_eq_true.mp (isUncommented_tokensOfAll chains) t ht)
  rw [readList, tokenize_textOfAll h, Piece.ofTokens_of_forall huncommented]
  exact listFrom_tokensOfAll h

end Lists

section Strength

namespace Simple

def isId : Simple → Bool
  | .id _ => true
  | _ => false

/-- Classes, attributes and pseudo-classes. The pseudo-class `where` does not count. -/
def isClassLike : Simple → Bool
  | .className _ | .attribute .. => true
  | .pseudoClass name _ => name != "where"
  | _ => false

/-- Types and pseudo-elements. -/
def isTypeLike : Simple → Bool
  | .element _ | .pseudoElement .. => true
  | _ => false

end Simple

/-- How many ids, classes and their like, and types and their like there are. -/
def strengthOf (simples : List Simple) : Specificity :=
  ⟨simples.countP Simple.isId, simples.countP Simple.isClassLike, simples.countP Simple.isTypeLike⟩

def Chain.simples (c : Chain) : List Simple := c.compounds.flatten

def Chain.strength (c : Chain) : Specificity := strengthOf c.simples

theorem Simple.IsPlain.specificityWith {s : Simple} (h : s.IsPlain) (inner : String → Except Fault Specificity) :
    s.specificityWith inner = .ok (strengthOf [s]) := by
  cases h with
  | @pseudoClass name h hlegacy => by_cases hwhere : name = "where" <;> simp [Simple.specificityWith, strengthOf,
      Simple.isId, Simple.isClassLike, Simple.isTypeLike, hwhere, Specificity.zero]
  | _ => rfl

theorem add_strengthOf (total : Specificity) (s : Simple) (simples : List Simple) :
    (total.add (strengthOf [s])).add (strengthOf simples) = total.add (strengthOf (s :: simples)) := by
  simp only [Specificity.add, strengthOf, List.countP_cons, List.countP_nil, Specificity.mk.injEq]
  omega

/-- The strength of simple selectors is the sum of what each of them counts. -/
theorem foldlM_specificityWith {simples : List Simple} (h : ∀ s ∈ simples, s.IsPlain)
    (inner : String → Except Fault Specificity) (total : Specificity) :
    simples.foldlM (fun total simple => do return total.add (← simple.specificityWith inner)) total
      = .ok (total.add (strengthOf simples)) := by
  induction simples generalizing total with
  | nil => rfl
  | cons s simples ih =>
      rw [List.foldlM_cons, (h s List.mem_cons_self).specificityWith inner]
      refine (ih (fun t ht => h t (List.mem_cons_of_mem s ht)) _).trans ?_
      rw [add_strengthOf]

theorem Chain.IsPlain.specificityWith {c : Chain} (h : c.IsPlain) (inner : String → Except Fault Specificity) :
    c.complex.specificityWith inner = .ok c.strength := by
  -- The parts are stored from right to left, which does not matter to a count.
  have hperm : (c.complex.parts.flatMap Part.compound).Perm c.simples := by
    have hparts : (⟨c.first, none⟩ :: c.links.map Link.part).flatMap Part.compound = c.simples := by
      simp [Chain.simples, Chain.compounds, List.flatMap, Link.part, Function.comp_def]
    rw [← hparts]
    exact (List.reverse_perm _).flatMap_right _
  have hplain : ∀ s ∈ c.complex.parts.flatMap Part.compound, s.IsPlain := by
    intro s hs
    obtain ⟨compound, hcompound, hs⟩ := List.mem_flatten.mp (hperm.mem_iff.mp hs)
    exact (h compound hcompound).simples s hs
  rw [Complex.specificityWith, foldlM_specificityWith hplain]
  simp only [Specificity.add, Specificity.zero, Chain.strength, strengthOf, Nat.zero_add, hperm.countP_eq]

end Strength

end Selector

namespace Specificity

/-- At most as strong: ids are compared first, then classes, then types. -/
def AtMost (s t : Specificity) : Prop :=
  s.ids < t.ids ∨ s.ids = t.ids ∧ (s.classes < t.classes ∨ s.classes = t.classes ∧ s.types ≤ t.types)

variable {s t u : Specificity}

theorem AtMost.refl : s.AtMost s := .inr ⟨rfl, .inr ⟨rfl, Nat.le_refl _⟩⟩

theorem AtMost.trans (hst : s.AtMost t) (htu : t.AtMost u) : s.AtMost u := by
  unfold AtMost at *
  omega

theorem eq_zero_of_atMost (h : s.AtMost zero) : s = zero := by
  obtain ⟨ids, classes, types⟩ := s
  simp only [AtMost, zero] at h
  obtain ⟨rfl, rfl, rfl⟩ : ids = 0 ∧ classes = 0 ∧ types = 0 := by omega
  rfl

theorem atMost_sup (s t : Specificity) : s.AtMost (s.sup t) ∧ t.AtMost (s.sup t) := by
  have hlt : s.lt t = true ↔ s.ids < t.ids ∨ s.ids = t.ids ∧ (s.classes < t.classes ∨ s.classes = t.classes
      ∧ s.types < t.types) := by simp [lt]
  rw [sup]
  split
  · next h =>
      refine ⟨?_, AtMost.refl⟩
      have h := hlt.mp h
      unfold AtMost
      omega
  · next h =>
      refine ⟨AtMost.refl, ?_⟩
      have h := mt hlt.mpr h
      unfold AtMost
      omega

theorem sup_eq_or (s t : Specificity) : s.sup t = s ∨ s.sup t = t := by
  rw [sup]
  split
  · exact .inr rfl
  · exact .inl rfl

/-- The strongest so far is the strongest in the end, or one of those to come is. -/
theorem foldl_sup (l : List Specificity) (s : Specificity) :
    (l.foldl sup s = s ∨ l.foldl sup s ∈ l) ∧ s.AtMost (l.foldl sup s) ∧ ∀ t ∈ l, t.AtMost (l.foldl sup s) := by
  induction l generalizing s with
  | nil => exact ⟨.inl rfl, AtMost.refl, by simp⟩
  | cons t l ih =>
      obtain ⟨hmem, hsup, hall⟩ := ih (s.sup t)
      rw [List.foldl_cons]
      refine ⟨?_, (atMost_sup s t).1.trans hsup, List.forall_mem_cons.mpr ⟨(atMost_sup s t).2.trans hsup, hall⟩⟩
      rcases hmem with hmem | hmem
      · rw [hmem]
        refine (sup_eq_or s t).imp id fun hright => ?_
        rw [hright]
        exact List.mem_cons_self
      · exact .inr (List.mem_cons_of_mem t hmem)

/-- The strongest of a list is one of its members. -/
theorem foldl_sup_mem {l : List Specificity} (hne : l ≠ []) : l.foldl sup zero ∈ l := by
  obtain ⟨hmem | hmem, -, hall⟩ := foldl_sup l zero
  · cases l with
    | nil => exact absurd rfl hne
    | cons t l =>
        have ht := hall t List.mem_cons_self
        rw [hmem] at ht ⊢
        rw [← eq_zero_of_atMost ht]
        exact List.mem_cons_self
  · exact hmem

end Specificity

namespace Selector

variable {chains : List Chain}

theorem isReadable_complex {c : Chain} (h : c.IsPlain) : c.complex.isReadable = true := by
  rw [Complex.isReadable, List.all_eq_true]
  intro part hpart
  rw [List.all_eq_true]
  intro s hs
  have hplain : s.IsPlain := by
    have hmem := List.mem_reverse.mp hpart
    rcases List.mem_cons.mp hmem with rfl | hmem
    · exact h.first.simples s hs
    · obtain ⟨l, hl, rfl⟩ := List.mem_map.mp hmem
      exact (h.link l hl).simples s hs
  cases hplain with
  | compared h htest hoperand =>
      show (Operand.content _).isOk = true
      rw [hoperand.content]
      rfl
  | _ => rfl

theorem parseList_textOfAll (h : ∀ c ∈ chains, c.IsPlain) :
    parseList (textOfAll chains) = .ok (chains.map Chain.complex) := by
  rw [parseList, readList_textOfAll h]
  refine if_pos (List.all_eq_true.mpr fun s hs => ?_)
  obtain ⟨c, hc, rfl⟩ := List.mem_map.mp hs
  exact isReadable_complex (h c hc)

theorem specificity_textOfAll (h : ∀ c ∈ chains, c.IsPlain) :
    specificity (textOfAll chains) = .ok ((chains.map Chain.strength).foldl Specificity.sup .zero) := by
  have hfold : ∀ (inner : String → Except Fault Specificity) (best : Specificity),
      (chains.map Chain.complex).foldlM (fun best s => do return best.sup (← s.specificityWith inner)) best
        = .ok ((chains.map Chain.strength).foldl Specificity.sup best) := by
    intro inner best
    induction chains generalizing best with
    | nil => rfl
    | cons c chains ih =>
        rw [List.map_cons, List.foldlM_cons, (h c List.mem_cons_self).specificityWith inner]
        exact ih (fun d hd => h d (List.mem_cons_of_mem c hd)) _
  rw [specificity, specificityWithin, parseList_textOfAll h]
  exact hfold _ _

/-- A selector list of the grammar is read as it was written, whatever white space there is around its commas and
combinators: each selector from right to left, each part with the combinator to its left, and every operand with
the value that it spells. It binds as strongly as the strongest of its selectors. -/
theorem parseList_written (hne : chains ≠ []) (h : ∀ c ∈ chains, c.IsPlain) :
    parseList (textOfAll chains) = .ok (chains.map Chain.complex)
      ∧ (∀ c ∈ chains, ∀ s ∈ c.simples, ∀ name test operand, s = .attribute name test (some operand) →
        ∃ value, operand.Spells value ∧ operand.content = .ok value)
      ∧ ∃ best ∈ chains, specificity (textOfAll chains) = .ok best.strength
        ∧ ∀ c ∈ chains, c.strength.AtMost best.strength := by
  refine ⟨parseList_textOfAll h, ?_, ?_⟩
  · rintro c hc s hs name test operand rfl
    obtain ⟨compound, hcompound, hs⟩ := List.mem_flatten.mp hs
    cases (h c hc compound hcompound).simples _ hs with
    | compared _ _ hoperand => exact ⟨_, hoperand, hoperand.content⟩
  · have hmem := Specificity.foldl_sup_mem (l := chains.map Chain.strength) (by simpa using hne)
    obtain ⟨best, hbest, hstrength⟩ := List.mem_map.mp hmem
    refine ⟨best, hbest, by rw [hstrength, specificity_textOfAll h], fun c hc => ?_⟩
    rw [hstrength]
    exact (Specificity.foldl_sup _ _).2.2 _ (List.mem_map_of_mem hc)

/-- Two selectors with all that the grammar has, and white space of every kind. -/
def sampleChains : List Chain :=
  [{ lead := ⟨"", List.all_eq_true.mp rfl⟩
     first := [.element "ul", .className "x1", .id "y"]
     links :=
      [{ before := ⟨" \n", List.all_eq_true.mp rfl⟩, combinator := .child, after := ⟨"", List.all_eq_true.mp rfl⟩
         compound :=
          [.universal, .attribute "href" .starts (some (.quoted "\"a b>\"")), .attribute "lang" .present none]
         spaced := by decide },
       { before := ⟨"\t", List.all_eq_true.mp rfl⟩, combinator := .descendant, after := ⟨" ", List.all_eq_true.mp rfl⟩
         compound := [.attribute "rel" .includes (some (.ident "next")), .pseudoClass "hover" none]
         spaced := by decide }]
     trail := ⟨"  ", List.all_eq_true.mp rfl⟩ },
   { lead := ⟨"\r\x0c", List.all_eq_true.mp rfl⟩
     first := [.pseudoClass "where" none, .pseudoElement "after" false]
     links :=
      [{ before := ⟨"", List.all_eq_true.mp rfl⟩, combinator := .nextSibling, after := ⟨"", List.all_eq_true.mp rfl⟩
         compound := [.className "z", .pseudoElement "selection" true]
         spaced := by decide }]
     trail := ⟨"", List.all_eq_true.mp rfl⟩ }]

theorem isPlain_sampleChains : ∀ c ∈ sampleChains, c.IsPlain := by
  have hvalue : ∀ c ∈ "a b>".toList, c ≠ '"' ∧ c ≠ '\\' ∧ c ≠ '\n' := by simp
  have hquoted : Operand.Spells (.quoted "\"a b>\"") "a b>" := .quoted hvalue
  have hident : Operand.Spells (.ident "next") "next" := .ident (by decide)
  simp only [sampleChains, List.forall_mem_cons, List.not_mem_nil, false_imp_iff, implies_true, and_true, Chain.IsPlain,
    Chain.compounds, List.map_cons, List.map_nil]
  refine ⟨⟨?_, ?_, ?_⟩, ?_, ?_⟩
  · refine ⟨by simp, ?_, by simp [Simple.isLeading]⟩
    simp only [List.forall_mem_cons, List.not_mem_nil, false_imp_iff, implies_true, and_true]
    exact ⟨.element (by decide), .className (by decide), .id (by decide)⟩
  · refine ⟨by simp, ?_, by simp [Simple.isLeading]⟩
    simp only [List.forall_mem_cons, List.not_mem_nil, false_imp_iff, implies_true, and_true]
    exact ⟨.universal, .compared (by decide) (by decide) hquoted, .present (by decide)⟩
  · refine ⟨by simp, ?_, by simp [Simple.isLeading]⟩
    simp only [List.forall_mem_cons, List.not_mem_nil, false_imp_iff, implies_true, and_true]
    exact ⟨.compared (by decide) (by decide) hident, .pseudoClass (by decide) (by decide)⟩
  · refine ⟨by simp, ?_, by simp [Simple.isLeading]⟩
    simp only [List.forall_mem_cons, List.not_mem_nil, false_imp_iff, implies_true, and_true]
    exact ⟨.pseudoClass (by decide) (by decide), .oldElement (.inr rfl)⟩
  · refine ⟨by simp, ?_, by simp [Simple.isLeading]⟩
    simp only [List.forall_mem_cons, List.not_mem_nil, false_imp_iff, implies_true, and_true]
    exact ⟨.className (by decide), .pseudoElement (by decide)⟩

theorem parseList_written_sample :
    textOfAll sampleChains
        = "ul.x1#y \n>*[href^=\"a b>\"][lang]\t [rel~=next]:hover  ,\r\x0c:where:after+.z::selection"
      ∧ sampleChains.map Chain.strength = [⟨1, 5, 1⟩, ⟨0, 1, 2⟩]
      ∧ parseList (textOfAll sampleChains) = .ok (sampleChains.map Chain.complex)
      ∧ ∃ best ∈ sampleChains, specificity (textOfAll sampleChains) = .ok best.strength
        ∧ ∀ c ∈ sampleChains, c.strength.AtMost best.strength := by
  have hne : sampleChains ≠ [] := by simp [sampleChains]
  have hwritten := parseList_written hne isPlain_sampleChains
  exact ⟨by decide +kernel, by decide +kernel, hwritten.1, hwritten.2.2⟩

end Selector

end CssMinify
