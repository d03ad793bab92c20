import CssMinify.Proofs.Codec.Words
import CssMinify.Proofs.Printing.Reading
import CssMinify.Proofs.Printing.Values

/-!
Declarations that read back. The name, with the sign of its hack, the colon, the value and the importance fall
apart again, and each is recognized for what it is.
-/

namespace CssMinify

open Lexer

theorem Text.toLower_of_isDigit {c : Char} (h : c.isDigit = true) : c.toLower = c := by
  simp only [Char.isDigit, Bool.and_eq_true, decide_eq_true_eq] at h
  have hhigh : c.toNat ≤ 57 := h.2
  exact toLower_eq_self (by omega)

namespace TokenKind

/-- Neither a group nor a block starts or ends here, nor does a semicolon stand here. -/
def isLevel : TokenKind → Bool
  | openBrace | closeBrace | semicolon => false
  | kind => !kind.opensGroup && !kind.closesGroup

theorem isLevel_of_isInline {kind : TokenKind} (h : kind.isInline = true) : kind.isLevel = true := by
  cases kind <;> first | rfl | cases h

end TokenKind

namespace Parser

variable {ts : List Token} (h : ∀ t ∈ ts, t.kind.isLevel = true)

include h

theorem depthAfter_of_isLevel {t : Token} (ht : t ∈ ts) (depth : Nat) : depthAfter depth t.kind = depth := by
  have hlevel := h t ht
  rw [depthAfter]
  cases hkind : t.kind <;> first | rfl | (rw [hkind] at hlevel; cases hlevel)

theorem isClosedHead_of_isLevel : IsClosedHead ts := by
  rw [IsClosedHead]
  induction ts with
  | nil => rfl
  | cons t ts ih =>
      have hends : endsHead t.kind = false := by
        have hlevel := h t List.mem_cons_self
        cases hkind : t.kind <;> first | rfl | (rw [hkind] at hlevel; cases hlevel)
      rw [List.cons_append, spanHead, hends, depthAfter_of_isLevel h List.mem_cons_self,
        ih fun u hu => h u (List.mem_cons_of_mem t hu)]
      rfl

/-- Such tokens are an item when what follows ends one. -/
theorem spanItem_of_isLevel (custom : Bool) {rest : List Token} (hrest : spanItem custom 0 false rest = ⟨[], false, rest⟩) :
    spanItem custom 0 false (ts ++ rest) = ⟨ts, false, rest⟩ := by
  induction ts with
  | nil => exact hrest
  | cons t ts ih =>
      have hlevel := h t List.mem_cons_self
      have hkind : t.kind ≠ .semicolon ∧ t.kind ≠ .closeBrace ∧ t.kind ≠ .openBrace := by
        refine ⟨?_, ?_, ?_⟩ <;> intro hk <;> rw [hk] at hlevel <;> cases hlevel
      have hbrace : (t.kind == .openBrace) = false := by simp [hkind]
      have hih := ih fun u hu => h u (List.mem_cons_of_mem t hu)
      rw [List.cons_append, spanItem]
      simp [hkind, hbrace, depthAfter_of_isLevel h List.mem_cons_self, hih]

end Parser

/-- The digits of a suffix. -/
def Hack.suffix? : Hack → Option String
  | .suffix digits => some digits
  | .none | .underscore | .star => Option.none

namespace Token

def colon : Token := ⟨.colon, ":"⟩

/-- The importance of a declaration, if it has one. -/
def importance (important : Bool) : List Token :=
  if important then [⟨.delim '!', "!"⟩, ⟨.ident, "important"⟩] else []

end Token

namespace Declaration

/-- Lower case letters, digits and dashes, the first of which is a letter. -/
inductive IsPlainName : List Char → Prop
  | intro {c : Char} {cs : List Char} (hc : c.isLower = true)
      (hcs : ∀ d ∈ cs, d.isLower = true ∨ d.isDigit = true ∨ d = '-') : IsPlainName (c :: cs)

/-- A declaration with a plain name and a plain value. Its suffix, if it has one, is one or two digits. -/
structure IsPlain (d : Declaration) : Prop where
  name : IsPlainName d.name.toList
  value_ne_nil : d.value ≠ []
  value : d.value.IsPlain
  suffix : ∀ digits, d.hack = .suffix digits → IsSuffix ("\\" ++ digits).toList

/-- The value with the suffix of the hack. -/
def printedValue (d : Declaration) : Value :=
  match d.hack with
  | .suffix digits => Value.withSuffix digits d.value
  | _ => d.value

def nameTokens (d : Declaration) : List Token :=
  match d.hack with
  | .underscore => [⟨.ident, "_" ++ d.name⟩]
  | .star => [⟨.delim '*', "*"⟩, ⟨.ident, d.name⟩]
  | .none | .suffix _ => [⟨.ident, d.name⟩]

/-- The tokens of a declaration as it is printed. -/
def tokens (d : Declaration) : List Token :=
  d.nameTokens ++ (Token.colon :: (d.printedValue.tokens ++ Token.importance d.important))

section Tokens

variable {d : Declaration} (h : d.IsPlain)

include h

theorem chars_tokens : chars d.tokens = d.print.toList := by
  have hvalue : (Value.print d.printedValue).toList
      = (Value.print d.value).toList ++ (match d.hack with
          | .suffix digits => '\\' :: digits.toList
          | _ => []) := by
    rw [printedValue]
    cases hhack : d.hack with
    | suffix digits => simp [Value.print_withSuffix digits h.value_ne_nil]
    | none | underscore | star => simp
  have himportant : chars (Token.importance d.important) = (if d.important then "!important" else "").toList := by
    cases d.important <;> rfl
  have hcolon : chars (Token.colon :: (d.printedValue.tokens ++ Token.importance d.important))
      = ':' :: ((Value.print d.printedValue).toList ++ chars (Token.importance d.important)) := by
    rw [← Value.chars_tokens, ← chars_append]
    rfl
  rw [tokens, chars_append, hcolon, hvalue, himportant, print, nameTokens]
  cases hhack : d.hack <;> simp [chars]

theorem isSolid_printedValue : d.printedValue.IsSolid := by
  rw [printedValue]
  cases hhack : d.hack with
  | suffix digits => exact h.value.isSolid_withSuffix (h.suffix digits hhack)
  | none | underscore | star => exact h.value.isSolid

theorem printedValue_ne_nil : d.printedValue ≠ [] := by
  rw [printedValue]
  cases hhack : d.hack with
  | suffix digits => exact Value.withSuffix_ne_nil digits d.value
  | none | underscore | star => exact h.value_ne_nil

theorem isName_name : IsName d.name.toList := by
  have hname := h.name
  cases hchars : d.name.toList with
  | nil =>
      rw [hchars] at hname
      cases hname
  | cons c cs =>
      rw [hchars] at hname
      obtain ⟨hc, hcs⟩ := hname
      refine ⟨startsName_of_isLower hc, fun d hd => ?_⟩
      rcases hcs d hd with hd | hd | rfl
      · simp [continuesName, startsName_of_isLower hd]
      · simp [continuesName, hd]
      · rfl

theorem isName_underscore : IsName ("_" ++ d.name).toList := by
  have hname := isName_name h
  rw [String.toList_append]
  cases hchars : d.name.toList with
  | nil => exact ⟨rfl, by simp⟩
  | cons c cs =>
      rw [hchars] at hname
      obtain ⟨hc, hcs⟩ := hname
      exact ⟨rfl, List.forall_mem_cons.mpr ⟨by simp [continuesName, hc], hcs⟩⟩

theorem stands_nameTokens {rest : List Char} (hrest : rest.head?.all endsName = true) :
    Stands d.nameTokens rest := by
  rw [nameTokens]
  split
  · exact stands_name (isName_underscore h) hrest
  · exact Stands.cons (stands_single (c := '*') rfl rfl) (stands_name (isName_name h) hrest)
  · exact stands_name (isName_name h) hrest
  · exact stands_name (isName_name h) hrest

omit h in
theorem apart_importance (important : Bool) : Apart [';', '\x7d'] (Token.importance important) := by
  intro rest hrest
  cases important with
  | false => exact Stands.nil
  | true =>
      refine Stands.cons (stands_single (c := '!') rfl rfl) (stands_name ?_ (all_of_stops hrest (by decide)))
      exact ⟨rfl, List.all_eq_true.mp rfl⟩

/-- A declaration reads back in front of a semicolon or a closing brace. -/
theorem apart_tokens : Apart [';', '\x7d'] d.tokens := by
  intro rest hrest
  rw [tokens]
  refine Stands.append (stands_nameTokens h rfl) (Stands.cons (stands_single (c := ':') rfl rfl) ?_)
  refine Stands.append (Value.stands_tokens ?_ (isSolid_printedValue h)) (apart_importance d.important rest hrest)
  cases d.important with
  | false => exact all_of_stops hrest (by decide)
  | true => rfl

theorem tokenize_print : tokenize d.print = d.tokens :=
  (apart_tokens h).tokenize_eq (chars_tokens h).symm

end Tokens

section Importance

theorem mem_of_mem_trimEnds {α : Type} {p : α → Bool} {l : List α} {a : α} (h : a ∈ trimEnds p l) : a ∈ l := by
  rw [trimEnds, List.mem_reverse] at h
  have hrev := (List.dropWhile_sublist _).subset h
  exact (List.dropWhile_sublist _).subset (List.mem_reverse.mp hrev)

/-- Without an exclamation mark there is no importance. -/
theorem splitImportant_unmarked {ts : List Token} (h : ∀ t ∈ ts, t.kind ≠ .delim '!') : splitImportant ts = (ts, false) := by
  have hmark : (trimEnds Token.isTrivia (trimEnds Token.isTrivia ts).dropLast).getLast?.any (·.kind == .delim '!')
      = false := by
    cases hlast : (trimEnds Token.isTrivia (trimEnds Token.isTrivia ts).dropLast).getLast? with
    | none => rfl
    | some t =>
        have hmem := mem_of_mem_trimEnds (List.mem_of_getLast? hlast)
        rw [Option.any_some, beq_eq_false_iff_ne]
        exact h t (mem_of_mem_trimEnds (List.dropLast_subset _ hmem))
  rw [splitImportant, hmark, Bool.and_false]
  rfl

/-- The importance behind other tokens is found. -/
theorem splitImportant_marked {ts : List Token} (hne : ts ≠ []) (hfirst : ∀ t ∈ ts.head?, t.isTrivia = false) :
    splitImportant (ts ++ Token.importance true) = (ts, true) := by
  have hhead : ∀ more, ∀ u ∈ (ts ++ more).head?, u.isTrivia = false := by
    obtain ⟨t, ts, rfl⟩ := List.exists_cons_of_ne_nil hne
    exact fun _ => hfirst
  have hmarked : trimEnds Token.isTrivia (ts ++ Token.importance true) = ts ++ Token.importance true :=
    Value.trimEnds_eq_self (hhead _) (by simp [Token.importance, Token.isTrivia, TokenKind.isTrivia])
  have hbefore : trimEnds Token.isTrivia (ts ++ [⟨.delim '!', "!"⟩]) = ts ++ [⟨.delim '!', "!"⟩] :=
    Value.trimEnds_eq_self (hhead _) (by simp [Token.isTrivia, TokenKind.isTrivia])
  have hdrop : (ts ++ Token.importance true).dropLast = ts ++ [⟨.delim '!', "!"⟩] := by
    rw [List.dropLast_append_of_ne_nil (by simp [Token.importance])]
    rfl
  rw [splitImportant, hmarked, hdrop, hbefore]
  simp [Token.importance, Text.sameFolded_self]

variable {value : Value} (h : value.IsSolid)

include h

theorem trimEnds_tokens : trimEnds Token.isTrivia value.tokens = value.tokens :=
  Value.trimEnds_eq_self (Value.isTrivia_head? h) (by
    rw [Value.tokens_eq]
    exact Value.isTrivia_getLast? h)

/-- Nothing in a value marks an importance. -/
theorem splitImportant_tokens : splitImportant value.tokens = (value.tokens, false) := by
  refine splitImportant_unmarked fun t ht hkind => ?_
  rw [Value.tokens_eq] at ht
  have hinline := Value.isInline_of_mem h t ht
  rw [hkind] at hinline
  cases hinline

/-- The importance after a value is found. -/
theorem splitImportant_importance (hne : value ≠ []) :
    splitImportant (value.tokens ++ Token.importance true) = (value.tokens, true) :=
  splitImportant_marked (Value.tokens_ne_nil h hne) (Value.isTrivia_head? h)

end Importance

section Names

theorem readName_starred (text : String) :
    readName true text = (if isCustomName text then text else Text.lower text, .star) := rfl

theorem readName_underscored {text : String} {c : Char} {cs : List Char} (h : text.toList = '_' :: c :: cs) :
    readName false text
      = (if isCustomName (String.ofList (c :: cs)) then String.ofList (c :: cs)
          else Text.lower (String.ofList (c :: cs)), .underscore) := by
  unfold readName
  simp only [h]

variable {d : Declaration} (h : d.IsPlain)

include h

theorem lower_name : Text.lower d.name = d.name := by
  have hname := h.name
  rw [← String.toList_inj, Text.lower, String.toList_ofList]
  conv_rhs => rw [← List.map_id d.name.toList]
  refine List.map_congr_left fun c hc => ?_
  have hchar : c.isLower = true ∨ c.isDigit = true ∨ c = '-' := by
    cases hchars : d.name.toList with
    | nil =>
        rw [hchars] at hc
        cases hc
    | cons a as =>
        rw [hchars] at hname hc
        obtain ⟨ha, has⟩ := hname
        rcases List.mem_cons.mp hc with rfl | hc
        · exact .inl ha
        · exact has c hc
  rcases hchar with hc | hc | rfl
  · exact Text.toLower_of_isLower hc
  · exact Text.toLower_of_isDigit hc
  · rfl

theorem exists_toList_name : ∃ (c : Char) (cs : List Char), d.name.toList = c :: cs ∧ c ≠ '-' ∧ c ≠ '_' := by
  have hname := h.name
  cases hchars : d.name.toList with
  | nil =>
      rw [hchars] at hname
      cases hname
  | cons c cs =>
      rw [hchars] at hname
      obtain ⟨hc, -⟩ := hname
      refine ⟨c, cs, rfl, ?_, ?_⟩ <;> rintro rfl <;> cases hc

theorem not_isCustomName_name : isCustomName d.name = false := by
  obtain ⟨c, cs, hchars, hdash, -⟩ := exists_toList_name h
  have hdashes : "--".toList = ['-', '-'] := rfl
  rw [isCustomName, Text.startsWith, hchars, hdashes, List.isPrefixOf_cons_cons]
  simp [hdash.symm]

theorem readName_star : readName true d.name = (d.name, .star) := by
  rw [readName_starred, not_isCustomName_name h, if_neg Bool.false_ne_true, lower_name h]

theorem readName_underscore : readName false ("_" ++ d.name) = (d.name, .underscore) := by
  obtain ⟨c, cs, hchars, -, -⟩ := exists_toList_name h
  have hname : String.ofList (c :: cs) = d.name := by rw [← hchars, String.ofList_toList]
  have hunderscore : ("_" ++ d.name).toList = '_' :: c :: cs := by rw [String.toList_append, hchars]; rfl
  rw [readName_underscored hunderscore, hname, not_isCustomName_name h, if_neg Bool.false_ne_true, lower_name h]

theorem readName_plain : readName false d.name = (d.name, .none) := by
  obtain ⟨c, cs, hchars, -, hc⟩ := exists_toList_name h
  unfold readName
  rw [hchars]
  split
  next heq =>
  split at heq
  · next hstar => cases hstar
  · next hcons => exact absurd (List.cons.inj hcons).1 hc
  · obtain ⟨rfl, rfl⟩ := Prod.mk.inj heq
    rw [not_isCustomName_name h, lower_name h]
    rfl

theorem takeSuffix_printedValue : Value.takeSuffix d.printedValue = (d.value, d.hack.suffix?) := by
  have hnone := Value.takeSuffix_eq_none (Value.escape_not_mem_of_isPlain h.value)
  rw [printedValue]
  cases hhack : d.hack with
  | suffix digits =>
      exact Value.takeSuffix_withSuffix (h.suffix digits hhack) h.value_ne_nil (Value.ne_empty_of_isPlain h.value)
  | none | underscore | star => exact hnone

/-- What follows the colon is read as it was printed. -/
theorem readAfterColon_tokens {hack : Hack} (hhack : (d.hack.suffix?.map Hack.suffix).getD hack = d.hack) :
    readAfterColon d.name hack (d.printedValue.tokens ++ Token.importance d.important) = some d := by
  have hsolid := isSolid_printedValue h
  have hsplit : splitImportant (d.printedValue.tokens ++ Token.importance d.important)
      = (d.printedValue.tokens, d.important) := by
    cases d.important with
    | false =>
        rw [Token.importance, if_neg (by simp), List.append_nil]
        exact splitImportant_tokens hsolid
    | true => exact splitImportant_importance hsolid (printedValue_ne_nil h)
  have hvalue : readValue (isCustomName d.name) d.printedValue.tokens = d.printedValue := by
    rw [readValue, not_isCustomName_name h]
    exact Value.ofTokens_tokens hsolid
  rw [readAfterColon, hsplit]
  simp only [trimEnds_tokens hsolid, hvalue, takeSuffix_printedValue h, hhack]
  simp [h.value_ne_nil]

omit h in
theorem readFromName_colon {starred : Bool} {text name : String} {hack : Hack} (more : List Token)
    (hname : readName starred text = (name, hack)) :
    readFromName starred (⟨.ident, text⟩ :: Token.colon :: more) = readAfterColon name hack more := by
  simp only [readFromName, hname]
  rfl

omit h in
theorem ofTokens?_ident (text : String) (more : List Token) :
    ofTokens? (⟨.ident, text⟩ :: more) = readFromName false (⟨.ident, text⟩ :: more) := rfl

omit h in
theorem ofTokens?_star (more : List Token) : ofTokens? (⟨.delim '*', "*"⟩ :: more) = readFromName true more := rfl

/-- A plain declaration is read from its tokens. -/
theorem ofTokens?_tokens : ofTokens? d.tokens = some d := by
  rw [tokens, nameTokens]
  cases hhack : d.hack with
  | none =>
      rw [List.singleton_append, ofTokens?_ident, readFromName_colon _ (readName_plain h)]
      exact readAfterColon_tokens h (by rw [hhack]; rfl)
  | underscore =>
      rw [List.singleton_append, ofTokens?_ident, readFromName_colon _ (readName_underscore h)]
      exact readAfterColon_tokens h (by rw [hhack]; rfl)
  | star =>
      rw [List.cons_append, List.singleton_append, ofTokens?_star, readFromName_colon _ (readName_star h)]
      exact readAfterColon_tokens h (by rw [hhack]; rfl)
  | suffix digits =>
      rw [List.singleton_append, ofTokens?_ident, readFromName_colon _ (readName_plain h)]
      exact readAfterColon_tokens h (by rw [hhack]; rfl)

end Names

section Items

variable {d : Declaration} (h : d.IsPlain)

include h

theorem isLevel_of_mem_tokens : ∀ t ∈ d.tokens, t.kind.isLevel = true := by
  intro t ht
  rw [tokens, List.mem_append, List.mem_cons, List.mem_append] at ht
  rcases ht with ht | rfl | ht | ht
  · rw [nameTokens] at ht
    split at ht <;> simp only [List.mem_cons, List.not_mem_nil, or_false] at ht
    · rw [ht]
      rfl
    · rcases ht with rfl | rfl <;> rfl
    · rw [ht]
      rfl
    · rw [ht]
      rfl
  · rfl
  · rw [Value.tokens_eq] at ht
    exact TokenKind.isLevel_of_isInline (Value.isInline_of_mem (isSolid_printedValue h) t ht)
  · rw [Token.importance] at ht
    split at ht <;> simp only [List.mem_cons, List.not_mem_nil, or_false] at ht
    rcases ht with rfl | rfl <;> rfl

/-- A plain declaration reads back by itself. -/
theorem reads : (Rule.Item.declaration d).Reads := by
  rw [Rule.Item.Reads, tokenize_print h]
  refine ⟨apart_tokens h, ⟨?_, Parser.spanItem_of_isLevel (isLevel_of_mem_tokens h) _ rfl⟩, ofTokens?_tokens h⟩
  rw [tokens, nameTokens]
  split <;> rfl

end Items

end Declaration

end CssMinify
