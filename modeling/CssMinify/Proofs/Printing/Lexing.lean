import CssMinify.Token.Lexer
import CssMinify.Proofs.Codec.Layer
import Mathlib.Data.List.TakeDrop
import Mathlib.Data.List.TakeWhile

/-!
Tokens that stand apart. A token that is written in front of other text is read again if it ends where that
text starts: what a name, a number or a string would go on with must not follow it. The words of a value and
the names of selectors are of this kind, also with a suffix of a backslash and digits at the end.
-/

namespace CssMinify

def Token.space : Token := ⟨.whitespace, " "⟩

namespace Lexer

/-- The characters of tokens. -/
def chars (ts : List Token) : List Char := ts.flatMap (·.text.toList)

theorem chars_append (ts us : List Token) : chars (ts ++ us) = chars ts ++ chars us := List.flatMap_append

/-- These tokens are read from their own text, when `rest` follows. -/
def Stands (ts : List Token) (rest : List Char) : Prop := tokens (chars ts ++ rest) = ts ++ tokens rest

namespace Stands

variable {ts us : List Token} {rest : List Char}

theorem nil : Stands [] rest := rfl

theorem append (hts : Stands ts (chars us ++ rest)) (hus : Stands us rest) : Stands (ts ++ us) rest := by
  rw [Stands, chars, List.flatMap_append, List.append_assoc, List.append_assoc]
  exact hts.trans (congrArg (ts ++ ·) hus)

theorem cons {t : Token} (ht : Stands [t] (chars ts ++ rest)) (hts : Stands ts rest) : Stands (t :: ts) rest :=
  append ht hts

theorem tokenize_eq {s : String} (hs : s.toList = chars ts) (h : Stands ts []) : tokenize s = ts := by
  have hnil : tokens [] = [] := by rw [tokens]
  rw [Stands, List.append_nil, hnil, List.append_nil] at h
  rw [tokenize, hs, h]

end Stands

/-- These tokens are read from their own text, when it ends there or goes on with one of `stops`. -/
def Apart (stops : List Char) (ts : List Token) : Prop :=
  ∀ rest : List Char, rest.head?.all stops.contains = true → Stands ts rest

namespace Apart

variable {stops : List Char} {ts : List Token}

theorem tokenize_eq (h : Apart stops ts) {s : String} (hs : s.toList = chars ts) : tokenize s = ts :=
  (h [] rfl).tokenize_eq hs

theorem mono {fewer : List Char} (h : Apart stops ts) (hsub : fewer.all stops.contains = true) : Apart fewer ts := by
  intro rest hrest
  apply h
  cases rest with
  | nil => rfl
  | cons c rest =>
      have hc : c ∈ fewer := by simpa using hrest
      simpa using List.all_eq_true.mp hsub c hc

end Apart

/-- What holds of all stops holds of what follows. -/
theorem all_of_stops {stops rest : List Char} {p : Char → Bool} (hrest : rest.head?.all stops.contains = true)
    (hp : stops.all p = true) : rest.head?.all p = true := by
  cases rest with
  | nil => rfl
  | cons c rest =>
      have hc : c ∈ stops := by simpa using hrest
      exact List.all_eq_true.mp hp c hc

theorem chars_tokenize (s : String) : chars (tokenize s) = s.toList := flatMap_tokens s.toList

/-- A token stands if its extent is the length of its text. -/
theorem stands_of_extent {t : Token} {c : Char} {cs rest : List Char} (htext : t.text.toList = c :: cs)
    (h : extent c (cs ++ rest) = (t.kind, 1 + cs.length)) : Stands [t] rest := by
  have htoken : (⟨t.kind, String.ofList (c :: cs)⟩ : Token) = t := by
    rw [← htext, String.ofList_toList]
  have hlength : 1 + cs.length - 1 = cs.length := by omega
  rw [Stands, chars, List.flatMap_singleton, htext, List.cons_append, tokens, h]
  simp only [hlength, List.take_left, List.drop_left, htoken, List.cons_append, List.nil_append]

/-- A token of one character. -/
theorem stands_single {t : Token} {c : Char} {rest : List Char} (htext : t.text.toList = [c])
    (h : extent c rest = (t.kind, 1)) : Stands [t] rest :=
  stands_of_extent htext h

theorem stands_space {rest : List Char} (h : rest.head?.any isSpace = false) : Stands [Token.space] rest := by
  refine stands_single (c := ' ') rfl ?_
  have hextent : extent ' ' rest = (.whitespace, (List.takeWhile isSpace (' ' :: rest)).length) := rfl
  have hnone : rest.takeWhile isSpace = [] := by
    cases rest with
    | nil => rfl
    | cons c rest => exact List.takeWhile_cons_of_neg (by simpa using h)
  rw [hextent, List.takeWhile_cons_of_pos rfl, hnone]
  rfl

section Names

variable {c : Char} {cs rest : List Char}

theorem nameLength_append (hcs : ∀ c ∈ cs, continuesName c = true) :
    nameLength (cs ++ rest) = cs.length + nameLength rest := by
  induction cs with
  | nil => simp
  | cons c cs ih =>
      rw [List.cons_append, nameLength, if_pos (hcs c List.mem_cons_self),
        ih fun d hd => hcs d (List.mem_cons_of_mem c hd), List.length_cons]
      omega

/-- A character that no name goes on with, and that is no parenthesis of a function. -/
def endsName (c : Char) : Bool := !continuesName c && c != '\\' && c != '('

theorem nameLength_of_endsName (h : rest.head?.all endsName = true) : nameLength rest = 0 := by
  cases rest with
  | nil => rw [nameLength]
  | cons c rest =>
      simp only [endsName, List.head?_cons, Option.all_some, Bool.and_eq_true, Bool.not_eq_true', bne_iff_ne,
        ne_eq] at h
      have hescape : startsEscape (c :: rest) = false := by
        rw [startsEscape]
        intro d more heq
        exact h.1.2 (List.cons.inj heq).1
      rw [nameLength, if_neg (by simp [h.1.1]), if_neg (by simp [hescape])]

theorem isDigit_of_startsName (h : startsName c = true) : c.isDigit = false := by
  rw [Bool.eq_false_iff]
  intro hdigit
  simp only [Char.isDigit, Bool.and_eq_true, decide_eq_true_eq] at hdigit
  have hlow : 48 ≤ c.toNat := hdigit.1
  have hhigh : c.toNat ≤ 57 := hdigit.2
  simp only [startsName, Text.isAscii, Bool.or_eq_true, beq_iff_eq, Bool.not_eq_true', decide_eq_false_iff_not] at h
  rcases h with (h | rfl) | h
  · have halpha := Text.toNat_of_isAlpha h
    omega
  · revert hhigh
    decide
  · omega

theorem ne_of_startsName {d : Char} (h : startsName c = true) (hd : startsName d = false) : c ≠ d := by
  rintro rfl
  rw [hd] at h
  cases h

theorem not_isSpace_of_startsName (h : startsName c = true) : isSpace c = false := by
  simp only [isSpace, Bool.or_eq_false_iff, beq_eq_false_iff_ne]
  exact ⟨⟨⟨⟨ne_of_startsName h rfl, ne_of_startsName h rfl⟩, ne_of_startsName h rfl⟩, ne_of_startsName h rfl⟩,
    ne_of_startsName h rfl⟩

theorem startsIdent_of_startsName (h : startsName c = true) : startsIdent (c :: cs) = true := by
  rw [startsIdent, h, Bool.true_or]
  rintro rfl
  cases h

/-- Where a name starts, nothing else does. -/
theorem extent_of_startsName (h : startsName c = true) : extent c cs = identLike (c :: cs) := by
  have hspace : isSpace c = false := not_isSpace_of_startsName h
  have hnumber : startsNumber (c :: cs) = false := by
    have hfraction : startsFraction (c :: cs) = false := by
      rw [startsFraction]
      intro rest heq
      exact ne_of_startsName h rfl (List.cons.inj heq).1
    simp [startsNumber, ne_of_startsName h (d := '+') rfl, ne_of_startsName h (d := '-') rfl,
      isDigit_of_startsName h, hfraction]
  have hident : startsIdent (c :: cs) = true := startsIdent_of_startsName h
  have hslash := ne_of_startsName h (d := '/') rfl
  have hdouble := ne_of_startsName h (d := '"') rfl
  have hsingle := ne_of_startsName h (d := '\'') rfl
  have hhash := ne_of_startsName h (d := '#') rfl
  have hat := ne_of_startsName h (d := '@') rfl
  have hdash := ne_of_startsName h (d := '-') rfl
  have hless := ne_of_startsName h (d := '<') rfl
  simp [extent, hslash, hspace, isQuote, hdouble, hsingle, hhash, hnumber, hat, hdash.symm, hless.symm, hident]

theorem identLike_append (hcs : ∀ d ∈ cs, continuesName d = true) {tail : List Char}
    (htail : nameLength (tail ++ rest) = tail.length) (hrest : rest.head? ≠ some '(') :
    identLike (cs ++ (tail ++ rest)) = (.ident, cs.length + tail.length) := by
  have hdrop : (cs ++ (tail ++ rest)).drop (cs.length + tail.length) = rest := by
    rw [← List.append_assoc, ← List.length_append, List.drop_left]
  simp only [identLike, nameLength_append hcs, htail, hdrop]
  cases rest with
  | nil => rfl
  | cons c rest =>
      split
      · next heq =>
          refine absurd ?_ hrest
          rw [(List.cons.inj heq).1]
          rfl
      · rfl

/-- A character that may start a name, and characters that it may go on with. -/
inductive IsName : List Char → Prop
  | intro {c : Char} {cs : List Char} (hc : startsName c = true) (hcs : ∀ d ∈ cs, continuesName d = true) :
      IsName (c :: cs)

theorem extent_name (hc : startsName c = true) (hcs : ∀ d ∈ cs, continuesName d = true) {tail : List Char}
    (htail : nameLength (tail ++ rest) = tail.length) (hrest : rest.head? ≠ some '(') :
    extent c (cs ++ tail ++ rest) = (.ident, 1 + (cs ++ tail).length) := by
  have hall : ∀ d ∈ c :: cs, continuesName d = true :=
    List.forall_mem_cons.mpr ⟨by simp [continuesName, hc], hcs⟩
  rw [extent_of_startsName hc, List.append_assoc, ← List.cons_append, identLike_append hall htail hrest,
    List.length_append, List.length_cons]
  congr 1
  omega

theorem extent_hash {d : Char} {ds tail : List Char} (hds : ∀ c ∈ d :: ds, continuesName c = true)
    (htail : nameLength (tail ++ rest) = tail.length) :
    extent '#' (d :: ds ++ tail ++ rest) = (.hash, 1 + (d :: ds ++ tail).length) := by
  have hlength : nameLength (d :: ds ++ tail ++ rest) = (d :: ds ++ tail).length := by
    rw [List.append_assoc, nameLength_append hds, htail, List.length_append]
  have hstarts : (d :: ds ++ tail ++ rest).head?.any continuesName = true := hds d List.mem_cons_self
  simp only [extent, hstarts, hlength]
  rfl

theorem ne_parenthesis_of_endsName (h : rest.head?.all endsName = true) : rest.head? ≠ some '(' := by
  intro heq
  rw [heq] at h
  cases h

/-- A name reads back where none goes on. -/
theorem stands_name {s : String} (hs : IsName s.toList) (hrest : rest.head?.all endsName = true) :
    Stands [⟨.ident, s⟩] rest := by
  cases hchars : s.toList with
  | nil =>
      rw [hchars] at hs
      cases hs
  | cons c cs =>
      rw [hchars] at hs
      obtain ⟨hc, hcs⟩ := hs
      have hlength : nameLength ([] ++ rest) = ([] : List Char).length := nameLength_of_endsName hrest
      have hextent := extent_name hc hcs hlength (ne_parenthesis_of_endsName hrest)
      rw [List.append_nil] at hextent
      exact stands_of_extent hchars hextent

end Names

end Lexer

end CssMinify
