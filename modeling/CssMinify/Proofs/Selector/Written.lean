import CssMinify.Proofs.Printing.Selectors
import CssMinify.Selector.Specificity

/-!
Selector lists as they are written. A chain holds the compounds of a complex selector from left to right, with
the combinators and the white space between them; the grammar says which simple selectors a compound may be made
of. The text of a list of chains falls into the tokens that it was written with: a name ends where the next
simple selector, a space or a sign starts, and no number starts at a plus.
-/

namespace CssMinify

open Lexer

namespace Token

/-- The token of a single character that means nothing to the lexer. -/
def sign (c : Char) : Token := ⟨.delim c, String.singleton c⟩

def openBracket : Token := ⟨.openBracket, "["⟩

def closeBracket : Token := ⟨.closeBracket, "]"⟩

end Token

namespace Selector

/-- A lower case letter, and lower case letters and digits after it. -/
def isIdentifier (name : String) : Bool :=
  match name.toList with
  | c :: cs => c.isLower && cs.all fun d => d.isLower || d.isDigit
  | [] => false

theorem isName_of_isIdentifier {name : String} (h : isIdentifier name = true) : IsName name.toList := by
  rw [isIdentifier] at h
  split at h
  · next c cs heq =>
      simp only [Bool.and_eq_true, List.all_eq_true, Bool.or_eq_true] at h
      rw [heq]
      refine IsName.intro (startsName_of_isLower h.1) fun d hd => continuesName_of_isAlphanum ?_
      rcases h.2 d hd with hlower | hdigit
      · show (d.isUpper || d.isLower || d.isDigit) = true
        simp [hlower]
      · simp [Char.isAlphanum, hdigit]
  · cases h

theorem lower_of_isIdentifier {name : String} (h : isIdentifier name = true) : Text.lower name = name := by
  rw [isIdentifier] at h
  split at h
  · next c cs heq =>
      simp only [Bool.and_eq_true, List.all_eq_true, Bool.or_eq_true] at h
      have hall : ∀ d ∈ name.toList, d.toLower = d := by
        rw [heq, List.forall_mem_cons]
        refine ⟨Text.toLower_of_isLower h.1, fun d hd => ?_⟩
        exact (h.2 d hd).elim Text.toLower_of_isLower Text.toLower_of_isDigit
      rw [Text.lower, List.map_congr_left hall, List.map_id', String.ofList_toList]
  · cases h

/-- An operand and the value that it spells: an identifier, or a text in double quotes that holds no quote, no
backslash and no line feed. -/
inductive Operand.Spells : Operand → String → Prop
  | ident {value : String} (h : isIdentifier value = true) : Spells (.ident value) value
  | quoted {value : String} (h : ∀ c ∈ value.toList, c ≠ '"' ∧ c ≠ '\\' ∧ c ≠ '\n') :
      Spells (.quoted ("\"" ++ value ++ "\"")) value

/-- The value is what the operand is compared as. -/
theorem Operand.Spells.content {operand : Operand} {value : String} (h : operand.Spells value) :
    operand.content = .ok value := by
  cases h with
  | ident => rfl
  | quoted h =>
      rw [Operand.content, unquote]
      have hchars : ("\"" ++ value ++ "\"").toList = '"' :: (value.toList ++ ['"']) := by simp
      rw [hchars]
      cases hvalue : value.toList with
      | nil =>
          rw [String.toList_eq_nil_iff.mp hvalue]
          rfl
      | cons c cs =>
          have hlast : (c :: (cs ++ ['"'])).getLast? = some '"' := by
            rw [← List.cons_append, List.getLast?_concat]
          have hinit : (c :: (cs ++ ['"'])).dropLast = c :: cs := by
            rw [← List.cons_append, List.dropLast_concat]
          have hascii : Text.isAscii '"' = true := rfl
          simp only [List.cons_append, hlast, hinit, Option.any_some, hascii, if_true]
          rw [← hvalue, String.ofList_toList]

/-- The simple selectors of the grammar. Pseudo-elements have two colons, and the two oldest of them may have
one; the other names with one colon are those of pseudo-classes. -/
inductive Simple.IsPlain : Simple → Prop
  | element {name : String} (h : isIdentifier name = true) : IsPlain (.element name)
  | universal : IsPlain .universal
  | id {name : String} (h : isIdentifier name = true) : IsPlain (.id name)
  | className {name : String} (h : isIdentifier name = true) : IsPlain (.className name)
  | present {name : String} (h : isIdentifier name = true) : IsPlain (.attribute name .present none)
  | compared {name value : String} {test : Test} {operand : Operand} (h : isIdentifier name = true)
      (htest : test ≠ .present) (hoperand : operand.Spells value) : IsPlain (.attribute name test (some operand))
  | pseudoClass {name : String} (h : isIdentifier name = true) (hlegacy : isLegacyPseudoElement name = false) :
      IsPlain (.pseudoClass name none)
  | pseudoElement {name : String} (h : isIdentifier name = true) : IsPlain (.pseudoElement name true)
  | oldElement {name : String} (h : name = "before" ∨ name = "after") : IsPlain (.pseudoElement name false)

namespace Simple

/-- A type or the universal selector, which only starts a compound. -/
def isLeading : Simple → Bool
  | .element _ | .universal => true
  | _ => false

end Simple

/-- At least one simple selector, and none but the first is a type or universal. -/
structure Compound.IsPlain (c : Compound) : Prop where
  ne_nil : c ≠ []
  simples : ∀ s ∈ c, s.IsPlain
  tail : ∀ s ∈ c.tail, s.isLeading = false

namespace Test

/-- The characters of the sign of a test. -/
def signs : Test → List Char
  | .present => []
  | .equals => ['=']
  | .includes => ['~', '=']
  | .dashMatches => ['|', '=']
  | .starts => ['^', '=']
  | .ends => ['$', '=']
  | .contains => ['*', '=']

end Test

namespace Operand

def text : Operand → String
  | .ident text | .quoted text => text

def token : Operand → Token
  | .ident text => ⟨.ident, text⟩
  | .quoted text => ⟨.string, text⟩

end Operand

namespace Simple

/-- A simple selector in the syntax of style sheets. -/
def text : Simple → String
  | .element name => name
  | .universal => "*"
  | .id name => "#" ++ name
  | .className name => "." ++ name
  | .attribute name test operand =>
    "[" ++ name ++ String.ofList test.signs ++ (operand.map Operand.text).getD "" ++ "]"
  | .pseudoClass name _ => ":" ++ name
  | .pseudoElement name doubleColon => (if doubleColon then "::" else ":") ++ name

def tokens : Simple → List Token
  | .element name => [⟨.ident, name⟩]
  | .universal => [Token.sign '*']
  | .id name => [⟨.hash, "#" ++ name⟩]
  | .className name => [Token.sign '.', ⟨.ident, name⟩]
  | .attribute name test operand =>
    Token.openBracket :: ⟨.ident, name⟩
      :: (test.signs.map Token.sign ++ (operand.toList.map Operand.token ++ [Token.closeBracket]))
  | .pseudoClass name _ => [Token.colon, ⟨.ident, name⟩]
  | .pseudoElement name doubleColon =>
    (if doubleColon then [Token.colon, Token.colon] else [Token.colon]) ++ [⟨.ident, name⟩]

theorem chars_tokens (s : Simple) : chars s.tokens = s.text.toList := by
  have hsigns : ∀ signs : List Char, (signs.map Token.sign).flatMap (·.text.toList) = signs := by
    intro signs
    induction signs with
    | nil => rfl
    | cons c signs ih => simp [Token.sign, ih]
  match s with
  | .attribute name test none => simp [chars, tokens, text, Token.openBracket, Token.closeBracket, hsigns]
  | .attribute name test (some (.ident value)) | .attribute name test (some (.quoted value)) =>
      simp [chars, tokens, text, Token.openBracket, Token.closeBracket, hsigns, Operand.token, Operand.text]
  | .pseudoElement name true | .pseudoElement name false => simp [chars, tokens, text, Token.colon]
  | .element _ | .universal | .id _ | .className _ | .pseudoClass _ _ =>
      simp [chars, tokens, text, Token.sign, Token.colon]

end Simple

/-- White space, or none. -/
structure Blank where
  text : String
  spaces : ∀ c ∈ text.toList, isSpace c = true

namespace Blank

def append (a b : Blank) : Blank where
  text := a.text ++ b.text
  spaces c hc := by
    rw [String.toList_append, List.mem_append] at hc
    exact hc.elim (a.spaces c) (b.spaces c)

def tokens (b : Blank) : List Token := if b.text.isEmpty then [] else [⟨.whitespace, b.text⟩]

theorem chars_tokens (b : Blank) : chars b.tokens = b.text.toList := by
  rw [tokens]
  split
  · next hempty => simp [chars, String.isEmpty_iff.mp hempty]
  · simp [chars]

end Blank

namespace Combinator

/-- The sign of a combinator. Descendants have none. -/
def sign? : Combinator → Option Char
  | .descendant => none
  | .child => some '>'
  | .nextSibling => some '+'
  | .laterSibling => some '~'

end Combinator

/-- A compound, with the combinator in front of it and the white space around that. -/
structure Link where
  before : Blank
  combinator : Combinator
  after : Blank
  compound : Compound
  /-- Descendants are told by the space between the compounds. -/
  spaced : combinator = .descendant → before.text ++ after.text ≠ ""

namespace Compound

def text (c : Compound) : String := Text.concat (c.map Simple.text)

def tokens (c : Compound) : List Token := c.flatMap Simple.tokens

theorem chars_tokens (c : Compound) : chars c.tokens = c.text.toList := by
  induction c with
  | nil => rfl
  | cons s c ih =>
      rw [tokens] at ih
      rw [tokens, text, List.flatMap_cons, chars_append, s.chars_tokens, ih, List.map_cons, Text.concat,
        String.toList_append, text]

end Compound

namespace Link

def text (l : Link) : String :=
  l.before.text ++ (l.combinator.sign?.map String.singleton).getD "" ++ l.after.text ++ l.compound.text

/-- The tokens in front of the compound. -/
def joint (l : Link) : List Token :=
  match l.combinator.sign? with
  | none => (l.before.append l.after).tokens
  | some c => l.before.tokens ++ Token.sign c :: l.after.tokens

def tokens (l : Link) : List Token := l.joint ++ l.compound.tokens

theorem chars_tokens (l : Link) : chars l.tokens = l.text.toList := by
  have hjoint : chars l.joint
      = l.before.text.toList ++ ((l.combinator.sign?.map String.singleton).getD "").toList ++ l.after.text.toList := by
    rw [joint]
    cases l.combinator.sign? with
    | none => simp [Blank.chars_tokens, Blank.append]
    | some c =>
        have hsign : chars (Token.sign c :: l.after.tokens) = c :: chars l.after.tokens := by
          simp [chars, Token.sign]
        simp [chars_append, hsign, Blank.chars_tokens]
  rw [tokens, chars_append, hjoint, Compound.chars_tokens, text]
  simp

/-- The part of a complex selector that the link is read as. -/
def part (l : Link) : Part := ⟨l.compound, some l.combinator⟩

end Link

/-- A complex selector from left to right, with the white space around it. -/
structure Chain where
  lead : Blank
  first : Compound
  links : List Link
  trail : Blank

namespace Chain

def text (c : Chain) : String :=
  c.lead.text ++ c.first.text ++ Text.concat (c.links.map Link.text) ++ c.trail.text

/-- The compounds after the first, and the white space at the end. -/
def restTokens (c : Chain) : List Token := c.links.flatMap Link.tokens ++ c.trail.tokens

def tokens (c : Chain) : List Token := c.lead.tokens ++ (c.first.tokens ++ c.restTokens)

/-- What the chain is read as: from right to left, each part with the combinator to its left. -/
def complex (c : Chain) : Complex := ⟨(⟨c.first, none⟩ :: c.links.map Link.part).reverse⟩

def compounds (c : Chain) : List Compound := c.first :: c.links.map Link.compound

/-- The compounds are those of the grammar. -/
def IsPlain (c : Chain) : Prop := ∀ compound ∈ c.compounds, compound.IsPlain

theorem IsPlain.first {c : Chain} (h : c.IsPlain) : c.first.IsPlain := h c.first List.mem_cons_self

theorem IsPlain.link {c : Chain} (h : c.IsPlain) : ∀ l ∈ c.links, l.compound.IsPlain := fun _ hl =>
  h _ (List.mem_cons_of_mem _ (List.mem_map_of_mem hl))

theorem chars_tokens (c : Chain) : chars c.tokens = c.text.toList := by
  have hlinks : ∀ links : List Link, chars (links.flatMap Link.tokens)
      = (Text.concat (links.map Link.text)).toList := by
    intro links
    induction links with
    | nil => rfl
    | cons l links ih =>
        rw [List.flatMap_cons, chars_append, l.chars_tokens, ih, List.map_cons, Text.concat, String.toList_append]
  rw [tokens, restTokens, text]
  simp [chars_append, Blank.chars_tokens, Compound.chars_tokens, hlinks]

end Chain

/-- The text of a selector list. -/
def textOfAll (chains : List Chain) : String := Text.joined "," (chains.map Chain.text)

def tokensOfAll : List Chain → List Token
  | [] => []
  | [c] => c.tokens
  | c :: d :: rest => c.tokens ++ Token.comma :: tokensOfAll (d :: rest)

theorem chars_tokensOfAll (chains : List Chain) : chars (tokensOfAll chains) = (textOfAll chains).toList := by
  fun_induction tokensOfAll chains with
  | case1 => rfl
  | case2 c => exact c.chars_tokens
  | case3 c d rest ih =>
      have hcomma : chars (Token.comma :: tokensOfAll (d :: rest)) = ',' :: chars (tokensOfAll (d :: rest)) := rfl
      rw [textOfAll] at ih
      rw [chars_append, hcomma, c.chars_tokens, ih, textOfAll]
      simp [Text.joined]

section Standing

variable {rest : List Char}

/-- These tokens are read from their own text wherever a name would end. -/
def StandAlone (ts : List Token) : Prop := ∀ rest : List Char, rest.head?.all endsName = true → Stands ts rest

theorem stands_colon : Stands [Token.colon] rest := stands_single (c := ':') rfl rfl

theorem stands_ident {name : String} (h : isIdentifier name = true) (hrest : rest.head?.all endsName = true) :
    Stands [⟨.ident, name⟩] rest :=
  stands_name (isName_of_isIdentifier h) hrest

theorem stands_dot {name : String} (h : isIdentifier name = true) : Stands [Token.sign '.'] (name.toList ++ rest) :=
  stands_point (isName_of_isIdentifier h)

/-- The signs of a test are characters of their own, whatever follows. -/
theorem stands_signs (test : Test) : Stands (test.signs.map Token.sign) rest := by
  cases test with
  | present => exact Stands.nil
  | equals => exact stands_single (c := '=') rfl rfl
  | includes => exact Stands.cons (stands_single (c := '~') rfl rfl) (stands_single (c := '=') rfl rfl)
  | dashMatches => exact Stands.cons (stands_single (c := '|') rfl rfl) (stands_single (c := '=') rfl rfl)
  | starts => exact Stands.cons (stands_single (c := '^') rfl rfl) (stands_single (c := '=') rfl rfl)
  | ends => exact Stands.cons (stands_single (c := '$') rfl rfl) (stands_single (c := '=') rfl rfl)
  | contains => exact Stands.cons (stands_single (c := '*') rfl rfl) (stands_single (c := '=') rfl rfl)

theorem stands_operand {operand : Operand} {value : String} (h : operand.Spells value)
    (hrest : rest.head?.all endsName = true) : Stands [operand.token] rest := by
  cases h with
  | ident h => exact stands_ident h hrest
  | quoted h =>
      have hchars : "\"" ++ value ++ "\"" = String.ofList ('"' :: (value.toList ++ ['"'])) := by
        rw [← String.toList_inj]
        simp
      rw [Operand.token, hchars]
      exact stands_quoted h rest

/-- The tokens of a test after the name of the attribute, up to the closing bracket. -/
theorem stands_test {test : Test} {operand : Option Operand} (h : ∀ o ∈ operand, ∃ value, o.Spells value) :
    Stands (test.signs.map Token.sign ++ (operand.toList.map Operand.token ++ [Token.closeBracket])) rest := by
  have hclose : Stands [Token.closeBracket] rest := stands_single (c := ']') rfl rfl
  refine Stands.append (stands_signs test) ?_
  cases operand with
  | none => exact hclose
  | some operand =>
      obtain ⟨value, hvalue⟩ := h operand rfl
      exact Stands.append (stands_operand hvalue rfl) hclose

/-- No name goes on with a bracket, the sign of a test or an operand in quotes. -/
theorem head?_test {test : Test} {operand : Option Operand} (h : test = .present → operand = none) :
    (chars (test.signs.map Token.sign ++ (operand.toList.map Operand.token ++ [Token.closeBracket])) ++ rest).head?.all
      endsName = true := by
  cases test with
  | present =>
      rw [h rfl]
      rfl
  | _ => rfl

theorem Simple.IsPlain.standAlone {s : Simple} (h : s.IsPlain) : StandAlone s.tokens := by
  intro rest hrest
  have hattribute : ∀ {name : String} {test : Test} {operand : Option Operand}, isIdentifier name = true →
      (test = .present → operand = none) → (∀ o ∈ operand, ∃ value, o.Spells value) →
      Stands (Simple.attribute name test operand).tokens rest := by
    intro name test operand hname hnone hoperand
    refine Stands.cons (stands_single (c := '[') rfl rfl) (Stands.cons ?_ (stands_test hoperand))
    exact stands_ident hname (head?_test hnone)
  cases h with
  | element h => exact stands_ident h hrest
  | universal => exact stands_single (c := '*') rfl rfl
  | @id name h =>
      have hhash : "#" ++ name = String.ofList ('#' :: name.toList) := by
        rw [← String.toList_inj]
        simp
      rw [Simple.tokens, hhash]
      exact stands_hash (isName_of_isIdentifier h) hrest
  | @className name h =>
      refine Stands.cons ?_ (stands_ident h hrest)
      have hchars : chars [⟨.ident, name⟩] = name.toList := by simp [chars]
      rw [hchars]
      exact stands_dot h
  | present h => exact hattribute h (fun _ => rfl) (by simp)
  | @compared name value test operand h htest hoperand =>
      refine hattribute h (fun heq => absurd heq htest) fun o ho => ?_
      obtain rfl : operand = o := by simpa using ho
      exact ⟨value, hoperand⟩
  | pseudoClass h => exact Stands.cons stands_colon (stands_ident h hrest)
  | pseudoElement h => exact Stands.cons stands_colon (Stands.cons stands_colon (stands_ident h hrest))
  | oldElement h =>
      refine Stands.cons stands_colon (stands_ident ?_ hrest)
      rcases h with rfl | rfl <;> decide

/-- A name ends where a simple selector starts that starts no compound. -/
theorem head?_text {s : Simple} (h : s.isLeading = false) : (s.text.toList ++ rest).head?.all endsName = true := by
  have hstops : endsName '#' = true ∧ endsName '.' = true ∧ endsName '[' = true ∧ endsName ':' = true := by decide
  match s, h with
  | .id _, _ | .className _, _ | .attribute .., _ | .pseudoClass .., _ | .pseudoElement _ true, _
  | .pseudoElement _ false, _ => simp [Simple.text, hstops]

theorem standAlone_simples {simples : List Simple} (h : ∀ s ∈ simples, s.IsPlain)
    (htail : ∀ s ∈ simples.tail, s.isLeading = false) : StandAlone (Compound.tokens simples) := by
  intro rest hrest
  induction simples with
  | nil => exact Stands.nil
  | cons s simples ih =>
      have hmore : ∀ t ∈ simples, t.isLeading = false := htail
      refine Stands.append ((h s List.mem_cons_self).standAlone _ ?_)
        (ih (fun t ht => h t (List.mem_cons_of_mem s ht)) fun t ht => hmore t (List.mem_of_mem_tail ht))
      cases simples with
      | nil => exact hrest
      | cons t simples =>
          show (chars (Compound.tokens (t :: simples)) ++ rest).head?.all endsName = true
          rw [Compound.chars_tokens, Compound.text, List.map_cons, Text.concat, String.toList_append,
            List.append_assoc]
          exact head?_text (hmore t List.mem_cons_self)

theorem Compound.IsPlain.standAlone {c : Compound} (h : c.IsPlain) : StandAlone c.tokens :=
  standAlone_simples h.simples h.tail

/-- Neither a space nor a number goes on with what starts here. -/
def Opens (s : List Char) : Prop := s.head?.any isSpace = false ∧ startsNumber ('+' :: s) = false

theorem opens_of_isName {name : List Char} (h : IsName name) (more : List Char) : Opens (name ++ more) :=
  apart_of_startsCompound (startsCompound_of_isName h more)

theorem Simple.IsPlain.opens {s : Simple} (h : s.IsPlain) (more : List Char) : Opens (s.text.toList ++ more) := by
  cases h with
  | element h => exact opens_of_isName (isName_of_isIdentifier h) more
  | @className name h =>
      have hdot := startsCompound_of_isSimple (.dot (isName_of_isIdentifier h)) more
      have hchars : (Simple.className name).text.toList = '.' :: name.toList := by simp [Simple.text]
      rw [hchars]
      exact apart_of_startsCompound hdot
  | pseudoElement | oldElement | universal | id | present | compared | pseudoClass =>
      simp [Opens, Simple.text, isSpace, startsNumber, startsWithDigit, startsFraction]

theorem Compound.IsPlain.opens {c : Compound} (h : c.IsPlain) (more : List Char) : Opens (c.text.toList ++ more) := by
  cases c with
  | nil => exact absurd rfl h.ne_nil
  | cons s c =>
      rw [Compound.text, List.map_cons, Text.concat, String.toList_append, List.append_assoc]
      exact (h.simples s List.mem_cons_self).opens _

theorem Blank.stands (b : Blank) (hrest : rest.head?.any isSpace = false) : Stands b.tokens rest := by
  rw [tokens]
  split
  · exact Stands.nil
  · next hempty =>
      cases hchars : b.text.toList with
      | nil => exact absurd (String.isEmpty_iff.mpr (String.toList_eq_nil_iff.mp hchars)) hempty
      | cons c cs =>
          have hspaces : ∀ d ∈ c :: cs, isSpace d = true := by
            rw [← hchars]
            exact b.spaces
          refine stands_of_extent hchars ?_
          have hnone : rest.takeWhile isSpace = [] := by
            cases rest with
            | nil => rfl
            | cons d rest => exact List.takeWhile_cons_of_neg (by simpa using hrest)
          have hc : isSpace c = true := hspaces c List.mem_cons_self
          have hslash : c ≠ '/' := by
            rintro rfl
            cases hc
          have htake : (c :: (cs ++ rest)).takeWhile isSpace = c :: cs := by
            rw [← List.cons_append, List.takeWhile_append_of_pos hspaces, hnone, List.append_nil]
          have hextent : extent c (cs ++ rest) = (.whitespace, ((c :: (cs ++ rest)).takeWhile isSpace).length) := by
            simp [extent, hslash, hc]
          rw [hextent, htake, List.length_cons, Nat.add_comm]

/-- A blank starts no name and no number. -/
theorem Blank.opens_append (b : Blank) (hrest : startsNumber ('+' :: rest) = false) :
    startsNumber ('+' :: (b.text.toList ++ rest)) = false := by
  cases hchars : b.text.toList with
  | nil => exact hrest
  | cons c cs =>
      have hc : isSpace c = true := b.spaces c (by rw [hchars]; exact List.mem_cons_self)
      simp only [isSpace, Bool.or_eq_true, beq_iff_eq] at hc
      rcases hc with (((rfl | rfl) | rfl) | rfl) | rfl <;> rfl

theorem Blank.head?_append (b : Blank) (hrest : rest.head?.all endsName = true) :
    (b.text.toList ++ rest).head?.all endsName = true := by
  cases hchars : b.text.toList with
  | nil => exact hrest
  | cons c cs =>
      have hc : isSpace c = true := b.spaces c (by rw [hchars]; exact List.mem_cons_self)
      simp only [isSpace, Bool.or_eq_true, beq_iff_eq] at hc
      rcases hc with (((rfl | rfl) | rfl) | rfl) | rfl <;> rfl

theorem stands_sign {k : Combinator} {c : Char} (hc : k.sign? = some c) (hrest : startsNumber ('+' :: rest) = false) :
    Stands [Token.sign c] rest := by
  cases k with
  | descendant => cases hc
  | child =>
      cases hc
      exact stands_single (c := '>') rfl rfl
  | nextSibling =>
      cases hc
      refine stands_single (c := '+') rfl ?_
      simp only [extent, hrest]
      rfl
  | laterSibling =>
      cases hc
      exact stands_single (c := '~') rfl rfl

theorem not_isSpace_sign {k : Combinator} {c : Char} (hc : k.sign? = some c) : isSpace c = false := by
  cases k <;> cases hc <;> rfl

namespace Link

variable {l : Link}

theorem stands_joint (h : Opens rest) : Stands l.joint rest := by
  rw [joint]
  cases hsign : l.combinator.sign? with
  | none => exact Blank.stands _ h.1
  | some c =>
      have hafter : startsNumber ('+' :: (chars l.after.tokens ++ rest)) = false := by
        rw [Blank.chars_tokens]
        exact l.after.opens_append h.2
      have hsigns := Stands.cons (stands_sign hsign hafter) (l.after.stands h.1)
      refine Stands.append (l.before.stands ?_) hsigns
      simp [chars, Token.sign, not_isSpace_sign hsign]

/-- A name ends where a combinator or a space starts. -/
theorem head?_joint (l : Link) : (chars l.joint ++ rest).head?.all endsName = true := by
  rw [joint]
  cases hsign : l.combinator.sign? with
  | none =>
      have hne : (l.before.append l.after).text.toList ≠ [] := by
        rw [Ne, String.toList_eq_nil_iff]
        refine l.spaced ?_
        cases hk : l.combinator <;> first | rfl | (rw [hk] at hsign; cases hsign)
      rw [Blank.chars_tokens]
      cases hchars : (l.before.append l.after).text.toList with
      | nil => exact absurd hchars hne
      | cons c cs =>
          have hspace : [' '].head?.all endsName = true := rfl
          have hblank := (l.before.append l.after).head?_append hspace
          rw [hchars] at hblank
          exact hblank
  | some c =>
      rw [chars_append, List.append_assoc, Blank.chars_tokens]
      refine l.before.head?_append ?_
      have hends : endsName c = true := by
        cases hk : l.combinator <;> rw [hk] at hsign <;> cases hsign <;> rfl
      simpa [chars, Token.sign] using hends

theorem standAlone (h : l.compound.IsPlain) : StandAlone l.tokens := by
  intro rest hrest
  refine Stands.append (stands_joint ?_) (h.standAlone rest hrest)
  rw [Compound.chars_tokens]
  exact h.opens rest

end Link

theorem standAlone_links {links : List Link} (h : ∀ l ∈ links, l.compound.IsPlain) :
    StandAlone (links.flatMap Link.tokens) := by
  intro rest hrest
  induction links with
  | nil => exact Stands.nil
  | cons l links ih =>
      refine Stands.append (Link.standAlone (h l List.mem_cons_self) _ ?_)
        (ih fun m hm => h m (List.mem_cons_of_mem l hm))
      cases links with
      | nil => exact hrest
      | cons m links =>
          show (chars ((m :: links).flatMap Link.tokens) ++ rest).head?.all endsName = true
          rw [List.flatMap_cons, Link.tokens, List.append_assoc, chars_append, List.append_assoc]
          exact m.head?_joint

/-- The text ends here, or a comma follows. -/
def endsChain (s : List Char) : Bool := s.head?.all (· == ',')

theorem head?_of_endsChain (h : endsChain rest = true) :
    rest.head?.all endsName = true ∧ rest.head?.any isSpace = false := by
  cases rest with
  | nil => exact ⟨rfl, rfl⟩
  | cons c rest =>
      obtain rfl : c = ',' := by simpa [endsChain] using h
      exact ⟨rfl, rfl⟩

theorem Chain.IsPlain.stands {c : Chain} (h : c.IsPlain) (hrest : endsChain rest = true) : Stands c.tokens rest := by
  obtain ⟨hname, hspace⟩ := head?_of_endsChain hrest
  have htrail : (c.trail.text.toList ++ rest).head?.all endsName = true := c.trail.head?_append hname
  have hmore : Stands c.restTokens rest := by
    refine Stands.append (standAlone_links h.link _ ?_) (c.trail.stands hspace)
    rw [Blank.chars_tokens]
    exact htrail
  have hfirst : Stands (c.first.tokens ++ c.restTokens) rest := by
    refine Stands.append (h.first.standAlone _ ?_) hmore
    rw [Chain.restTokens]
    cases c.links with
    | nil =>
        rw [List.flatMap_nil, List.nil_append, Blank.chars_tokens]
        exact htrail
    | cons l links =>
        rw [List.flatMap_cons, Link.tokens, List.append_assoc, List.append_assoc, chars_append, List.append_assoc]
        exact l.head?_joint
  refine Stands.append (c.lead.stands ?_) hfirst
  rw [chars_append, Compound.chars_tokens, List.append_assoc]
  exact (h.first.opens _).1

/-- The text of a selector list falls into the tokens that it was written with. -/
theorem tokenize_textOfAll {chains : List Chain} (h : ∀ c ∈ chains, c.IsPlain) :
    tokenize (textOfAll chains) = tokensOfAll chains := by
  refine Stands.tokenize_eq (chars_tokensOfAll chains).symm ?_
  fun_induction tokensOfAll chains with
  | case1 => exact Stands.nil
  | case2 c => exact (h c List.mem_cons_self).stands rfl
  | case3 c d rest ih =>
      have hcomma := Stands.cons (stands_single (t := Token.comma) (c := ',') rfl rfl)
        (ih fun e he => h e (List.mem_cons_of_mem c he))
      exact Stands.append ((h c List.mem_cons_self).stands rfl) hcomma

end Standing

end Selector

end CssMinify
