import CssMinify.Text.Blank

/-!
Looking into texts and cutting them up. Everything is stated on the list of characters, so that the
lemmas of the list library apply.
-/

namespace CssMinify

/-- Cuts a list at every element that satisfies `p`; those elements belong to no piece. There is always
one piece more than there are cuts. -/
def splitWhere {α : Type} (p : α → Bool) : List α → List (List α)
  | [] => [[]]
  | a :: rest =>
    if p a then [] :: splitWhere p rest
    else match splitWhere p rest with
      | piece :: pieces => (a :: piece) :: pieces
      | [] => [[a]]

theorem splitWhere_ne_nil {α : Type} (p : α → Bool) (l : List α) : splitWhere p l ≠ [] := by
  cases l with
  | nil => simp [splitWhere]
  | cons a rest =>
    rw [splitWhere]
    split
    · simp
    · split <;> simp

/-- Drops what satisfies `p` from both ends. -/
def trimEnds {α : Type} (p : α → Bool) (l : List α) : List α :=
  ((l.dropWhile p).reverse.dropWhile p).reverse

namespace Text

/-- The size of a text in UTF-8, the measure in which savings are counted. -/
def byteLength (s : String) : Nat := s.utf8ByteSize

def startsWith (s start : String) : Bool := start.toList.isPrefixOf s.toList

def endsWith (s ending : String) : Bool := ending.toList.isSuffixOf s.toList

/-- Does `needle` occur as a block of consecutive characters? -/
def occursIn (needle : List Char) : List Char → Bool
  | [] => needle.isEmpty
  | c :: rest => needle.isPrefixOf (c :: rest) || occursIn needle rest

def contains (s needle : String) : Bool := occursIn needle.toList s.toList

/-- What follows `start`, if the text starts with it. -/
def afterStart? (s start : String) : Option String :=
  if startsWith s start then some (String.ofList (s.toList.drop start.toList.length)) else none

/-- What precedes `ending`, if the text ends with it. -/
def beforeEnd? (s ending : String) : Option String :=
  if endsWith s ending then
    some (String.ofList (s.toList.take (s.toList.length - ending.toList.length)))
  else none

/-- The texts before and after the first occurrence of `c`. -/
def cutAtFirst? (c : Char) (s : String) : Option (String × String) :=
  match s.toList.span (· != c) with
  | (_, []) => none
  | (before, _ :: after) => some (String.ofList before, String.ofList after)

/-- The pieces between the occurrences of `c`, empty ones included. -/
def splitAtEach (c : Char) (s : String) : List String :=
  (splitWhere (· == c) s.toList).map String.ofList

/-- Drops blanks from both ends. -/
def trim (s : String) : String := String.ofList (trimEnds isBlank s.toList)

/-- The texts one after the other with `separator` between them. -/
def joined (separator : String) : List String → String
  | [] => ""
  | [s] => s
  | s :: t :: rest => s ++ separator ++ joined separator (t :: rest)

def concat : List String → String
  | [] => ""
  | s :: rest => s ++ concat rest

theorem toList_concat (texts : List String) :
    (concat texts).toList = texts.flatMap String.toList := by
  induction texts with
  | nil => rfl
  | cons s rest ih => simp [concat, ih]

end Text

end CssMinify
