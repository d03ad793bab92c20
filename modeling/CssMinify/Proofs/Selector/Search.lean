import CssMinify.Proofs.Token.Lexeme
import CssMinify.Selector.Merging

/-!
The search for pseudo selectors in a text. It goes from colon to colon and takes the letters and hyphens behind each;
an argument is passed over up to its first parenthesis. What is spelled behind a colon is therefore met by the search,
or lies in an argument.
-/

namespace CssMinify

open Lexer

namespace Selector

namespace Mention

/-- Does the run of letters and hyphens at the start end where a name does? One that is empty must not be followed by
what may be a comment, behind which the name could still come. -/
def endsCleanly (s : List Char) : Bool :=
  (s.dropWhile isNameChar).head?.all fun c =>
    !continuesName c && c != '\\' && (c != '/' || !(s.takeWhile isNameChar).isEmpty)

/-- Is no colon after the character `before` escaped or followed by an unusual name? -/
def isLegibleFrom (before : Option Char) : List Char → Bool
  | [] => true
  | c :: rest => (c != ':' || before != some '\\' && endsCleanly rest) && isLegibleFrom (some c) rest

/-- A text in which every colon is a token and every name behind one is of letters and hyphens. -/
def isLegible (text : String) : Bool := isLegibleFrom none text.toList

/-- The name stands behind a colon that follows no colon. -/
def Spells (s : List Char) (name : String) : Prop :=
  ∃ front rest length, s = front ++ rest ∧ front.getLast? ≠ some ':' ∧ read? rest = some (name, length)

/-- A character that neither goes on with a name nor is a colon. -/
def endsMention (c : Char) : Bool := !isNameChar c && c != ':'

/-- A part of a text that cuts no pseudo selector. -/
def Inside (part s : List Char) : Prop :=
  ∃ front rest, s = front ++ (part ++ rest) ∧ front.getLast? ≠ some ':' ∧ rest.head?.all endsMention = true

/-- The arguments that the search passes over, where the first `skip` characters belong to the last pseudo selector
found. -/
def argumentsFrom (skip : Nat) : List Char → List (List Char)
  | [] => []
  | c :: rest =>
    match skip with
    | skip + 1 => argumentsFrom skip rest
    | 0 =>
      match read? (c :: rest) with
      | some (name, length) => ((c :: rest).take length).drop name.length :: argumentsFrom (length - 1) rest
      | none => argumentsFrom 0 rest

/-- The arguments of the pseudo selectors that are found in a selector, with their parentheses; empty where one has
none. -/
def arguments (selector : String) : List (List Char) := argumentsFrom 0 selector.toList

section Legible

theorem isLegibleFrom_iff {before : Option Char} {s : List Char} :
    isLegibleFrom before s = true ↔ ∀ front rest, s = front ++ ':' :: rest →
      front.getLast?.or before ≠ some '\\' ∧ endsCleanly rest = true := by
  induction s generalizing before with
  | nil => simp [isLegibleFrom]
  | cons c s ih =>
      rw [isLegibleFrom, Bool.and_eq_true, ih]
      constructor
      · rintro ⟨hfirst, hmore⟩ front rest heq
        cases front with
        | nil =>
            obtain ⟨rfl, rfl⟩ := List.cons.inj heq
            simpa using hfirst
        | cons d front =>
            obtain ⟨rfl, rfl⟩ := List.cons.inj heq
            have hrest := hmore front rest rfl
            rw [List.getLast?_cons]
            cases hlast : front.getLast? <;> simpa [hlast] using hrest
      · intro hall
        refine ⟨?_, fun front rest heq => ?_⟩
        · by_cases hc : c = ':'
          · subst hc
            simpa using hall [] s rfl
          · simp [hc]
        · subst heq
          have hrest := hall (c :: front) rest rfl
          rw [List.getLast?_cons] at hrest
          cases hlast : front.getLast? <;> simpa [hlast] using hrest

theorem endsCleanly_of_append {s rest : List Char} (h : endsCleanly (s ++ rest) = true) : endsCleanly s = true := by
  rw [endsCleanly] at h ⊢
  rw [List.dropWhile_append] at h
  split at h
  · next hempty =>
      have hnil : s.dropWhile isNameChar = [] := by simpa using hempty
      rw [hnil]
      rfl
  · next hne =>
      cases hdrop : s.dropWhile isNameChar with
      | nil => simp [hdrop] at hne
      | cons c tail =>
          have hsplit := List.takeWhile_append_dropWhile (p := isNameChar) (l := s)
          have htake : (s ++ rest).takeWhile isNameChar = s.takeWhile isNameChar := by
            rw [List.takeWhile_append, if_neg]
            intro hlength
            have hcount := congrArg List.length hsplit
            rw [List.length_append, hdrop, List.length_cons] at hcount
            omega
          rw [hdrop, htake] at h
          exact h

/-- A part of a legible text is legible. -/
theorem isLegibleFrom_of_infix {part front rest : List Char}
    (h : isLegibleFrom none (front ++ (part ++ rest)) = true) : isLegibleFrom none part = true := by
  rw [isLegibleFrom_iff] at h ⊢
  rintro before after rfl
  obtain ⟨hslash, hclean⟩ := h (front ++ before) (after ++ rest) (by simp)
  refine ⟨?_, endsCleanly_of_append hclean⟩
  rw [List.getLast?_append] at hslash
  cases hlast : before.getLast? with
  | none => simp
  | some c => simpa [hlast] using hslash

end Legible

section Read

variable {s rest : List Char} {name : String} {length : Nat}

theorem readColons?_eq_some {colons : List Char} (h : readColons? s = some (colons, rest)) :
    s = colons ++ rest ∧ (colons = [':'] ∨ colons = [':', ':']) := by
  rw [readColons?.eq_def] at h
  split at h
  · obtain ⟨rfl, rfl⟩ := Prod.mk.inj (Option.some.inj h)
    exact ⟨rfl, .inr rfl⟩
  · obtain ⟨rfl, rfl⟩ := Prod.mk.inj (Option.some.inj h)
    exact ⟨rfl, .inl rfl⟩
  · cases h

theorem readColons?_append {colons : List Char} (hcolons : colons = [':'] ∨ colons = [':', ':'])
    (hrest : rest.head? ≠ some ':') : readColons? (colons ++ rest) = some (colons, rest) := by
  rcases hcolons with rfl | rfl
  · cases rest with
    | nil => rfl
    | cons c rest =>
        rw [List.singleton_append, readColons?]
        rintro tail heq
        exact hrest (congrArg List.head? heq)
  · rfl

/-- A pseudo selector is one or two colons, the letters behind them, and an argument if it is closed. -/
theorem read?_eq_some_iff :
    read? s = some (name, length) ↔ ∃ colons run rest, s = colons ++ (run ++ rest)
      ∧ (colons = [':'] ∨ colons = [':', ':']) ∧ run ≠ [] ∧ (∀ c ∈ run, isNameChar c = true)
      ∧ rest.head?.any isNameChar = false ∧ name = Text.lower (String.ofList (colons ++ run))
      ∧ length = colons.length + run.length + argumentLength rest := by
  constructor
  · intro h
    obtain ⟨⟨colons, rest⟩, hfound, hread⟩ := Option.bind_eq_some_iff.mp h
    obtain ⟨rfl, hcolons⟩ := readColons?_eq_some hfound
    clear h hfound
    dsimp only at hread
    have hsplit := List.takeWhile_append_dropWhile (p := isNameChar) (l := rest)
    have hall : ∀ c ∈ rest.takeWhile isNameChar, isNameChar c = true := fun c hc => List.mem_takeWhile_imp hc
    have hstop : (rest.dropWhile isNameChar).head?.any isNameChar = false := by
      have hhead := List.head?_dropWhile_not isNameChar rest
      cases hdrop : (rest.dropWhile isNameChar).head? with
      | none => rfl
      | some c => simpa [hdrop] using hhead
    generalize rest.takeWhile isNameChar = run at hread hsplit hall
    generalize rest.dropWhile isNameChar = after at hsplit hstop
    subst hsplit
    rw [List.drop_left] at hread
    split at hread
    · cases hread
    · next hne =>
        obtain ⟨rfl, rfl⟩ := Prod.mk.inj (Option.some.inj hread)
        exact ⟨colons, run, after, rfl, hcolons, by simpa using hne, hall, hstop, rfl, rfl⟩
  · rintro ⟨colons, run, rest, rfl, hcolons, hne, hall, hstop, rfl, rfl⟩
    have hhead : (run ++ rest).head? ≠ some ':' := by
      cases run with
      | nil => exact absurd rfl hne
      | cons c run =>
          intro heq
          have hc := hall c List.mem_cons_self
          rw [Option.some.inj heq] at hc
          cases hc
    have hrun : (run ++ rest).takeWhile isNameChar = run := by
      rw [List.takeWhile_append_of_pos hall]
      cases rest with
      | nil => simp
      | cons c rest => simp [List.takeWhile_cons_of_neg (by simpa using hstop)]
    have hsome : run.isEmpty = false := by simpa using hne
    rw [read?, readColons?_append hcolons hhead]
    simp only [Option.bind_eq_bind, Option.bind_some, hrun, hsome, List.drop_left]
    rfl

/-- What follows a part that cuts no pseudo selector plays no part in the names read there. -/
theorem exists_read?_append_iff (hrest : rest.head?.all endsMention = true) :
    (∃ length, read? (s ++ rest) = some (name, length)) ↔ ∃ length, read? s = some (name, length) := by
  have hstop : ∀ {after : List Char}, after.head?.any isNameChar = false →
      (after ++ rest).head?.any isNameChar = false := by
    intro after hafter
    cases after with
    | nil =>
        cases rest with
        | nil => rfl
        | cons c rest =>
            simp only [List.head?_cons, Option.all_some, endsMention, Bool.and_eq_true, Bool.not_eq_true'] at hrest
            simpa using hrest.1
    | cons c after => simpa using hafter
  constructor
  · rintro ⟨length, h⟩
    obtain ⟨colons, run, after, heq, hcolons, hne, hall, hafter, hname, -⟩ := read?_eq_some_iff.mp h
    have hletters : ∀ c ∈ colons ++ run, endsMention c = false := by
      intro c hc
      rcases List.mem_append.mp hc with hc | hc
      · have hcolon : c = ':' := by rcases hcolons with rfl | rfl <;> simpa using hc
        rw [hcolon]
        rfl
      · simp [endsMention, hall c hc]
    rw [← List.append_assoc] at heq
    obtain ⟨more, hs, hmore⟩ : ∃ more, s = colons ++ run ++ more ∧ after = more ++ rest := by
      rcases List.append_eq_append_iff.mp heq with ⟨cut, hcut, hmeet⟩ | ⟨more, hs, hmore⟩
      · -- The text may not end inside of the name, since what follows would be a part of it.
        cases cut with
        | nil => exact ⟨[], by simpa using hcut.symm, by simpa using hmeet.symm⟩
        | cons c cut =>
            have hin := hletters c (by simp [hcut])
            rw [hmeet] at hrest
            simp [hin] at hrest
      · exact ⟨more, hs, hmore⟩
    refine ⟨_, read?_eq_some_iff.mpr ⟨colons, run, more, by simp [hs], hcolons, hne, hall, ?_, hname, rfl⟩⟩
    cases more with
    | nil => rfl
    | cons c more => simpa [hmore] using hafter
  · rintro ⟨length, h⟩
    obtain ⟨colons, run, after, rfl, hcolons, hne, hall, hafter, hname, -⟩ := read?_eq_some_iff.mp h
    exact ⟨_, read?_eq_some_iff.mpr ⟨colons, run, after ++ rest, by simp, hcolons, hne, hall, hstop hafter, hname, rfl⟩⟩

theorem Spells.of_inside {part : List Char} (h : Spells part name) (hinside : Inside part s) : Spells s name := by
  obtain ⟨front, more, length, rfl, hfront, hread⟩ := h
  obtain ⟨before, rest, rfl, hbefore, hrest⟩ := hinside
  obtain ⟨length, hread⟩ := (exists_read?_append_iff hrest).mpr ⟨length, hread⟩
  refine ⟨before ++ front, more ++ rest, length, by simp, ?_, hread⟩
  rw [List.getLast?_append]
  cases hlast : front.getLast? with
  | none => simpa using hbefore
  | some c => simpa [hlast] using hfront

end Read

section Search

/-- An argument ends with its parenthesis. -/
theorem exists_argument (s : List Char) :
    ∃ argument more, s = argument ++ more ∧ argument.length = argumentLength s
      ∧ (argument = [] ∨ argument.getLast? = some ')') := by
  rw [argumentLength.eq_def]
  split
  · next rest =>
      split
      · next hclosed =>
          have hmem : ')' ∈ rest := by simpa using hclosed
          have hsplit := List.takeWhile_append_dropWhile (p := (· != ')')) (l := rest)
          have hhead := List.head?_dropWhile_not (· != ')') rest
          cases hdrop : rest.dropWhile (· != ')') with
          | nil => simpa using List.dropWhile_eq_nil_iff.mp hdrop ')' hmem
          | cons d more =>
              obtain rfl : d = ')' := by simpa [hdrop] using hhead
              rw [hdrop] at hsplit
              refine ⟨('(' :: rest.takeWhile (· != ')')) ++ [')'], more, ?_, by simp, .inr List.getLast?_concat⟩
              rw [List.append_assoc, List.singleton_append, List.cons_append, hsplit]
      · exact ⟨[], _, rfl, rfl, .inl rfl⟩
  · exact ⟨[], s, rfl, rfl, .inl rfl⟩

theorem length_lower (s : String) : (Text.lower s).length = s.length := by
  rw [Text.lower, ← String.length_toList, String.toList_ofList, List.length_map, String.length_toList]

/-- Where a pseudo selector starts inside of another, it stands in the argument. -/
theorem spells_argument {front rest : List Char} {name outer : String} {n length : Nat} (hne : front ≠ [])
    (hfront : front.getLast? ≠ some ':') (hrest : read? rest = some (name, n))
    (houter : read? (front ++ rest) = some (outer, length)) (hinside : front.length < length) :
    Spells (((front ++ rest).take length).drop outer.length) name := by
  obtain ⟨colons, run, after, heq, hcolons, -, hall, -, rfl, rfl⟩ := read?_eq_some_iff.mp houter
  obtain ⟨tail, rfl⟩ : ∃ tail, rest = ':' :: tail := by
    obtain ⟨colons, run, after, rfl, hcolons, -⟩ := read?_eq_some_iff.mp hrest
    rcases hcolons with rfl | rfl <;> exact ⟨_, rfl⟩
  -- A colon among the colons would follow one, and the name has none.
  have hletters : ∀ cut, colons ++ run ≠ front ++ ':' :: cut := by
    intro cut hcut
    obtain ⟨c, front, rfl⟩ := List.exists_cons_of_ne_nil hne
    have hnone : ∀ {start cut : List Char}, run ≠ start ++ ':' :: cut := by
      rintro start cut rfl
      cases hall ':' (by simp)
    rcases hcolons with rfl | rfl
    · exact hnone (List.cons.inj hcut).2
    · cases front with
      | nil =>
          obtain rfl : ':' = c := (List.cons.inj hcut).1
          exact hfront rfl
      | cons d front => exact hnone (List.cons.inj (List.cons.inj hcut).2).2
  obtain ⟨inner, rfl, rfl⟩ : ∃ inner, front = colons ++ run ++ inner ∧ after = inner ++ ':' :: tail := by
    rw [← List.append_assoc] at heq
    rcases List.append_eq_append_iff.mp heq with ⟨cut, hcut, hmeet⟩ | ⟨inner, hinner, hafter⟩
    · cases cut with
      | nil => exact ⟨[], by simpa using hcut.symm, by simpa using hmeet.symm⟩
      | cons d cut =>
          obtain ⟨rfl, -⟩ := List.cons.inj hmeet
          exact absurd hcut (hletters cut)
    · exact ⟨inner, hinner, hafter⟩
  obtain ⟨argument, more, hargument, hlength, hend⟩ := exists_argument (inner ++ ':' :: tail)
  rw [← hlength] at hinside ⊢
  simp only [List.length_append] at hinside
  have htext : ((colons ++ run ++ inner ++ ':' :: tail).take (colons.length + run.length + argument.length)).drop
      (Text.lower (String.ofList (colons ++ run))).length = argument := by
    rw [length_lower, ← String.length_toList, String.toList_ofList, List.append_assoc, hargument, ← List.length_append,
      List.take_length_add_append, List.take_left, List.drop_left]
  rw [htext]
  obtain ⟨part, rfl, hpart⟩ : ∃ part, argument = inner ++ part ∧ ':' :: tail = part ++ more := by
    rcases List.append_eq_append_iff.mp hargument with ⟨part, hpart, hmeet⟩ | ⟨cut, hcut, -⟩
    · exact ⟨part, hpart, hmeet⟩
    · rw [hcut, List.length_append] at hinside
      omega
  have hpartne : part ≠ [] := by
    rintro rfl
    simp at hinside
  have hclosed : part.getLast? = some ')' := by
    rcases hend with hnil | hlast
    · exact absurd (List.append_eq_nil_iff.mp hnil).2 hpartne
    · rwa [List.getLast?_append_of_ne_nil _ hpartne] at hlast
  obtain ⟨start, rfl⟩ := List.getLast?_eq_some_iff.mp hclosed
  rw [hpart, List.append_assoc] at hrest
  have hparen : ∀ after : List Char, (')' :: after).head?.all endsMention = true := fun _ => rfl
  obtain ⟨n, hstart⟩ := (exists_read?_append_iff (hparen more)).mp ⟨n, hrest⟩
  obtain ⟨n, hread⟩ := (exists_read?_append_iff (hparen [])).mpr ⟨n, hstart⟩
  refine ⟨inner, start ++ [')'], n, rfl, ?_, hread⟩
  rw [List.getLast?_append] at hfront
  cases hlast : inner.getLast? with
  | none => simp
  | some c => simpa [hlast] using hfront

/-- What is spelled in a text is met by the search, or lies in an argument that is passed over. -/
theorem exists_of_spells {skip : Nat} {before : Option Char} {front rest : List Char} {name : String} {n : Nat}
    (hskip : skip ≤ front.length) (hfront : front.getLast? ≠ some ':') (hread : read? rest = some (name, n)) :
    (∃ m ∈ allFrom skip before (front ++ rest), m.name = name)
      ∨ ∃ argument ∈ argumentsFrom skip (front ++ rest), Spells argument name := by
  induction front generalizing skip before with
  | nil =>
      obtain rfl : skip = 0 := by simpa using hskip
      cases rest with
      | nil => cases hread
      | cons c rest =>
          left
          rw [List.nil_append, allFrom, hread]
          exact ⟨_, List.mem_cons_self, rfl⟩
  | cons c front ih =>
      have hmore : front.getLast? ≠ some ':' := by
        intro hlast
        rw [List.getLast?_cons, hlast] at hfront
        exact hfront rfl
      rw [List.cons_append, allFrom.eq_def, argumentsFrom.eq_def]
      cases skip with
      | succ skip => exact ih (by simpa using hskip) hmore
      | zero =>
          dsimp only
          cases houter : read? (c :: (front ++ rest)) with
          | none => exact ih (Nat.zero_le _) hmore
          | some found =>
              obtain ⟨outer, length⟩ := found
              dsimp only
              by_cases hbehind : length - 1 ≤ front.length
              · rcases ih hbehind hmore with ⟨m, hm, hname⟩ | ⟨argument, hargument, hspells⟩
                · exact .inl ⟨m, List.mem_cons_of_mem _ hm, hname⟩
                · exact .inr ⟨argument, List.mem_cons_of_mem _ hargument, hspells⟩
              · refine .inr ⟨_, List.mem_cons_self, ?_⟩
                have hlong : (c :: front).length < length := by
                  rw [List.length_cons]
                  omega
                exact spells_argument (by simp) hfront hread houter hlong

end Search

end Mention

end Selector

end CssMinify
