import CssMinify.Proofs.Token.Lexeme

/-!
How far the scanners get when another text follows. A name, a number, a string or an address that ends before the old
text ends before the new one, provided that the new one does not go on with it; a space goes on with an escape by its
number, and what starts a name or a number is a part of it.
-/

namespace CssMinify

namespace Lexer

section Names

variable {name old new : List Char}

/-- A text ends in a backslash and hexadecimal digits, so a space behind it may belong to it. -/
def endsInEscape (s : List Char) : Bool :=
  !(s.reverse.takeWhile Text.isHexDigit).isEmpty && (s.reverse.dropWhile Text.isHexDigit).head? == some '\\'

theorem endsInEscape_iff {s : List Char} :
    endsInEscape s = true ↔ ∃ front digits, s = front ++ '\\' :: digits ∧ digits ≠ []
      ∧ ∀ d ∈ digits, Text.isHexDigit d = true := by
  rw [endsInEscape, Bool.and_eq_true, Bool.not_eq_true', beq_iff_eq]
  constructor
  · rintro ⟨hsome, hhead⟩
    obtain ⟨front, hfront⟩ := exists_cons_of_head? hhead
    have hsplit := List.takeWhile_append_dropWhile (p := Text.isHexDigit) (l := s.reverse)
    refine ⟨front.reverse, (s.reverse.takeWhile Text.isHexDigit).reverse, ?_, by simpa using hsome,
      fun d hd => List.mem_takeWhile_imp (List.mem_reverse.mp hd)⟩
    rw [hfront] at hsplit
    rw [← List.reverse_reverse s]
    conv_lhs => rw [← hsplit]
    simp
  · rintro ⟨front, digits, rfl, hne, hall⟩
    have hrev : (front ++ '\\' :: digits).reverse = digits.reverse ++ ('\\' :: front.reverse) := by simp
    have hall' : ∀ d ∈ digits.reverse, Text.isHexDigit d = true := fun d hd => hall d (List.mem_reverse.mp hd)
    have hslash : Text.isHexDigit '\\' = false := rfl
    rw [hrev, List.takeWhile_append_of_pos hall', List.dropWhile_append_of_pos hall',
      List.takeWhile_cons_of_neg (by simp [hslash]), List.dropWhile_cons_of_neg (by simp [hslash])]
    simp [hne]

theorem endsInEscape_of_append {x : List Char} (front : List Char) (h : endsInEscape (front ++ x) = false) :
    endsInEscape x = false := by
  rw [Bool.eq_false_iff] at h ⊢
  intro hx
  obtain ⟨start, digits, rfl, hne, hall⟩ := endsInEscape_iff.mp hx
  exact h (endsInEscape_iff.mpr ⟨front ++ start, digits, by simp, hne, hall⟩)

/-- The digits of an escape that end before the text does are the same whatever follows. -/
theorem takeWhile_take_of_lt {z u : List Char} (h : (((z ++ u).take 6).takeWhile Text.isHexDigit).length < z.length)
    (v : List Char) :
    ((z ++ v).take 6).takeWhile Text.isHexDigit = ((z ++ u).take 6).takeWhile Text.isHexDigit := by
  rw [List.take_append, List.takeWhile_append] at h
  rw [List.take_append, List.take_append, List.takeWhile_append, List.takeWhile_append]
  split
  · next hall =>
      rw [if_pos hall, List.length_append, List.length_take] at h
      have hnone : 6 - z.length = 0 := by omega
      rw [hnone]
      rfl
  · rfl

/-- So are those that end with the text, if no digit follows. -/
theorem takeWhile_take_append {z w : List Char} (hw : w.head?.any Text.isHexDigit = false) :
    ((z ++ w).take 6).takeWhile Text.isHexDigit = (z.take 6).takeWhile Text.isHexDigit := by
  have hnone : (w.take (6 - z.length)).takeWhile Text.isHexDigit = [] := by
    cases w with
    | nil => simp
    | cons c w =>
        cases 6 - z.length with
        | zero => rfl
        | succ n => exact List.takeWhile_cons_of_neg (by simpa using hw)
  rw [List.take_append, List.takeWhile_append]
  split
  · next hall =>
      rw [hnone, List.append_nil]
      exact ((List.takeWhile_prefix _).eq_of_length hall).symm
  · rfl

theorem startsEscape_cons_cons (c d : Char) (s : List Char) :
    startsEscape (c :: d :: s) = (c == '\\' && d != '\n') := by
  by_cases hc : c = '\\'
  · subst hc
    rfl
  · rw [startsEscape]
    · simp [hc]
    · intro d s heq
      exact hc (List.cons.inj heq).1

theorem eq_of_startsEscape {c : Char} {s : List Char} (h : startsEscape (c :: s) = true) : c = '\\' := by
  cases s with
  | nil =>
      rw [startsEscape] at h
      · cases h
      · simp
  | cons d s =>
      rw [startsEscape_cons_cons, Bool.and_eq_true, beq_iff_eq] at h
      exact h.1

/-- An escape takes the character behind its backslash. -/
theorem two_le_escapeLength {s : List Char} (h : startsEscape s = true) : 2 ≤ escapeLength s := by
  unfold startsEscape at h
  split at h
  · next c rest =>
      rw [escapeLength]
      split
      · next hhex =>
          have hpos : 0 < (((c :: rest).take 6).takeWhile Text.isHexDigit).length := by
            simp [List.takeWhile_cons_of_pos hhex]
          dsimp only
          omega
      · exact Nat.le_refl 2
  · cases h

/-- The new text goes on with no escape that ends in `x` and that the old one did not go on with. -/
def LeavesEscape (x old new : List Char) : Prop :=
  old.head? = new.head? ∨ old.head?.any Text.isHexDigit = false ∧ new.head?.any Text.isHexDigit = false
    ∧ (new.head?.any isSpace = true → old.head?.any isSpace = true ∨ endsInEscape x = false)

/-- The digits of an escape that ends inside of a text. -/
theorem takeWhile_take_of_leaves {x z : List Char} (h : LeavesEscape x old new)
    (hle : (((z ++ old).take 6).takeWhile Text.isHexDigit).length ≤ z.length) :
    ((z ++ new).take 6).takeWhile Text.isHexDigit = ((z ++ old).take 6).takeWhile Text.isHexDigit := by
  rcases h with hhead | ⟨hold, hnew, -⟩
  · cases old with
    | nil =>
        obtain rfl : new = [] := List.head?_eq_none_iff.mp hhead.symm
        rfl
    | cons c u =>
        obtain ⟨v, rfl⟩ := exists_cons_of_head? hhead.symm
        have hsplit : ∀ w, z ++ c :: w = (z ++ [c]) ++ w := fun w => by simp
        rw [hsplit u] at hle ⊢
        rw [hsplit v]
        have hlength : (z ++ [c]).length = z.length + 1 := List.length_append
        exact takeWhile_take_of_lt (hlength ▸ Nat.lt_succ_of_le hle) v
  · rw [takeWhile_take_append hold, takeWhile_take_append hnew]

/-- An escape that ends inside of a text is the same before whatever does not go on with it. -/
theorem escapeLength_append {x : List Char} (hslash : startsEscape (x ++ old) = true)
    (hle : escapeLength (x ++ old) ≤ x.length) (hleaves : LeavesEscape x old new) :
    startsEscape (x ++ new) = true ∧ escapeLength (x ++ new) = escapeLength (x ++ old) := by
  have htwo := two_le_escapeLength hslash
  match x, Nat.le_trans htwo hle with
  | b :: c :: z, _ =>
      simp only [List.cons_append] at hslash hle ⊢
      have hescape := hslash
      rw [startsEscape_cons_cons] at hescape
      refine ⟨by rwa [startsEscape_cons_cons], ?_⟩
      obtain rfl := eq_of_startsEscape hslash
      by_cases hhex : Text.isHexDigit c = true
      · simp only [escapeLength, hhex, if_true, List.length_cons] at hle ⊢
        have hdigits : ((c :: (z ++ new)).take 6).takeWhile Text.isHexDigit
            = ((c :: (z ++ old)).take 6).takeWhile Text.isHexDigit :=
          takeWhile_take_of_leaves (z := c :: z) hleaves (by simp only [List.cons_append, List.length_cons]; omega)
        rw [hdigits]
        obtain ⟨more, hmore⟩ : ((c :: (z ++ old)).take 6).takeWhile Text.isHexDigit <+: c :: z := by
          refine List.prefix_of_prefix_length_le ((List.takeWhile_prefix _).trans (List.take_prefix 6 _))
            (List.prefix_append (c :: z) old) ?_
          rw [List.length_cons]
          omega
        have hall : ∀ d ∈ ((c :: (z ++ old)).take 6).takeWhile Text.isHexDigit, Text.isHexDigit d = true :=
          fun d hd => List.mem_takeWhile_imp hd
        have hne : ((c :: (z ++ old)).take 6).takeWhile Text.isHexDigit ≠ [] := by
          simp [List.takeWhile_cons_of_pos hhex]
        generalize ((c :: (z ++ old)).take 6).takeWhile Text.isHexDigit = digits at hmore hall hne hle ⊢
        have hdrop : ∀ w : List Char, (c :: (z ++ w)).drop digits.length = more ++ w := by
          intro w
          rw [← List.cons_append, ← hmore, List.append_assoc, List.drop_left]
        simp only [hdrop] at hle ⊢
        cases more with
        | cons d more => rfl
        | nil =>
            rcases hleaves with hhead | ⟨-, -, hspace⟩
            · rw [List.nil_append, List.nil_append, hhead]
            · -- The digits reach the end, so the old text had no space for the escape, and the new one gets none.
              rw [List.append_nil] at hmore
              have hlength : digits.length = z.length + 1 := by rw [hmore, List.length_cons]
              simp only [List.nil_append] at hle ⊢
              have hclosed : old.head?.any isSpace = false := by
                rw [Bool.eq_false_iff]
                intro hold
                rw [if_pos hold] at hle
                omega
              have hopen : new.head?.any isSpace = false := by
                rw [Bool.eq_false_iff]
                intro hnew
                have hescaped : endsInEscape ('\\' :: c :: z) = true :=
                  endsInEscape_iff.mpr ⟨[], digits, by rw [hmore]; rfl, hne, hall⟩
                rcases hspace hnew with hold | hnot
                · rw [hold] at hclosed
                  cases hclosed
                · rw [hnot] at hescaped
                  cases hescaped
              simp only [hclosed, hopen]
      · simp [escapeLength, hhex]

/-- A name, character by character and escape by escape, when `rest` follows. -/
inductive IsNameBefore (rest : List Char) : List Char → Prop
  | nil (hrest : nameLength rest = 0) : IsNameBefore rest []
  | char {c : Char} {name : List Char} (hc : continuesName c = true) (h : IsNameBefore rest name) :
      IsNameBefore rest (c :: name)
  | escape {x name : List Char} (hslash : startsEscape (x ++ (name ++ rest)) = true)
      (hlength : escapeLength (x ++ (name ++ rest)) = x.length) (h : IsNameBefore rest name) :
      IsNameBefore rest (x ++ name)

/-- An escape is a part of a name, which goes on behind it. -/
theorem nameLength_escape {x s : List Char} (hslash : startsEscape (x ++ s) = true)
    (hlength : escapeLength (x ++ s) = x.length) : nameLength (x ++ s) = x.length + nameLength s := by
  cases x with
  | nil =>
      have htwo := two_le_escapeLength hslash
      rw [hlength] at htwo
      cases htwo
  | cons c x =>
      obtain rfl := eq_of_startsEscape hslash
      have hc : continuesName '\\' = false := rfl
      rw [List.cons_append] at hslash hlength ⊢
      rw [nameLength, if_neg (by simp [hc]), if_pos hslash, hlength]
      simp only [List.length_cons, Nat.add_sub_cancel, List.drop_left]

theorem IsNameBefore.nameLength_eq (h : IsNameBefore old name) : nameLength (name ++ old) = name.length := by
  induction h with
  | nil hrest => exact hrest
  | char hc h ih =>
      rw [List.cons_append, nameLength, if_pos hc, ih, List.length_cons, Nat.add_comm]
  | @escape x name hslash hlength h ih =>
      rw [List.append_assoc, nameLength_escape hslash hlength, ih, List.length_append]

theorem isNameBefore_of_nameLength (hend : nameLength (name ++ old) = name.length) : IsNameBefore old name := by
  induction hn : name.length using Nat.strong_induction_on generalizing name with
  | _ n ih =>
      cases name with
      | nil => exact .nil hend
      | cons c name =>
          subst hn
          rw [List.cons_append, nameLength, List.length_cons] at hend
          split at hend
          · next hc => exact .char hc (ih name.length (by simp) (by omega) rfl)
          · split at hend
            · next hescape =>
                have htwo := two_le_escapeLength hescape
                dsimp only at hend
                generalize hk : escapeLength (c :: (name ++ old)) = k at hend htwo
                have hle : k - 1 ≤ name.length := by omega
                have hdrop : (name ++ old).drop (k - 1) = name.drop (k - 1) ++ old := List.drop_append_of_le_length hle
                rw [hdrop] at hend
                have hshort : (name.drop (k - 1)).length < (c :: name).length := by
                  rw [List.length_drop, List.length_cons]
                  omega
                have hrest := ih (name.drop (k - 1)).length hshort (by rw [List.length_drop]; omega) rfl
                have hsplit : c :: name = (c :: name.take (k - 1)) ++ name.drop (k - 1) := by simp
                rw [hsplit]
                have htext : (c :: name.take (k - 1)) ++ (name.drop (k - 1) ++ old) = c :: (name ++ old) := by
                  rw [← List.append_assoc, ← hsplit, List.cons_append]
                refine .escape ?_ ?_ hrest
                · rwa [htext]
                · rw [htext, hk, List.length_cons, List.length_take, Nat.min_eq_left hle]
                  omega
            · omega

/-- Nothing goes on with a name that ends. -/
theorem IsNameBefore.nameLength_rest (h : IsNameBefore old name) : nameLength old = 0 := by
  induction h with
  | nil hrest => exact hrest
  | char hc h ih => exact ih
  | escape hslash hlength h ih => exact ih

theorem head?_of_nameLength_eq_zero {s : List Char} (h : nameLength s = 0) : s.head?.any continuesName = false := by
  rw [nameLength_eq_zero_iff, Bool.or_eq_false_iff] at h
  exact h.1

theorem not_isHexDigit_of_nameLength {s : List Char} (h : nameLength s = 0) : s.head?.any Text.isHexDigit = false := by
  have hhead := head?_of_nameLength_eq_zero h
  cases s with
  | nil => rfl
  | cons c s =>
      rw [Bool.eq_false_iff] at hhead ⊢
      exact fun hc => hhead (continuesName_of_isHexDigit hc)

/-- The last escape of a name that ends before the old text ends before the new one. -/
theorem IsNameBefore.leavesEscape {x : List Char} (h : IsNameBefore old name)
    (hhex : new.head?.any Text.isHexDigit = false)
    (hspace : new.head?.any isSpace = true → old.head?.any isSpace = true ∨ endsInEscape (x ++ name) = false) :
    LeavesEscape x (name ++ old) (name ++ new) := by
  cases name with
  | nil => exact .inr ⟨not_isHexDigit_of_nameLength h.nameLength_rest, hhex, by simpa using hspace⟩
  | cons c name => exact .inl rfl

/-- A name that ends before the old text is a part of the one that goes on with the new text. -/
theorem IsNameBefore.nameLength_append (h : IsNameBefore old name) (hhex : new.head?.any Text.isHexDigit = false)
    (hspace : new.head?.any isSpace = true → old.head?.any isSpace = true ∨ endsInEscape name = false) :
    nameLength (name ++ new) = name.length + nameLength new := by
  induction h with
  | nil => simp
  | @char c name hc h ih =>
      have hrest := ih fun hhead => (hspace hhead).imp_right (endsInEscape_of_append [c])
      rw [List.cons_append, nameLength, if_pos hc, hrest, List.length_cons]
      omega
  | @escape x name hslash hlength h ih =>
      have hrest := ih fun hhead => (hspace hhead).imp_right (endsInEscape_of_append x)
      obtain ⟨hslash', hlength'⟩ := escapeLength_append hslash hlength.le (h.leavesEscape hhex hspace)
      rw [List.append_assoc, nameLength_escape hslash' (hlength'.trans hlength), hrest, List.length_append]
      omega

/-- A name that ends before the old text ends before the new one. -/
theorem IsNameBefore.replace (h : IsNameBefore old name) (hnew : nameLength new = 0)
    (hspace : new.head?.any isSpace = true → old.head?.any isSpace = true ∨ endsInEscape name = false) :
    IsNameBefore new name := by
  refine isNameBefore_of_nameLength ?_
  rw [h.nameLength_append (not_isHexDigit_of_nameLength hnew) hspace, hnew, Nat.add_zero]

theorem startsIdent_of_ne {c : Char} (hc : c ≠ '-') (s : List Char) :
    startsIdent (c :: s) = (startsName c || startsEscape (c :: s)) := by
  rw [startsIdent]
  rintro rfl
  exact hc rfl

theorem startsIdent_dash (c : Char) (s : List Char) :
    startsIdent ('-' :: c :: s) = (c == '-' || startsName c || startsEscape (c :: s)) := by
  simp only [startsIdent]
  split
  · next heq =>
      cases heq
      rfl
  · next heq =>
      cases heq
      rfl
  · next hdash hslash heq =>
      cases heq
      have hc : c ≠ '-' := fun heq => hdash heq
      have hescape : startsEscape (c :: s) = false := by
        rw [Bool.eq_false_iff]
        intro h
        exact hslash (eq_of_startsEscape h)
      simp [hc, hescape]
  · next heq => cases heq

/-- Behind a hyphen a name goes on if an identifier starts with both. -/
theorem nameLength_of_startsIdent_dash {s : List Char} (h : startsIdent ('-' :: s) = true) : nameLength s ≠ 0 := by
  intro hzero
  rw [nameLength_eq_zero_iff, Bool.or_eq_false_iff] at hzero
  cases s with
  | nil => cases h
  | cons c s =>
      have hc : continuesName c = false := hzero.1
      have hstart : startsName c = false := by
        simp only [continuesName, Bool.or_eq_false_iff] at hc
        exact hc.1.1
      have hdash : (c == '-') = false := by
        simp only [continuesName, Bool.or_eq_false_iff] at hc
        exact hc.2
      rw [startsIdent_dash, hstart, hdash, hzero.2] at h
      cases h

/-- What starts a name is a part of it, so the same name starts before any other text. -/
theorem IsNameBefore.startsIdent (h : IsNameBefore old name) (hstart : startsIdent (name ++ old) = true)
    (new : List Char) : startsIdent (name ++ new) = true := by
  have hend := h.nameLength_eq
  match name with
  | [] => exact absurd hend (nameLength_pos hstart).ne'
  | [c] =>
      rw [List.singleton_append] at hstart hend ⊢
      by_cases hdash : c = '-'
      · subst hdash
        have hc : continuesName '-' = true := rfl
        rw [nameLength, if_pos hc, List.length_singleton] at hend
        exact absurd (by omega) (nameLength_of_startsIdent_dash hstart)
      · rw [startsIdent_of_ne hdash, Bool.or_eq_true] at hstart ⊢
        refine .inl (hstart.resolve_right fun hescape => ?_)
        obtain rfl := eq_of_startsEscape hescape
        have hc : continuesName '\\' = false := rfl
        have htwo := two_le_escapeLength hescape
        rw [nameLength, if_neg (by simp [hc]), if_pos hescape, List.length_singleton] at hend
        dsimp only at hend
        omega
  | [c, d] =>
      simp only [List.cons_append, List.nil_append] at hstart hend ⊢
      by_cases hdash : c = '-'
      · subst hdash
        rw [startsIdent_dash, Bool.or_eq_true] at hstart ⊢
        refine .inl (hstart.resolve_right fun hescape => ?_)
        obtain rfl := eq_of_startsEscape hescape
        have hc : continuesName '-' = true := rfl
        have hd : continuesName '\\' = false := rfl
        have htwo := two_le_escapeLength hescape
        rw [nameLength, if_pos hc, nameLength, if_neg (by simp [hd]), if_pos hescape] at hend
        simp only [List.length_cons, List.length_nil] at hend
        omega
      · rw [startsIdent_of_ne hdash, startsEscape_cons_cons] at hstart ⊢
        exact hstart
  | c :: d :: e :: name =>
      simp only [List.cons_append] at hstart ⊢
      by_cases hdash : c = '-'
      · subst hdash
        rw [startsIdent_dash, startsEscape_cons_cons] at hstart ⊢
        exact hstart
      · rw [startsIdent_of_ne hdash, startsEscape_cons_cons] at hstart ⊢
        exact hstart

end Names

section Numbers

variable {old new : List Char}

theorem startsWithDigit_drop_digitsLength (s : List Char) : startsWithDigit (s.drop (digitsLength s)) = false := by
  have hdrop : s.drop (digitsLength s) = s.dropWhile Char.isDigit := by
    refine (List.append_right_inj (s.takeWhile Char.isDigit)).mp ?_
    have htake := List.prefix_iff_eq_take.mp (List.takeWhile_prefix (l := s) Char.isDigit)
    rw [List.takeWhile_append_dropWhile]
    conv_lhs => rw [htake]
    exact List.take_append_drop _ s
  have hhead := List.head?_dropWhile_not Char.isDigit s
  rw [hdrop, startsWithDigit]
  cases hc : (s.dropWhile Char.isDigit).head? with
  | none => rfl
  | some c => simpa [hc] using hhead

/-- No digit follows a number. -/
theorem startsWithDigit_drop_numberLength (s : List Char) : startsWithDigit (s.drop (numberLength s)) = false := by
  have hwhole := startsWithDigit_drop_digitsLength (s.drop (signLength s))
  rw [List.drop_drop] at hwhole
  simp only [numberLength]
  generalize signLength s + digitsLength (s.drop (signLength s)) = whole at hwhole ⊢
  have hfraction : startsWithDigit (s.drop (whole + fractionLength (s.drop whole))) = false := by
    rw [← List.drop_drop, fractionLength]
    split
    · next hstart =>
        cases htail : s.drop whole with
        | nil => rfl
        | cons c tail =>
            rw [List.drop_one, List.tail_cons, Nat.add_comm 1, List.drop_succ_cons]
            exact startsWithDigit_drop_digitsLength tail
    · exact hwhole
  generalize whole + fractionLength (s.drop whole) = fraction at hfraction ⊢
  rw [← List.drop_drop]
  cases htail : s.drop fraction with
  | nil => simp [startsWithDigit]
  | cons c tail =>
      rw [htail] at hfraction
      simp only [exponentLength]
      split
      · rw [Nat.add_assoc, Nat.add_comm 1, List.drop_succ_cons, ← List.drop_drop]
        exact startsWithDigit_drop_digitsLength _
      · exact hfraction

theorem digitsLength_eq_zero {s : List Char} (h : startsWithDigit s = false) : digitsLength s = 0 := by
  cases s with
  | nil => rfl
  | cons c s =>
      have hc : c.isDigit = false := h
      rw [digitsLength, List.takeWhile_cons_of_neg (by simp [hc])]
      rfl

theorem digitsLength_replace {x : List Char} (hle : digitsLength (x ++ old) ≤ x.length)
    (hnew : startsWithDigit new = false) : digitsLength (x ++ new) = digitsLength (x ++ old) := by
  have hnone := digitsLength_eq_zero hnew
  simp only [digitsLength, List.takeWhile_append] at hle hnone ⊢
  split
  · next hall =>
      rw [if_pos hall, List.length_append] at hle
      rw [List.length_append, List.length_append]
      omega
  · rfl

theorem fractionLength_replace {x : List Char} (hle : fractionLength (x ++ old) ≤ x.length)
    (hnew : startsWithDigit new = false) (hpoint : startsFraction old = false → startsFraction new = false) :
    fractionLength (x ++ new) = fractionLength (x ++ old) := by
  cases x with
  | nil =>
      have hold : startsFraction old = false := by
        rw [Bool.eq_false_iff]
        intro hstart
        rw [List.nil_append, fractionLength, if_pos hstart] at hle
        simp at hle
      simp [fractionLength, hold, hpoint hold]
  | cons c x =>
      simp only [List.cons_append, fractionLength, List.drop_one, List.tail_cons] at hle ⊢
      by_cases hc : c = '.'
      · subst hc
        simp only [startsFraction] at hle ⊢
        cases x with
        | nil =>
            have hold : startsWithDigit old = false := by
              rw [Bool.eq_false_iff]
              intro hstart
              have hpos := digitsLength_pos hstart
              rw [List.nil_append, if_pos hstart] at hle
              simp only [List.length_singleton] at hle
              omega
            simp [hold, hnew]
        | cons d x =>
            have hsame : startsWithDigit (d :: x ++ new) = startsWithDigit (d :: x ++ old) := rfl
            rw [hsame]
            split
            · next hstart =>
                rw [if_pos hstart] at hle
                have hfits : digitsLength (d :: x ++ old) ≤ (d :: x).length := by
                  simp only [List.length_cons] at hle ⊢
                  omega
                rw [digitsLength_replace hfits hnew]
            · rfl
      · have hnone : ∀ s, startsFraction (c :: s) = false := by
          intro s
          rw [startsFraction]
          rintro rest heq
          exact hc (List.cons.inj heq).1
        simp [hnone]

theorem exponentLength_replace {x : List Char} (hend : exponentLength (x ++ old) = x.length)
    (hnew : startsWithDigit new = false) (hexponent : exponentLength old = 0 → exponentLength new = 0) :
    exponentLength (x ++ new) = x.length := by
  match x with
  | [] => exact hexponent hend
  | [c] =>
      simp only [List.singleton_append, exponentLength, List.length_singleton] at hend
      split at hend
      · next hletter =>
          rw [Bool.and_eq_true] at hletter
          have hpos := digitsLength_pos hletter.2
          omega
      · cases hend
  | c :: d :: x =>
      have hsplit : ∃ y, y ≠ [] ∧ 1 + signLength [d] + y.length = x.length + 2
          ∧ ∀ w, (d :: (x ++ w)).drop (signLength [d]) = y ++ w := by
        by_cases hsign : (d == '+' || d == '-') = true
        · refine ⟨x, ?_, ?_, fun w => ?_⟩
          · rintro rfl
            simp only [List.cons_append, List.nil_append, exponentLength, signLength, if_pos hsign, List.drop_one,
              List.tail_cons, List.length_cons, List.length_nil] at hend
            split at hend
            · next hletter =>
                rw [Bool.and_eq_true] at hletter
                have hpos := digitsLength_pos hletter.2
                omega
            · cases hend
          · simp [signLength, hsign]
            omega
          · simp [signLength, hsign]
        · refine ⟨d :: x, by simp, ?_, fun w => ?_⟩
          · simp [signLength, hsign]
            omega
          · simp [signLength, hsign]
      have hsign : ∀ w, signLength (d :: (x ++ w)) = signLength [d] := fun w => rfl
      obtain ⟨y, hne, hlength, hdrop⟩ := hsplit
      simp only [List.cons_append, exponentLength, hsign, hdrop, List.length_cons] at hend ⊢
      split at hend
      · next hletter =>
          have hdigits : digitsLength (y ++ new) = digitsLength (y ++ old) := digitsLength_replace (by omega) hnew
          have hstart : startsWithDigit (y ++ new) = startsWithDigit (y ++ old) := by
            cases y with
            | nil => exact absurd rfl hne
            | cons e y => rfl
          rw [hdigits, hstart, if_pos hletter]
          exact hend
      · omega

/-- A number that ends before the old text ends before the new one. -/
theorem numberLength_replace {num : List Char} (hne : num ≠ []) (hend : numberLength (num ++ old) = num.length)
    (hnew : startsWithDigit new = false) (hpoint : startsFraction old = false → startsFraction new = false)
    (hexponent : exponentLength old = 0 → exponentLength new = 0) :
    numberLength (num ++ new) = num.length := by
  obtain ⟨c, cs, rfl⟩ := List.exists_cons_of_ne_nil hne
  have hsign : signLength (c :: cs ++ new) = signLength (c :: cs ++ old) := rfl
  simp only [numberLength] at hend ⊢
  rw [hsign]
  generalize signLength (c :: cs ++ old) = sign at hend ⊢
  generalize c :: cs = num at hend ⊢
  have hdrop : ∀ {k : Nat} (w : List Char), k ≤ num.length → (num ++ w).drop k = num.drop k ++ w :=
    fun w hk => List.drop_append_of_le_length hk
  have hsignle : sign ≤ num.length := by omega
  have hdigits : digitsLength ((num ++ new).drop sign) = digitsLength ((num ++ old).drop sign) := by
    rw [hdrop _ hsignle, hdrop _ hsignle]
    refine digitsLength_replace ?_ hnew
    rw [← hdrop _ hsignle, List.length_drop]
    omega
  rw [hdigits]
  generalize sign + digitsLength ((num ++ old).drop sign) = whole at hend ⊢
  have hwholele : whole ≤ num.length := by omega
  have hfraction : fractionLength ((num ++ new).drop whole) = fractionLength ((num ++ old).drop whole) := by
    rw [hdrop _ hwholele, hdrop _ hwholele]
    refine fractionLength_replace ?_ hnew hpoint
    rw [← hdrop _ hwholele, List.length_drop]
    omega
  rw [hfraction]
  generalize whole + fractionLength ((num ++ old).drop whole) = fraction at hend ⊢
  have hfractionle : fraction ≤ num.length := by omega
  rw [hdrop _ hfractionle] at hend ⊢
  rw [exponentLength_replace (by rw [List.length_drop]; omega) hnew hexponent, List.length_drop]
  omega

theorem two_le_fractionLength {s : List Char} (h : startsFraction s = true) : 2 ≤ fractionLength s := by
  rw [fractionLength, if_pos h]
  unfold startsFraction at h
  split at h
  · have hpos := digitsLength_pos h
    rw [List.drop_one, List.tail_cons]
    omega
  · cases h

/-- A sign before a number without one is a part of it. -/
theorem numberLength_sign {c : Char} {s : List Char} (hc : (c == '+' || c == '-') = true)
    (hs : signLength s = 0) : numberLength (c :: s) = 1 + numberLength s := by
  have hsign : signLength (c :: s) = 1 := by rw [signLength, if_pos hc]
  have hdrop : ∀ n, (c :: s).drop (1 + n) = s.drop n := fun n => by rw [Nat.add_comm, List.drop_succ_cons]
  simp only [numberLength, hsign, hs, hdrop, List.drop_one, List.tail_cons, List.drop_zero, Nat.zero_add, Nat.add_assoc]

theorem startsNumber_sign {c : Char} {s : List Char} (hc : (c == '+' || c == '-') = true) :
    startsNumber (c :: s) = true ↔ signLength s = 0 ∧ startsNumber s = true := by
  rw [startsNumber, if_pos hc]
  cases s with
  | nil => simp [startsWithDigit, startsFraction, startsNumber]
  | cons d s =>
      by_cases hd : (d == '+' || d == '-') = true
      · have hnone : startsWithDigit (d :: s) = false ∧ startsFraction (d :: s) = false := by
          have hsign : d = '+' ∨ d = '-' := by simpa using hd
          rcases hsign with rfl | rfl <;> exact ⟨rfl, rfl⟩
        simp [hnone, signLength, hd]
      · simp [signLength, startsNumber, startsWithDigit, hd]

/-- What starts a number is a part of it. -/
theorem startsNumber_replace {num : List Char} (hstart : startsNumber (num ++ old) = true)
    (hend : numberLength (num ++ old) = num.length) (new : List Char) : startsNumber (num ++ new) = true := by
  -- Without a sign two characters decide.
  have hunsigned : ∀ {num : List Char}, signLength (num ++ old) = 0 → startsNumber (num ++ old) = true →
      numberLength (num ++ old) = num.length → startsNumber (num ++ new) = true := by
    intro num hsign hstart hend
    match num with
    | [] => exact absurd hend (numberLength_pos hstart).ne'
    | [c] =>
        rw [List.singleton_append] at hsign hstart hend ⊢
        have hc : ¬ (c == '+' || c == '-') = true := by
          intro hc
          rw [signLength, if_pos hc] at hsign
          cases hsign
        rw [startsNumber, if_neg hc, Bool.or_eq_true] at hstart ⊢
        refine .inl (hstart.resolve_right fun hpoint => ?_)
        have htwo := two_le_fractionLength hpoint
        have hdigits : digitsLength (c :: old) = 0 := by
          unfold startsFraction at hpoint
          split at hpoint
          · next heq =>
              cases heq
              rfl
          · cases hpoint
        simp only [numberLength, hsign, List.drop_zero, hdigits, Nat.zero_add, List.length_singleton] at hend
        omega
    | c :: d :: num =>
        have hc : ¬ (c == '+' || c == '-') = true := by
          intro hc
          rw [List.cons_append, signLength, if_pos hc] at hsign
          cases hsign
        simp only [List.cons_append, startsNumber, if_neg hc] at hstart ⊢
        have hsame : ∀ s t : List Char, startsFraction (c :: d :: s) = startsFraction (c :: d :: t) := by
          intro s t
          by_cases hpoint : c = '.'
          · subst hpoint
            rfl
          · rw [startsFraction, startsFraction] <;> simp [hpoint]
        rwa [hsame _ (num ++ old)]
  cases num with
  | nil => exact absurd hend (numberLength_pos hstart).ne'
  | cons c num =>
      by_cases hc : (c == '+' || c == '-') = true
      · rw [List.cons_append] at hstart hend ⊢
        rw [startsNumber_sign hc] at hstart ⊢
        obtain ⟨hsign, hnumber⟩ := hstart
        rw [numberLength_sign hc hsign, List.length_cons] at hend
        refine ⟨?_, hunsigned hsign hnumber (by omega)⟩
        cases num with
        | nil =>
            have hpos := numberLength_pos hnumber
            simp only [List.nil_append, List.length_nil] at hend hpos
            omega
        | cons d num => exact hsign
      · refine hunsigned ?_ hstart hend
        rw [List.cons_append, signLength, if_neg hc]

end Numbers

section Closed

variable {old : List Char}

theorem stringLength_pos (quote : Char) {s : List Char} (hne : s ≠ []) : stringLength quote s ≠ 0 := by
  unfold stringLength
  split
  · exact absurd rfl hne
  · split <;> omega
  · split <;> omega

/-- A string that ends before more text is closed, so what follows does not matter. -/
theorem stringLength_replace {quote : Char} {body : List Char} (hend : stringLength quote (body ++ old) = body.length)
    (hold : old ≠ []) (new : List Char) : stringLength quote (body ++ new) = body.length := by
  induction hn : body.length using Nat.strong_induction_on generalizing body with
  | _ n ih =>
      subst hn
      cases body with
      | nil => exact absurd hend (stringLength_pos quote hold)
      | cons c body =>
          by_cases hslash : c = '\\'
          · subst hslash
            cases body with
            | nil =>
                obtain ⟨d, old, rfl⟩ := List.exists_cons_of_ne_nil hold
                simp [stringLength] at hend
                omega
            | cons d body =>
                simp only [List.cons_append, stringLength, List.length_cons] at hend ⊢
                have hrest := ih body.length (by simp only [List.length_cons]; omega) (by omega) rfl
                omega
          · have hstep : ∀ s, stringLength quote (c :: s)
                = if (c == quote || c == '\n') = true then 1 else 1 + stringLength quote s := by
              intro s
              rw [stringLength]
              exact hslash
            rw [List.cons_append, hstep] at hend ⊢
            split
            · next hclose =>
                rw [if_pos hclose] at hend
                exact hend
            · next hclose =>
                rw [if_neg hclose, List.length_cons] at hend
                have hrest := ih body.length (by simp) (by omega) rfl
                rw [List.length_cons, hrest, Nat.add_comm]

theorem addressLength_pos {s : List Char} (hne : s ≠ []) : addressLength s ≠ 0 := by
  obtain ⟨c, s, rfl⟩ := List.exists_cons_of_ne_nil hne
  rw [addressLength]
  split
  · omega
  · split
    · next hescape =>
        have hpos := escapeLength_pos hescape
        dsimp only
        omega
    · omega

/-- So is an address. -/
theorem addressLength_replace {address : List Char} (hend : addressLength (address ++ old) = address.length)
    (hold : old ≠ []) (new : List Char) : addressLength (address ++ new) = address.length := by
  induction hn : address.length using Nat.strong_induction_on generalizing address with
  | _ n ih =>
      subst hn
      cases address with
      | nil => exact absurd hend (addressLength_pos hold)
      | cons c address =>
          rw [List.cons_append, addressLength] at hend ⊢
          split
          · next hclose =>
              rw [if_pos hclose] at hend
              exact hend
          · next hclose =>
              rw [if_neg hclose] at hend
              split at hend
              · next hescape =>
                  have hpos := escapeLength_pos hescape
                  dsimp only at hend
                  generalize hk : escapeLength (c :: (address ++ old)) = k at hend hpos
                  rw [List.length_cons] at hend
                  have hle : k - 1 ≤ address.length := by
                    by_contra hlt
                    rw [List.drop_append, List.drop_eq_nil_of_le (by omega), List.nil_append] at hend
                    omega
                  have hdrop : ∀ w : List Char, (address ++ w).drop (k - 1) = address.drop (k - 1) ++ w :=
                    fun w => List.drop_append_of_le_length hle
                  rw [hdrop] at hend
                  have hshort : (address.drop (k - 1)).length < (c :: address).length := by
                    rw [List.length_drop, List.length_cons]
                    omega
                  have hrest := ih (address.drop (k - 1)).length hshort (by rw [List.length_drop]; omega) rfl
                  have hne : address.drop (k - 1) ≠ [] := by
                    intro hnil
                    rw [hnil, List.nil_append] at hend
                    have hmore := addressLength_pos hold
                    have hnone := List.drop_eq_nil_iff.mp hnil
                    omega
                  have htext : ∀ w : List Char, c :: (address ++ w)
                      = (c :: address.take (k - 1)) ++ (address.drop (k - 1) ++ w) := by
                    intro w
                    rw [← List.append_assoc, List.cons_append, List.take_append_drop, List.cons_append]
                  have hleaves : LeavesEscape (c :: address.take (k - 1)) (address.drop (k - 1) ++ old)
                      (address.drop (k - 1) ++ new) := by
                    left
                    rw [List.head?_append_of_ne_nil _ hne, List.head?_append_of_ne_nil _ hne]
                  have hlength : (c :: address.take (k - 1)).length = k := by
                    rw [List.length_cons, List.length_take, Nat.min_eq_left hle]
                    omega
                  rw [htext] at hescape hk
                  obtain ⟨hescape', hk'⟩ := escapeLength_append hescape (by rw [hk, hlength]) hleaves
                  rw [← htext] at hescape' hk'
                  rw [if_pos hescape', hk', hk]
                  dsimp only
                  rw [hdrop, hrest, List.length_drop, List.length_cons]
                  omega
              · next hescape =>
                  cases address with
                  | nil =>
                      have hmore := addressLength_pos hold
                      simp only [List.nil_append, List.length_singleton] at hend
                      omega
                  | cons d address =>
                      have hsame : startsEscape (c :: (d :: address ++ new))
                          = startsEscape (c :: (d :: address ++ old)) := by
                        simp only [List.cons_append, startsEscape_cons_cons]
                      rw [hsame, if_neg hescape]
                      rw [List.length_cons] at hend
                      rw [ih (d :: address).length (by simp) (by omega) rfl]
                      simp only [List.length_cons]
                      omega

theorem commentLength_pos {s : List Char} (hne : s ≠ []) : commentLength s ≠ 0 := by
  unfold commentLength
  split
  · omega
  · omega
  · exact absurd rfl hne

/-- So is a comment. -/
theorem commentLength_replace {body : List Char} (hend : commentLength (body ++ old) = body.length) (hold : old ≠ [])
    (new : List Char) : commentLength (body ++ new) = body.length := by
  induction body with
  | nil => exact absurd hend (commentLength_pos hold)
  | cons c body ih =>
      have hstep : ∀ d s, commentLength (c :: d :: s)
          = if (c == '*' && d == '/') = true then 2 else 1 + commentLength (d :: s) := by
        intro d s
        by_cases hclose : c = '*' ∧ d = '/'
        · obtain ⟨rfl, rfl⟩ := hclose
          rfl
        · rw [commentLength, if_neg (by simpa using hclose)]
          rintro rest hc hd
          exact hclose ⟨hc, (List.cons.inj hd).1⟩
      cases body with
      | nil =>
          obtain ⟨d, old, rfl⟩ := List.exists_cons_of_ne_nil hold
          have hpos := commentLength_pos (List.cons_ne_nil d old)
          rw [List.singleton_append, hstep, List.length_singleton] at hend
          split at hend <;> omega
      | cons d body =>
          rw [List.cons_append, List.cons_append, hstep] at hend ⊢
          split
          · next hclose =>
              rw [if_pos hclose] at hend
              exact hend
          · next hclose =>
              rw [if_neg hclose, List.length_cons] at hend
              have hrest := ih (by rw [List.cons_append]; omega)
              rw [List.cons_append] at hrest
              rw [hrest]
              exact Nat.add_comm 1 _

end Closed

end Lexer

end CssMinify
