import CssMinify.Cascade.Exchange
import CssMinify.Proofs.Runs.Round
import CssMinify.Proofs.Selector.Reading

/-!
What is concluded from selectors that are not read to their end. The reader stops at the first token that it does
not know, and whether two selectors can meet is then decided by the subjects of what was read. What is left unread
plays no part in it: from every text with a selector in it, however much of it is unread, some other text is held to
be apart. So a conclusion vouches for a full reading only where every text that has a selector is read to its end, as
those of the grammar are.
-/

namespace CssMinify

namespace Selector

/-- Nothing of the text is left unread. -/
def IsReadToEnd (text : String) : Prop := (readList text).2 = []

instance (text : String) : Decidable (IsReadToEnd text) := inferInstanceAs (Decidable (_ = _))

section Subjects

theorem isSome_subject?_of_complexFrom {pieces : List Piece} {s : Complex} (h : (complexFrom pieces).1 = some s) :
    s.subject?.isSome = true := by
  rw [complexFrom_eq] at h
  split at h
  · cases h
  · cases h
    simp [Complex.subject?]

/-- Whatever is read has a subject. -/
theorem isSome_subject?_of_listFrom (pieces : List Piece) : ∀ s ∈ (listFrom pieces).1, s.subject?.isSome = true := by
  have hread : ∀ (pieces : List Piece), ∀ s ∈ (complexFrom pieces).1.toList, s.subject?.isSome = true :=
    fun pieces s hs => isSome_subject?_of_complexFrom (by simpa using hs)
  fun_induction listFrom pieces with
  | case1 => simp
  | case2 first pieces => exact hread (first :: pieces)
  | case3 first pieces complex p rest hspace hcomma more unread hlist ih =>
      intro s hs
      rw [hlist] at ih
      exact (List.mem_append.mp hs).elim (hread (first :: pieces) s) (ih s)
  | case4 first pieces => exact hread (first :: pieces)

theorem isSome_subject?_of_parseList {text : String} {selectors : List Complex} (h : parseList text = .ok selectors) :
    ∀ s ∈ selectors, s.subject?.isSome = true := by
  rw [parseList] at h
  split at h
  · cases h
    exact isSome_subject?_of_listFrom _
  · cases h

end Subjects

/-- Two texts are held to be apart if a selector was read from either, and no two of these can meet. -/
theorem neverMeet_eq_ok_true {semantic : Bool} {s t : String} :
    neverMeet semantic [s] [t] = .ok true ↔ ∃ ls rs, parseList s = .ok ls ∧ parseList t = .ok rs ∧ ls ≠ [] ∧ rs ≠ []
      ∧ ∀ l ∈ ls, ∀ r ∈ rs, l.mayOverlap semantic r = false := by
  cases hs : parseList s with
  | error fault => simp [neverMeet, List.allM, hs, bind, Except.bind]
  | ok ls =>
      cases ht : parseList t with
      | error fault => simp [neverMeet, List.allM, hs, ht, bind, Except.bind]
      | ok rs =>
          have hanswer : neverMeet semantic [s] [t]
              = .ok (!ls.isEmpty && !rs.isEmpty && ls.all fun l => rs.all fun r => !l.mayOverlap semantic r) := by
            simp only [neverMeet, List.allM, hs, ht, bind, Except.bind, pure, Except.pure]
            cases (!ls.isEmpty && !rs.isEmpty && ls.all fun l => rs.all fun r => !l.mayOverlap semantic r) <;> rfl
          rw [hanswer]
          simp [and_assoc]

/-- There is always a name that none of these is. -/
theorem exists_fresh (names : List String) : ∃ name, isIdentifier name = true ∧ name ∉ names := by
  let name := String.ofList ('a' :: List.replicate (total String.length names) 'a')
  have hchars : name.toList = 'a' :: List.replicate (total String.length names) 'a' := String.toList_ofList
  refine ⟨name, ?_, fun hmem => ?_⟩
  · rw [isIdentifier, hchars]
    have hletter : 'a'.isLower = true := rfl
    simp [hletter]
  · have hle := le_total_of_mem String.length hmem
    have hlength : name.length = total String.length names + 1 := by
      rw [← String.length_toList, hchars, List.length_cons, List.length_replicate]
    omega

theorem isSpace_of_mem_empty : ∀ c ∈ "".toList, Lexer.isSpace c = true := List.all_eq_true.mp rfl

/-- A pseudo-element that stands alone. -/
def loner (name : String) : Chain where
  lead := ⟨"", isSpace_of_mem_empty⟩
  first := [.pseudoElement name true]
  links := []
  trail := ⟨"", isSpace_of_mem_empty⟩

theorem isPlain_loner {name : String} (h : isIdentifier name = true) : ∀ c ∈ [loner name], c.IsPlain := by
  have hcompound : Compound.IsPlain [.pseudoElement name true] :=
    ⟨by simp, by simpa using Simple.IsPlain.pseudoElement h, by simp⟩
  simpa [Chain.IsPlain, Chain.compounds, loner] using hcompound

/-- Compounds of different pseudo-elements exclude each other. -/
theorem excludes_of_ne {semantic : Bool} {x y : Compound} (h : x.pseudoElement? ≠ y.pseudoElement?) :
    x.excludes semantic y = true := by
  have hne : (x.pseudoElement? != y.pseudoElement?) = true := bne_iff_ne.mpr h
  simp [Compound.excludes, hne]

/-- Some text that is read to its end is held to be apart from a text with a selector in it, on either side. -/
theorem exists_neverMeet {s : String} {selectors : List Complex} (h : parseList s = .ok selectors)
    (hne : selectors ≠ []) :
    ∃ t, IsReadToEnd t ∧ neverMeet false [s] [t] = .ok true ∧ neverMeet false [t] [s] = .ok true := by
  obtain ⟨name, hname, hfresh⟩ := exists_fresh (selectors.filterMap fun l => l.subject?.bind Compound.pseudoElement?)
  have hplain := isPlain_loner hname
  have hparse : parseList (textOfAll [loner name]) = .ok [(loner name).complex] := parseList_textOfAll hplain
  have hsubject : (loner name).complex.subject? = some [.pseudoElement name true] := rfl
  have happart : ∀ l ∈ selectors, ∃ x, l.subject? = some x
      ∧ x.pseudoElement? ≠ Compound.pseudoElement? [.pseudoElement name true] := by
    intro l hl
    obtain ⟨x, hx⟩ := Option.isSome_iff_exists.mp (isSome_subject?_of_parseList h l hl)
    refine ⟨x, hx, fun heq => hfresh (List.mem_filterMap.mpr ⟨l, hl, ?_⟩)⟩
    rw [hx]
    exact heq
  refine ⟨textOfAll [loner name], congrArg Prod.snd (readList_textOfAll hplain), ?_, ?_⟩
  · refine neverMeet_eq_ok_true.mpr ⟨_, _, h, hparse, hne, by simp, fun l hl r hr => ?_⟩
    obtain ⟨x, hx, hdiffer⟩ := happart l hl
    rw [List.mem_singleton.mp hr, Complex.mayOverlap, hx, hsubject]
    simp [excludes_of_ne hdiffer]
  · refine neverMeet_eq_ok_true.mpr ⟨_, _, hparse, h, by simp, hne, fun l hl r hr => ?_⟩
    obtain ⟨x, hx, hdiffer⟩ := happart r hr
    rw [List.mem_singleton.mp hl, Complex.mayOverlap, hx, hsubject]
    simp [excludes_of_ne hdiffer.symm]

/-- Being held apart from another text vouches for a text being read to its end exactly if it is read to its end
anyway, or no selector is read from it at all. -/
theorem neverMeet_vouches_iff (s : String) :
    (∀ t, neverMeet false [s] [t] = .ok true ∨ neverMeet false [t] [s] = .ok true → IsReadToEnd s)
      ↔ IsReadToEnd s ∨ ∀ selectors, parseList s = .ok selectors → selectors = [] := by
  constructor
  · intro hvouches
    refine or_iff_not_imp_right.mpr fun hsome => ?_
    obtain ⟨selectors, hparse, hne⟩ : ∃ selectors, parseList s = .ok selectors ∧ selectors ≠ [] := by simpa using hsome
    obtain ⟨t, -, hleft, -⟩ := exists_neverMeet hparse hne
    exact hvouches t (.inl hleft)
  · rintro (hend | hnone) t hmeet
    · exact hend
    · rcases hmeet with hmeet | hmeet
      · obtain ⟨ls, rs, hparse, -, hne, -⟩ := neverMeet_eq_ok_true.mp hmeet
        exact absurd (hnone ls hparse) hne
      · obtain ⟨ls, rs, -, hparse, -, hne, -⟩ := neverMeet_eq_ok_true.mp hmeet
        exact absurd (hnone rs hparse) hne

/-- A type with a namespace is read up to the bar, and held to be apart from the type itself. -/
theorem neverMeet_namespace : neverMeet false ["svg|a"] ["a"] = .ok true ∧ ¬ IsReadToEnd "svg|a" := by
  decide +kernel

end Selector

end CssMinify
