import CssMinify.Selector.Parser
import Mathlib.Data.List.DropRight

/-!
The reader of selectors, one equation for each thing that a step can do. The loops of the reader carry proofs that
they come to an end; here they are without.
-/

namespace CssMinify

namespace Selector

namespace Piece

/-- A token without a comment before it. -/
def bare (t : Token) : Piece := ⟨"", t⟩

theorem ofTokens_of_forall {ts : List Token} (h : ∀ t ∈ ts, t.kind ≠ .comment) : ofTokens ts = ts.map bare := by
  rw [ofTokens]
  induction ts with
  | nil => rfl
  | cons t ts ih =>
      rw [ofTokensAfter, if_neg (by simpa using h t List.mem_cons_self),
        ih fun u hu => h u (List.mem_cons_of_mem t hu)]
      rfl

theorem skipSpace_of_ne {p : Piece} (h : p.kind ≠ .whitespace) (pieces : List Piece) :
    skipSpace (p :: pieces) = p :: pieces :=
  List.dropWhile_cons_of_neg (by simpa using h)

theorem skipSpace_of_eq {p : Piece} (h : p.kind = .whitespace) (pieces : List Piece) :
    skipSpace (p :: pieces) = skipSpace pieces :=
  List.dropWhile_cons_of_pos (by simpa using h)

end Piece

section Compounds

variable {started : Bool} {p : Piece} {pieces rest : List Piece}

@[simp] theorem compoundFrom_nil : compoundFrom started [] = ([], []) := by rw [compoundFrom]

theorem compoundFrom_found {simple : Simple} (h : SimpleStep.read started p pieces = .found simple rest) :
    compoundFrom started (p :: pieces) = (simple :: (compoundFrom true rest).1, (compoundFrom true rest).2) := by
  rw [compoundFrom]
  split
  · next heq =>
      obtain ⟨rfl, rfl⟩ := SimpleStep.found.inj (h.symm.trans heq)
      rfl
  · next heq => cases h.symm.trans heq
  · next heq => cases h.symm.trans heq

theorem compoundFrom_skipped (h : SimpleStep.read started p pieces = .skipped rest) :
    compoundFrom started (p :: pieces) = compoundFrom started rest := by
  rw [compoundFrom]
  split
  · next heq => cases h.symm.trans heq
  · next heq =>
      obtain rfl := SimpleStep.skipped.inj (h.symm.trans heq)
      rfl
  · next heq => cases h.symm.trans heq

theorem compoundFrom_stopped (h : SimpleStep.read started p pieces = .stopped rest) :
    compoundFrom started (p :: pieces) = ([], rest) := by
  rw [compoundFrom]
  split
  · next heq => cases h.symm.trans heq
  · next heq => cases h.symm.trans heq
  · next heq =>
      obtain rfl := SimpleStep.stopped.inj (h.symm.trans heq)
      rfl

end Compounds

/-- Links go on as long as a combinator and a compound follow. -/
theorem linksFrom_eq (pieces : List Piece) :
    linksFrom pieces
      = match readCombinator? ((Piece.skipSpace pieces).length < pieces.length) (Piece.skipSpace pieces) with
        | none => ([], Piece.skipSpace pieces)
        | some (combinator, start) =>
          if (compoundFrom false start).1 = [] then ([], start)
          else
            (⟨(compoundFrom false start).1, some combinator⟩ :: (linksFrom (compoundFrom false start).2).1,
              (linksFrom (compoundFrom false start).2).2) := by
  rw [linksFrom]
  cases hread : readCombinator? ((Piece.skipSpace pieces).length < pieces.length) (Piece.skipSpace pieces) with
  | none => simp
  | some found =>
      obtain ⟨combinator, start⟩ := found
      dsimp only
      split
      · next heq => simp [heq]
      · next heq => simp [heq]

/-- A complex selector is a compound and its links. -/
theorem complexFrom_eq (pieces : List Piece) :
    complexFrom pieces
      = if (compoundFrom false pieces).1 = [] then (none, (compoundFrom false pieces).2)
        else
          (some ⟨(⟨(compoundFrom false pieces).1, none⟩ :: (linksFrom (compoundFrom false pieces).2).1).reverse⟩,
            (linksFrom (compoundFrom false pieces).2).2) := by
  rw [complexFrom]
  cases compoundFrom false pieces with
  | mk simples rest => cases simples <;> simp

@[simp] theorem listFrom_nil : listFrom [] = ([], []) := by rw [listFrom]

/-- A list goes on after a comma. -/
theorem listFrom_eq {pieces : List Piece} (hne : pieces ≠ []) :
    listFrom pieces
      = match Piece.skipSpace (complexFrom pieces).2 with
        | [] => ((complexFrom pieces).1.toList, [])
        | p :: rest =>
          if p.kind = .comma then
            ((complexFrom pieces).1.toList ++ (listFrom (Piece.skipSpace rest)).1, (listFrom (Piece.skipSpace rest)).2)
          else ((complexFrom pieces).1.toList, p :: rest) := by
  cases pieces with
  | nil => exact absurd rfl hne
  | cons first pieces =>
      rw [listFrom]
      cases hspace : Piece.skipSpace (complexFrom (first :: pieces)).2 with
      | nil => simp
      | cons p rest => by_cases hcomma : p.kind = .comma <;> simp [hcomma]

end Selector

end CssMinify
