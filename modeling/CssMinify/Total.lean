/-!
Sums over lists.
-/

namespace CssMinify

/-- The sum of a measure over a list. -/
def total {α : Type} (measure : α → Nat) : List α → Nat
  | [] => 0
  | a :: rest => measure a + total measure rest

theorem total_append {α : Type} (measure : α → Nat) (l m : List α) :
    total measure (l ++ m) = total measure l + total measure m := by
  induction l with
  | nil => simp [total]
  | cons a rest ih => simp [total, ih, Nat.add_assoc]

end CssMinify
