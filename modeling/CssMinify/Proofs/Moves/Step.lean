import CssMinify.Rules.Media
import Mathlib.Logic.Relation

/-! The small steps that passes over siblings are made of. Neighbours change places where every declaration
of one may change places with every declaration of the other; rules are cut and joined; repeated nodes are
dropped; and what has been joined is optimized again. A node that may travel past others gets there by
exchanges with one neighbour after the other. -/

namespace CssMinify

/-- One node may change places with another. -/
structure Node.Passes (semantic : Bool) (mover other : Node) : Prop where
  notSealed : mover.isSealed = false
  noLayer : mover.mentionsLayer = false
  otherNotSealed : other.isSealed = false
  exchange : ∀ t ∈ mover.touches, ∀ u ∈ other.touches, t.mayExchange semantic u = .ok true

namespace Siblings

/-- What becomes of neighbouring nodes in one step, where `again` optimizes what joined blocks hold. -/
inductive Move (config : Config) (again : List Node → Attempt (List Node)) : List Node → List Node → Prop
  | descend {mover other : Node} (h : mover.Passes config.options.mergeSemantically other) :
      Move config again [mover, other] [other, mover]
  | ascend {mover other : Node} (h : mover.Passes config.options.mergeSemantically other) :
      Move config again [other, mover] [mover, other]
  | swap {r : Rule} {front back : List Declaration} {a b : Declaration} (hnested : r.nested = [])
      (hbody : r.declarations = front ++ a :: b :: back)
      (hfree : (Touch.ofDeclaration r.selectors b).mayExchange config.options.mergeSemantically
        (Touch.ofDeclaration r.selectors a) = .ok true) :
      Move config again [.rule r] [.rule { r with declarations := front ++ b :: a :: back }]
  | cut {r : Rule} {front back : List Declaration} (hnested : r.nested = []) (hfront : front ≠ [])
      (hback : back ≠ []) (hbody : r.declarations = front ++ back) :
      Move config again [.rule r]
        [.rule { r with declarations := front }, .rule { r with declarations := back }]
  | joinBodies {r s t : Rule} (hr : r.nested = []) (hs : s.nested = []) (hkey : r.sameSelectors s = true)
      (ht : t = r ∨ t = s) :
      Move config again [.rule r, .rule s]
        [.rule { t with declarations := r.declarations ++ s.declarations }]
  | joinSelectors {r s t : Rule} (hr : r.nested = []) (hs : s.nested = []) (hbody : r.sameBody s = true)
      (ht : t = r ∨ t = s) :
      Move config again [.rule r, .rule s] [.rule { t with selectors := r.selectorsWith s }]
  | dropRule {r s : Rule} (hr : r.nested = []) (hs : s.nested = []) (hkey : r.sameSelectors s = true)
      (hbody : r.sameBody s = true) : Move config again [.rule r, .rule s] [.rule s]
  | dropMedia {node : Node} (hmedia : node.media?.isSome = true) : Move config again [node, node] [node]
  | joinMedia {head : String} {cs ds : List Node} (hmedia : (Node.block head cs).media?.isSome = true) :
      Move config again [.block head cs, .block head ds] [.block head (cs ++ ds)]
  | optimizeBody {r : Rule} (hnested : r.nested = []) :
      Move config again [.rule r] [.rule { r with declarations := Body.optimize config r.declarations }]
  | optimizeMedia {head : String} {cs ds : List Node} (hmedia : (Node.block head cs).media?.isSome = true)
      (hagain : again cs = .ok ds) : Move config again [.block head cs] [.block head ds]

/-- A move somewhere in a list of siblings. -/
inductive Step (config : Config) (again : List Node → Attempt (List Node)) : List Node → List Node → Prop
  | intro {xs ys : List Node} (before after : List Node) (h : Move config again xs ys) :
      Step config again (before ++ (xs ++ after)) (before ++ (ys ++ after))

/-- What finitely many steps lead to. -/
abbrev Reach (config : Config) (again : List Node → Attempt (List Node)) : List Node → List Node → Prop :=
  Relation.ReflTransGen (Step config again)

section Reach

variable {config : Config} {again : List Node → Attempt (List Node)} {xs ys : List Node}

theorem Move.reach (h : Move config again xs ys) : Reach config again xs ys := by
  have hstep := Step.intro [] [] h
  rw [List.append_nil, List.append_nil] at hstep
  exact .single hstep

theorem Step.within (before after : List Node) (h : Step config again xs ys) :
    Step config again (before ++ (xs ++ after)) (before ++ (ys ++ after)) := by
  obtain ⟨front, back, hmove⟩ := h
  have hstep := Step.intro (before ++ front) (back ++ after) hmove
  simp only [List.append_assoc] at hstep ⊢
  exact hstep

theorem Reach.within (before after : List Node) (h : Reach config again xs ys) :
    Reach config again (before ++ (xs ++ after)) (before ++ (ys ++ after)) := by
  induction h with
  | refl => exact .refl
  | tail _ hstep ih => exact ih.tail (hstep.within before after)

theorem Reach.after (before : List Node) (h : Reach config again xs ys) :
    Reach config again (before ++ xs) (before ++ ys) := by
  have hwithin := h.within before []
  rw [List.append_nil, List.append_nil] at hwithin
  exact hwithin

theorem Reach.before (after : List Node) (h : Reach config again xs ys) :
    Reach config again (xs ++ after) (ys ++ after) :=
  h.within [] after

end Reach

end Siblings

theorem Except.allM_eq_ok_true {α ε : Type} {test : α → Except ε Bool} {as : List α} :
    as.allM test = .ok true ↔ ∀ a ∈ as, test a = .ok true := by
  induction as with
  | nil => simp [List.allM, pure, Except.pure]
  | cons a as ih =>
      rw [List.allM, List.forall_mem_cons, ← ih]
      cases htest : test a with
      | error fault => simp [bind, Except.bind]
      | ok kept => cases kept <;> simp [bind, Except.bind, pure, Except.pure]

namespace Touch

theorem mayExchangeAll_eq_ok_true {semantic : Bool} {moving fixed : List Touch} :
    mayExchangeAll semantic moving fixed = .ok true ↔
      ∀ t ∈ moving, ∀ u ∈ fixed, t.mayExchange semantic u = .ok true := by
  rw [mayExchangeAll, Except.allM_eq_ok_true]
  simp only [Except.allM_eq_ok_true]

end Touch

namespace Node

theorem anySealed_eq (nodes : List Node) : anySealed nodes = nodes.any isSealed := by
  induction nodes with
  | nil => simp [anySealed]
  | cons node nodes ih => rw [anySealed, ih, List.any_cons]

theorem touchesOfAll_eq (nodes : List Node) : touchesOfAll nodes = nodes.flatMap touches := by
  induction nodes with
  | nil => simp [touchesOfAll]
  | cons node nodes ih => rw [touchesOfAll, ih, List.flatMap_cons]

theorem passes_of_mayTravel {semantic : Bool} {mover : Node} {between : List Node}
    (h : mover.mayTravel semantic between = .ok true) : ∀ other ∈ between, mover.Passes semantic other := by
  intro other hother
  rw [mayTravel] at h
  split at h
  case isTrue => cases h
  next hguard =>
  simp only [Bool.or_eq_true, not_or, Bool.not_eq_true, anySealed_eq, List.any_eq_false] at hguard
  obtain ⟨⟨hmover, hlayer⟩, hsealed⟩ := hguard
  rw [Touch.mayExchangeAll_eq_ok_true, touchesOfAll_eq] at h
  refine ⟨hmover, hlayer, by simpa using hsealed other hother, ?_⟩
  intro t ht u hu
  exact h t ht u (List.mem_flatMap.mpr ⟨other, hother, hu⟩)

end Node

namespace Siblings

variable {config : Config} (again : List Node → Attempt (List Node)) {mover : Node} {between : List Node}

/-- A node gets below all that it may pass. -/
theorem reach_below (h : ∀ other ∈ between, mover.Passes config.options.mergeSemantically other) :
    Reach config again (mover :: between) (between ++ [mover]) := by
  induction between with
  | nil => exact .refl
  | cons other between ih =>
      have hfirst : Reach config again (mover :: other :: between) (other :: mover :: between) :=
        (Move.descend (h other List.mem_cons_self)).reach.before between
      have hrest := ih fun node hnode => h node (List.mem_cons_of_mem other hnode)
      exact hfirst.trans (hrest.after [other])

/-- A node gets above all that it may pass. -/
theorem reach_above (h : ∀ other ∈ between, mover.Passes config.options.mergeSemantically other) :
    Reach config again (between ++ [mover]) (mover :: between) := by
  induction between with
  | nil => exact .refl
  | cons other between ih =>
      have hlast : Reach config again (other :: mover :: between) (mover :: other :: between) :=
        (Move.ascend (h other List.mem_cons_self)).reach.before between
      have hrest := ih fun node hnode => h node (List.mem_cons_of_mem other hnode)
      exact (hrest.after [other]).trans hlast

end Siblings

end CssMinify
