import CssMinify.Rules.Basic

/-!
Merging rules with other nodes between them. Each rule is compared with the nearest earlier one that it
can be merged with; then the earlier one travels down, or else the later one travels up.
-/

namespace CssMinify

/-- Cuts a list at the last element that satisfies `p`. -/
def cutAtLast? {α : Type} (p : α → Bool) : List α → Option (List α × α × List α)
  | [] => none
  | a :: rest =>
    match cutAtLast? p rest with
    | some (before, last, after) => some (a :: before, last, after)
    | none => if p a then some ([], a, rest) else none

theorem eq_of_cutAtLast? {α : Type} {p : α → Bool} {l before after : List α} {last : α}
    (h : cutAtLast? p l = some (before, last, after)) : l = before ++ last :: after := by
  induction l generalizing before with
  | nil => simp [cutAtLast?] at h
  | cons a rest ih =>
    rw [cutAtLast?] at h
    split at h
    · next e =>
      simp only [Option.some.injEq, Prod.mk.injEq] at h
      obtain ⟨rfl, rfl, rfl⟩ := h
      rw [ih e, List.cons_append]
    · split at h
      · simp only [Option.some.injEq, Prod.mk.injEq] at h
        obtain ⟨rfl, rfl, rfl⟩ := h
        rfl
      · cases h

/-- A way to make one rule out of two. -/
structure Merger where
  /-- Which rules are merged. -/
  fits : Rule → Rule → Bool
  /-- What the later rule becomes when the earlier one travels down to it. -/
  below : Rule → Rule → Rule
  /-- What the earlier rule becomes when the later one travels up to it. -/
  above : Rule → Rule → Rule

namespace Merger

/-- Rules that repeat a selector list pool their declarations. -/
def bySelector (config : Config) : Merger where
  fits := Rule.sameSelectors
  below first second := { second with declarations := first.bodyWith config second }
  above first second := { first with declarations := first.bodyWith config second }

/-- Rules that repeat a body pool their selectors. -/
def byBody (config : Config) : Merger where
  fits := Rule.mayShareBody config
  below first second := { second with selectors := first.selectorsWith second }
  above first second := { first with selectors := first.selectorsWith second }

end Merger

namespace Siblings

/-- Does the node hold a plain rule that can be merged with `later`? -/
def isPartner (m : Merger) (later : Rule) (node : Node) : Bool :=
  node.plainRule?.any fun earlier => m.fits earlier later

/-- Puts a node behind the nodes `done`, merged with the nearest partner if one of the two may travel. -/
def addMerging (semantic : Bool) (m : Merger) (done : List Node) (node : Node) : Attempt (List Node) :=
  match node.plainRule? with
  | none => .ok (done ++ [node])
  | some later =>
    match cutAtLast? (isPartner m later) done with
    | some (before, .rule earlier, between) => do
      if ← (Node.rule earlier).mayTravel semantic between then
        return before ++ between ++ [.rule (m.below earlier later)]
      else if ← node.mayTravel semantic between then
        return before ++ .rule (m.above earlier later) :: between
      else return done ++ [node]
    | _ => .ok (done ++ [node])

/-- Merges each node in turn with those in front of it. -/
def mergeDistant (semantic : Bool) (m : Merger) (nodes : List Node) : Attempt (List Node) :=
  nodes.foldlM (addMerging semantic m) []

/-- Merges rules that repeat a selector list. -/
def mergeBySelector (config : Config) (nodes : List Node) : Attempt (List Node) :=
  mergeDistant config.options.mergeSemantically (Merger.bySelector config) nodes

/-- Merges rules that repeat a body. -/
def mergeByBody (config : Config) (nodes : List Node) : Attempt (List Node) :=
  mergeDistant config.options.mergeSemantically (Merger.byBody config) nodes

end Siblings

end CssMinify
