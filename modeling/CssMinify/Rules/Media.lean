import CssMinify.Rules.Distant
import CssMinify.Rules.Duplicates

/-!
Blocks for media: dropping repeated ones, and merging those with the same head.
-/

namespace CssMinify

namespace Node

/-- The head and the children of a block for media. -/
def media? : Node → Option (String × List Node)
  | block head children =>
    if Text.startsWith (Text.lower head) "@media" then some (head, children) else none
  | _ => none

end Node

namespace Siblings

/-- Two blocks for media that are the same. -/
def isRepeatedMedia (a b : Node) : Bool := a.media?.isSome && a == b

/-- Drops blocks for media that are repeated later on. -/
def removeDuplicateMedia (config : Config) (nodes : List Node) : Attempt (List Node) :=
  keepLastFrom config.options.mergeSemantically isRepeatedMedia [] nodes

/-- A block for media with this head. -/
def isMediaWith (head : String) (node : Node) : Bool := node.media?.any fun (h, _) => h == head

/-- A node that has been looked at is not looked at again unless blocks are merged. -/
theorem measure_lookedAt_lt (done : List Node) (node : Node) (rest : List Node) :
    ((done ++ [node]).length + rest.length) * ((done ++ [node]).length + rest.length) + rest.length
      < (done.length + (node :: rest).length) * (done.length + (node :: rest).length) + (node :: rest).length := by
  have hsame : (done ++ [node]).length + rest.length = done.length + (node :: rest).length := by
    simp; omega
  rw [hsame]
  exact Nat.add_lt_add_left (Nat.lt_succ_self _) _

/-- However many nodes are looked at once more, there is one less than before. -/
theorem measure_merged_lt {nodes nodes' left left' : Nat} (h : nodes' < nodes) (hleft : left' ≤ nodes') :
    nodes' * nodes' + left' < nodes * nodes + left :=
  calc nodes' * nodes' + left' ≤ nodes' * (nodes' + 1) := Nat.add_le_add_left hleft _
    _ < (nodes' + 1) * (nodes' + 1) := Nat.mul_lt_mul_of_pos_right (Nat.lt_succ_self _) (Nat.succ_pos _)
    _ ≤ nodes * nodes := Nat.mul_le_mul h h
    _ ≤ nodes * nodes + left := Nat.le_add_right _ _

/-- Merges blocks for media, where the nodes `done` have been looked at. A block is compared with the
nearest earlier one with the same head; it travels up, or else the earlier one travels down. What the
merged block holds is optimized by `again`, and then the nodes after it are looked at once more. -/
def mergeMediaFrom (semantic : Bool) (again : List Node → Attempt (List Node)) (done rest : List Node) :
    Attempt (List Node) :=
  match rest with
  | [] => .ok done
  | node :: rest =>
    match node.media? with
    | none => mergeMediaFrom semantic again (done ++ [node]) rest
    | some (head, later) =>
      match _found : cutAtLast? (isMediaWith head) done with
      | some (before, .block _ earlier, between) => do
        if ← node.mayTravel semantic between then
          let children ← again (earlier ++ later)
          mergeMediaFrom semantic again (before ++ [.block head children]) (between ++ rest)
        else if ← (Node.block head earlier).mayTravel semantic between then
          let children ← again (earlier ++ later)
          mergeMediaFrom semantic again (before ++ between ++ [.block head children]) rest
        else mergeMediaFrom semantic again (done ++ [node]) rest
      | _ => mergeMediaFrom semantic again (done ++ [node]) rest
termination_by (done.length + rest.length) * (done.length + rest.length) + rest.length
decreasing_by
  · exact measure_lookedAt_lt done node rest
  · apply measure_merged_lt
    · simp [eq_of_cutAtLast? _found]; omega
    · simp
  · apply measure_merged_lt
    · simp [eq_of_cutAtLast? _found]
    · simp
  · exact measure_lookedAt_lt done node rest
  · exact measure_lookedAt_lt done node rest

end Siblings

end CssMinify
