import CssMinify.Proofs.Runs.Edit
import CssMinify.Proofs.Stability.Bodies

/-!
What a run leaves holds no value that could be shortened. Bodies are shortened first, and no edit puts a value
together that is not short; only what stands beside the frames of an animation is never looked at.
-/

namespace CssMinify

theorem Attempt.mapM_eq_ok_iff {α β : Type} {f : α → Attempt β} {as : List α} {bs : List β} :
    as.mapM f = .ok bs ↔ List.Forall₂ (fun a b => f a = .ok b) as bs := by
  constructor
  · intro h
    induction as generalizing bs with
    | nil =>
        cases h
        exact .nil
    | cons a as ih =>
        rw [List.mapM_cons] at h
        obtain ⟨b, hb, h⟩ := exists_of_bind h
        obtain ⟨rest, hrest, h⟩ := exists_of_bind h
        cases h
        exact .cons hb (ih hrest)
  · intro h
    induction h with
    | nil => rfl
    | cons hb _ ih =>
        rw [List.mapM_cons, hb, ih]
        rfl

namespace Node

/-- The declarations of a frame of an animation. -/
def frameBody : Node → List Declaration
  | rule r => r.declarations
  | _ => []

mutual

/-- The declarations that a run shortens. Inside an animation these are the ones in its frames. -/
def shortened : Node → List Declaration
  | rule r => r.declarations
  | fields _ declarations => declarations
  | block head children => if isKeyframesHead head then children.flatMap frameBody else shortenedOfAll children
  | statement _ | comment _ => []

def shortenedOfAll : List Node → List Declaration
  | [] => []
  | node :: rest => node.shortened ++ shortenedOfAll rest

end

theorem shortenedOfAll_eq (nodes : List Node) : shortenedOfAll nodes = nodes.flatMap shortened := by
  induction nodes with
  | nil => rfl
  | cons node nodes ih => rw [shortenedOfAll, ih, List.flatMap_cons]

end Node

namespace Siblings

section Shortened

variable {config : Config} {collect : Node → List Declaration} {xs ys : List Node}

/-- A way to collect declarations from a node: all those of a rule, and none that merging blocks would add. -/
structure Collects (collect : Node → List Declaration) : Prop where
  rule : ∀ r, collect (.rule r) = r.declarations
  fields : ∀ head declarations, collect (.fields head declarations) ⊆ declarations
  block : ∀ head cs ds, collect (.block head (cs ++ ds)) ⊆ collect (.block head cs) ++ collect (.block head ds)

/-- None of the declarations that are collected from siblings could be shortened. -/
def AreShort (profile : Profile) (collect : Node → List Declaration) (nodes : List Node) : Prop :=
  ∀ node ∈ nodes, ∀ d ∈ collect node, d.IsMinified profile

/-- A move puts optimized bodies into the rules it changes. -/
theorem mem_apply {h : Hoist} {nodes : List Node} {node : Node} (hmem : node ∈ h.apply config nodes) :
    node ∈ nodes ∨ ∃ (r : Rule) (ds : List Declaration), node = .rule { r with declarations := Body.optimize config ds } := by
  rw [Hoist.apply, List.mem_append, List.mem_cons, List.mem_filterMap] at hmem
  rcases hmem with hmem | rfl | ⟨⟨old, place⟩, hold, hnode⟩
  · exact .inl (List.mem_of_mem_take hmem)
  · exact .inr ⟨h.rule config, h.declarations, rfl⟩
  have hnodes : old ∈ nodes :=
    List.mem_of_getElem? (List.mem_zipIdx_iff_getElem?.mp (List.mem_of_mem_drop hold))
  dsimp only at hnode
  split at hnode
  case isFalse =>
    cases hnode
    exact .inl hnodes
  unfold Hoist.strip at hnode
  split at hnode
  · next r =>
      dsimp only at hnode
      split at hnode
      · cases hnode
      · exact .inr ⟨r, _, (Option.some.inj hnode).symm⟩
  · split at hnode
    · cases hnode
    · cases hnode
      exact .inl hnodes

/-- Edits bring in no value that could be shortened, if those inside blocks do not. -/
theorem Edit.areShort (hcollect : Collects collect)
    (hinside : ∀ head cs ds, Edit config cs ds →
      (AreShort config.profile collect cs → AreShort config.profile collect ds) →
      AreShort config.profile collect [.block head cs] → AreShort config.profile collect [.block head ds])
    (h : Edit config xs ys) : AreShort config.profile collect xs → AreShort config.profile collect ys := by
  have hrule {r : Rule} : AreShort config.profile collect [.rule r] ↔ ∀ d ∈ r.declarations, d.IsMinified config.profile := by
    rw [AreShort, List.forall_mem_singleton, hcollect.rule]
  have hrules {r s t : Rule} (ht : t = r ∨ t = s) (hboth : AreShort config.profile collect [.rule r, .rule s]) :
      ∀ d ∈ t.declarations, d.IsMinified config.profile := by
    rw [← hrule, AreShort, List.forall_mem_singleton]
    rcases ht with rfl | rfl <;> exact hboth _ (by simp)
  induction h with
  | within before after _ ih =>
      simp only [AreShort, List.forall_mem_append] at ih ⊢
      exact fun ⟨hbefore, hxs, hafter⟩ => ⟨hbefore, ih hxs, hafter⟩
  | inside head h ih => exact hinside head _ _ h ih
  | sink _ => exact fun h node hnode => h node ((List.perm_append_singleton _ _).mem_iff.mp hnode)
  | rise _ => exact fun h node hnode => h node ((List.perm_append_singleton _ _).mem_iff.mpr hnode)
  | dropRule => exact fun h node hnode => h node (List.mem_cons_of_mem _ hnode)
  | dropMedia => exact fun h node hnode => h node (List.mem_cons_of_mem _ hnode)
  | dropFont =>
      exact fun h node hnode => h node (((List.sublist_append_left _ _).cons_cons _).subset hnode)
  | dropEmpty => exact fun _ node hnode => nomatch hnode
  | joinBodies _ _ _ _ => exact fun _ => hrule.mpr (Body.isMinified_optimize config _)
  | joinSelectors _ _ _ ht => exact fun h => hrule.mpr fun d hd => hrules ht h d hd
  | @joinMedia head cs ds _ =>
      intro h
      rw [AreShort, List.forall_mem_singleton]
      intro d hd
      rcases List.mem_append.mp (hcollect.block head cs ds hd) with hd | hd
      · exact h _ (by simp) d hd
      · exact h _ (by simp) d hd
  | hoist _ =>
      intro h node hnode
      rcases mem_apply hnode with hold | ⟨r, ds, rfl⟩
      · exact h node hold
      · rw [hcollect.rule]
        exact Body.isMinified_optimize config ds
  | optimizeBody r => exact fun _ => hrule.mpr (Body.isMinified_optimize config _)
  | minifyBody r =>
      exact fun _ => hrule.mpr (List.forall_mem_map.mpr fun d _ => d.isMinified_minify config.profile)
  | optimizeFields head ds =>
      intro _
      rw [AreShort, List.forall_mem_singleton]
      exact fun d hd => Body.isMinified_optimize config ds d (hcollect.fields head _ hd)

theorem collects_frameBody : Collects Node.frameBody where
  rule _ := rfl
  fields _ _ := List.nil_subset _
  block _ _ _ := List.nil_subset _

theorem collects_shortened : Collects Node.shortened where
  rule _ := rfl
  fields _ _ := List.Subset.refl _
  block head cs ds := by
    simp only [Node.shortened, Node.shortenedOfAll_eq, List.flatMap_append]
    split <;> exact List.Subset.refl _

theorem Edit.areShort_frames (h : Edit config xs ys) :
    AreShort config.profile Node.frameBody xs → AreShort config.profile Node.frameBody ys := by
  refine h.areShort collects_frameBody fun head cs ds _ _ _ => ?_
  simp [AreShort, Node.frameBody]

theorem areShort_block {profile : Profile} {head : String} {children : List Node} :
    AreShort profile Node.shortened [.block head children] ↔
      AreShort profile (if Node.isKeyframesHead head then Node.frameBody else Node.shortened) children := by
  rw [AreShort, List.forall_mem_singleton, Node.shortened, Node.shortenedOfAll_eq, AreShort]
  split <;> simp only [List.mem_flatMap, forall_exists_index, and_imp] <;>
    exact ⟨fun h node hnode d hd => h d node hnode hd, fun h d node hnode hd => h node hnode d hd⟩

theorem Edit.areShort_shortened (h : Edit config xs ys) :
    AreShort config.profile Node.shortened xs → AreShort config.profile Node.shortened ys := by
  refine h.areShort collects_shortened fun head cs ds hedit hall => ?_
  rw [areShort_block, areShort_block]
  split
  · exact hedit.areShort_frames
  · exact hall

/-- A node that has been optimized has nothing to be shortened, if its children have not. -/
theorem areShort_node {inner : List Node → Attempt (List Node)} {node left : Node}
    (hinner : ∀ head children inside, node = .block head children → inner children = .ok inside →
      AreShort config.profile Node.shortened inside)
    (h : node.optimize config inner = .ok left) : AreShort config.profile Node.shortened [left] := by
  cases node with
  | rule r =>
      cases h
      rw [AreShort, List.forall_mem_singleton, Node.shortened, Rule.optimize]
      split
      · exact Body.isMinified_optimize config r.declarations
      · exact List.forall_mem_map.mpr fun d _ => d.isMinified_minify config.profile
  | fields head ds =>
      cases h
      rw [AreShort, List.forall_mem_singleton]
      exact Body.isMinified_optimize config ds
  | block head children =>
      simp only [Node.optimize] at h
      split at h
      · next hframes =>
          cases h
          rw [areShort_block, if_pos hframes, AreShort, List.forall_mem_map]
          intro frame _
          cases frame with
          | rule r => exact Body.isMinified_optimize config r.declarations
          | _ => exact fun d hd => absurd hd List.not_mem_nil
      · next hframes =>
          obtain ⟨inside, hinside, h⟩ := Attempt.exists_of_bind h
          cases h
          rw [areShort_block, if_neg hframes]
          exact hinner head children inside rfl hinside
  | statement text =>
      cases h
      simp [AreShort, Node.shortened]
  | comment text =>
      cases h
      simp [AreShort, Node.shortened]

theorem height_lt_of_mem {depth : Nat} {head : String} {children nodes : List Node} (hmem : .block head children ∈ nodes)
    (h : Node.heightOfAll nodes < depth + 1) : Node.heightOfAll children < depth := by
  induction nodes with
  | nil => cases hmem
  | cons node nodes ih =>
      rw [Node.heightOfAll] at h
      rcases List.mem_cons.mp hmem with rfl | hmem
      · rw [Node.height] at h
        omega
      · exact ih hmem (by omega)

/-- What a run leaves has nothing to be shortened. -/
theorem areShort_optimizeWithin {depth : Nat} (hdepth : Node.heightOfAll xs < depth)
    (h : optimizeWithin config depth xs = .ok ys) : AreShort config.profile Node.shortened ys := by
  induction depth generalizing xs ys with
  | zero => omega
  | succ depth ih =>
      rw [optimizeWithin] at h
      obtain ⟨nodes, hnodes, h⟩ := Attempt.exists_of_bind h
      have hframed := framed_edits config
      have hedits := hframed.settleText
        (hframed.runAll fun _ _ _ _ hrun => edits_run (fun h => edits_optimizeWithin h) hrun) h
      refine hedits.invariant (P := AreShort config.profile Node.shortened) Edit.areShort_shortened ?_
      intro left hleft
      obtain ⟨node, hnode, hoptimized⟩ := Property.exists_of_mem_left (Attempt.mapM_eq_ok_iff.mp hnodes).flip hleft
      refine areShort_node (fun head children inside hblock hinside => ?_) hoptimized left List.mem_cons_self
      rw [hblock] at hnode
      exact ih (height_lt_of_mem hnode hdepth) hinside

end Shortened

end Siblings

open Siblings in
/-- What a run leaves has nothing to be shortened. -/
theorem Sheet.areShort_optimize {config : Config} {sheet out : Sheet} (h : Sheet.optimize config sheet = .ok out) :
    AreShort config.profile Node.shortened out := by
  obtain ⟨nodes, hnodes, h⟩ := Attempt.exists_of_bind h
  have hnodes := areShort_optimizeWithin (Nat.lt_succ_self _) hnodes
  cases h
  split
  · have hpruned := (framed_edits config).prunedAll
      (fun hempty => .single (.dropEmpty hempty)) (fun head _ h => h.inside head) nodes
    exact hpruned.invariant (P := AreShort config.profile Node.shortened) Edit.areShort_shortened hnodes
  · exact hnodes

end CssMinify
