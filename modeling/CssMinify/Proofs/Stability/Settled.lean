import CssMinify.Proofs.Stability.Passes
import CssMinify.Proofs.Stability.Sheets
import Mathlib.Order.WellFounded

/-!
Running a second time. What a run leaves has nothing to be shortened; so another run changes nothing in it exactly
when it is settled, that is, when one more round of passes would change nothing in any body and among no siblings.
Rounds are limited, and a run may stop before it comes to that; but every further run that changes something takes
something off.
-/

namespace CssMinify

theorem Attempt.mapM_eq_self_iff {α : Type} {f : α → Attempt α} {as : List α} :
    as.mapM f = .ok as ↔ ∀ a ∈ as, f a = .ok a :=
  mapM_eq_ok_iff.trans List.forall₂_same

theorem map_eq_self_iff {α : Type} {f : α → α} {as : List α} : as.map f = as ↔ ∀ a ∈ as, f a = a := by
  conv_lhs => rhs; rw [← List.map_id as]
  exact List.map_inj_left

namespace Body

/-- Does one more round leave a body as it is? -/
def isSettled (config : Config) (ds : List Declaration) : Bool := round config ds == ds

/-- A body with nothing to shorten is left alone if the first round leaves it alone. -/
theorem optimize_eq_self_iff {config : Config} {ds : List Declaration} (h : ∀ d ∈ ds, d.IsMinified config.profile) :
    optimize config ds = ds ↔ isSettled config ds = true := by
  rw [optimize, map_eq_self_iff.mpr h, isSettled, beq_iff_eq]
  exact settle_eq_self_iff (round_lighter config) 3 ds

/-- A body with nothing to shorten is left alone or gets lighter. -/
theorem optimize_lighter {config : Config} {ds : List Declaration} (h : ∀ d ∈ ds, d.IsMinified config.profile) :
    Lightened bulk (optimize config ds) ds := by
  rw [optimize, map_eq_self_iff.mpr h]
  exact settle_lighter (round_lighter config) maxRounds ds

end Body

/-- Does one more round of passes leave siblings as they are? -/
def Siblings.isQuiet (config : Config) (nodes : List Node) : Bool :=
  runAll config (optimize config) config.options.passes nodes = .ok nodes

namespace Node

/-- Does one more round leave the body of a frame as it is? -/
def isSettledFrame (config : Config) : Node → Bool
  | rule r => Body.isSettled config r.declarations
  | _ => true

mutual

/-- Does one more round leave everything in a node as it is? Bodies with nested texts have no rounds, and frames of
an animation have no passes. -/
def isSettled (config : Config) : Node → Bool
  | rule r => !r.nested.isEmpty || Body.isSettled config r.declarations
  | fields _ declarations => Body.isSettled config declarations
  | block head children =>
    if isKeyframesHead head then children.all (isSettledFrame config)
    else allSettled config children && Siblings.isQuiet config children
  | statement _ | comment _ => true

def allSettled (config : Config) : List Node → Bool
  | [] => true
  | node :: rest => node.isSettled config && allSettled config rest

end

theorem allSettled_eq (config : Config) (nodes : List Node) : allSettled config nodes = nodes.all (isSettled config) := by
  induction nodes with
  | nil => rfl
  | cons node nodes ih => rw [allSettled, ih, List.all_cons]

end Node

/-- Does one more round leave a sheet as it is, at every depth? -/
def Sheet.isSettled (config : Config) (sheet : Sheet) : Bool :=
  Node.allSettled config sheet && Siblings.isQuiet config sheet

namespace Siblings

open Node (weightOfAll)

variable {config : Config} {nodes : List Node}

/-- Where every change takes weight off, what comes back from some rounds was left alone by the first. -/
theorem settleText_eq_self_iff {round : List Node → Attempt (List Node)}
    (hround : ∀ xs ys, round xs = .ok ys → NoHeavier ys xs) (rounds : Nat) :
    settleText round (rounds + 1) nodes = .ok nodes ↔ round nodes = .ok nodes := by
  constructor
  · intro h
    rw [settleText] at h
    obtain ⟨next, hnext, h⟩ := Attempt.exists_of_bind h
    have hstep := hround _ _ hnext
    have hback : weightOfAll nodes ≤ weightOfAll next := by
      split at h
      · cases h
        exact Nat.le_refl _
      · exact (settleText_lighter hround h).weight_le
    rw [hnext, hstep.eq_of_le hback]
  · intro h
    rw [settleText, h]
    exact if_pos (beq_self_eq_true _)

/-- What a run leaves alone is left alone node by node, and by the passes. -/
theorem optimizeWithin_eq_self_iff (config : Config) (depth : Nat) (nodes : List Node) :
    optimizeWithin config (depth + 1) nodes = .ok nodes ↔
      (∀ node ∈ nodes, node.optimize config (optimizeWithin config depth) = .ok node) ∧ isQuiet config nodes = true := by
  have hinner := lightens_optimizeWithin config depth
  have hround (xs ys : List Node)
      (h : runAll config (optimizeWithin config depth) config.options.passes xs = .ok ys) : NoHeavier ys xs :=
    runAll_lighter hinner h
  have hquiet : isQuiet config nodes = true ↔
      settleText (runAll config (optimizeWithin config depth) config.options.passes) maxRounds nodes = .ok nodes := by
    rw [isQuiet, decide_eq_true_iff, maxRounds, settleText_eq_self_iff hround]
    exact runAll_eq_self_congr (lightens_optimize config) hinner _ _
  rw [hquiet, ← Attempt.mapM_eq_self_iff, optimizeWithin]
  constructor
  · intro h
    obtain ⟨middle, hmiddle, h⟩ := Attempt.exists_of_bind h
    obtain rfl := (settleText_lighter hround h).eq_of_le (weight_mapM_optimize_le hinner hmiddle)
    exact ⟨hmiddle, h⟩
  · intro h
    simp only [h.1]
    exact h.2

theorem rule_eq_iff {r : Rule} {ds : List Declaration} :
    ({ r with declarations := ds } : Rule) = r ↔ ds = r.declarations := by
  cases r
  simp

/-- A node with nothing to shorten is left alone if it is settled, provided that so it is with its children. -/
theorem node_eq_self_iff {inner : List Node → Attempt (List Node)} {node : Node}
    (hinner : ∀ head children, node = .block head children → AreShort config.profile Node.shortened children →
      (inner children = .ok children ↔ Sheet.isSettled config children = true))
    (h : AreShort config.profile Node.shortened [node]) :
    node.optimize config inner = .ok node ↔ node.isSettled config = true := by
  cases node with
  | rule r =>
      rw [AreShort, List.forall_mem_singleton, Node.shortened] at h
      rw [Node.optimize, Except.ok.injEq, Node.rule.injEq, Rule.optimize, Node.isSettled]
      split
      · next hplain => rw [rule_eq_iff, Body.optimize_eq_self_iff h, hplain, Bool.not_true, Bool.false_or]
      · next hnested =>
          rw [rule_eq_iff, map_eq_self_iff, Bool.eq_false_iff.mpr hnested]
          exact iff_of_true h rfl
  | fields head ds =>
      rw [AreShort, List.forall_mem_singleton, Node.shortened] at h
      rw [Node.optimize, Except.ok.injEq, Node.fields.injEq, Body.optimize_eq_self_iff h, Node.isSettled]
      exact and_iff_right rfl
  | block head children =>
      rw [areShort_block] at h
      rw [Node.optimize, Node.isSettled]
      split
      · next hframes =>
          rw [if_pos hframes] at h
          rw [Except.ok.injEq, Node.block.injEq, map_eq_self_iff, List.all_eq_true, and_iff_right rfl]
          refine forall₂_congr fun frame hframe => ?_
          cases frame with
          | rule r =>
              have hshort := h _ hframe
              rw [Node.frameBody] at hshort
              rw [Node.optimizeFrame, Node.rule.injEq, rule_eq_iff, Body.optimize_eq_self_iff hshort]
              rfl
          | _ => exact iff_of_true rfl rfl
      · next hframes =>
          rw [if_neg hframes] at h
          have hsettled := hinner head children rfl h
          rw [Sheet.isSettled] at hsettled
          rw [← hsettled]
          constructor
          · intro hblock
            obtain ⟨inside, hinside, hblock⟩ := Attempt.exists_of_bind hblock
            cases hblock
            exact hinside
          · intro hchildren
            rw [hchildren]
            rfl
  | statement text => exact iff_of_true rfl (by rw [Node.isSettled])
  | comment text => exact iff_of_true rfl (by rw [Node.isSettled])

/-- Siblings with nothing to shorten are left alone if they are settled. -/
theorem optimizeWithin_eq_self_iff_isSettled {depth : Nat} (hdepth : Node.heightOfAll nodes < depth)
    (h : AreShort config.profile Node.shortened nodes) :
    optimizeWithin config depth nodes = .ok nodes ↔ Sheet.isSettled config nodes = true := by
  induction depth generalizing nodes with
  | zero => omega
  | succ depth ih =>
      rw [optimizeWithin_eq_self_iff, Sheet.isSettled, Bool.and_eq_true, Node.allSettled_eq, List.all_eq_true]
      refine and_congr_left fun _ => forall₂_congr fun node hnode => ?_
      refine node_eq_self_iff (fun head children hblock hshort => ?_) fun n hn => h n (List.mem_singleton.mp hn ▸ hnode)
      rw [hblock] at hnode
      exact ih (height_lt_of_mem hnode hdepth) hshort

theorem removeEmpty_of_isQuiet (hremove : config.options.removeEmpty = true) (h : isQuiet config nodes = true) :
    removeEmpty nodes = nodes := by
  have hpass : Pass.removeEmpty ∈ config.options.passes := by simp [Options.passes, hremove]
  rw [isQuiet, decide_eq_true_iff] at h
  obtain ⟨outcome, hsame, hrun⟩ := run_of_runAll_eq_self (lightens_optimize config) h _ hpass
  rw [← Except.ok.inj (hrun .ok)] at hsame
  exact hsame

end Siblings

namespace Siblings

open Node (weightOfAll)

/-- What runs take off siblings: weight first, then tokens of the declarations that are collected. -/
def bulk (collect : Node → List Declaration) (nodes : List Node) : Nat ×ₗ Nat :=
  toLex (weightOfAll nodes, Body.tokenCount (nodes.flatMap collect))

section Bulk

variable {config : Config} {collect : Node → List Declaration} {xs ys : List Node}

theorem bulk_lt_iff : bulk collect xs < bulk collect ys ↔ weightOfAll xs < weightOfAll ys ∨
    weightOfAll xs = weightOfAll ys ∧
      Body.tokenCount (xs.flatMap collect) < Body.tokenCount (ys.flatMap collect) :=
  Prod.Lex.toLex_lt_toLex

theorem NoHeavier.lightened (h : NoHeavier xs ys) : Lightened (bulk collect) xs ys :=
  h.imp id fun hlt => bulk_lt_iff.mpr (.inl hlt)

theorem lightened_cons {x y : Node} (h : Lightened (bulk collect) [x] [y]) (hrest : Lightened (bulk collect) xs ys) :
    Lightened (bulk collect) (x :: xs) (y :: ys) := by
  simp only [Lightened, bulk_lt_iff, List.flatMap_cons, List.flatMap_nil, List.append_nil, Body.tokenCount, total_append,
    weightOfAll, List.cons.injEq, and_true] at h hrest ⊢
  rcases h with rfl | h <;> rcases hrest with rfl | hrest
  · exact .inl ⟨rfl, rfl⟩
  all_goals
    right
    omega

theorem lightened_of_forall₂ (h : List.Forall₂ (fun y x => Lightened (bulk collect) [x] [y]) ys xs) :
    Lightened (bulk collect) xs ys := by
  induction h with
  | nil => exact .inl rfl
  | cons hfirst _ ih => exact lightened_cons hfirst ih

/-- A rule weighs more or less as its body does. -/
theorem lightened_rule (hcollect : ∀ r, collect (.rule r) = r.declarations) {r : Rule} {ds : List Declaration}
    (h : Lightened Body.bulk ds r.declarations) :
    Lightened (bulk collect) [.rule { r with declarations := ds }] [.rule r] := by
  rcases h with rfl | h
  · exact .inl rfl
  · right
    rw [Body.bulk, Body.bulk, Prod.Lex.toLex_lt_toLex] at h
    simp only [bulk_lt_iff, List.flatMap_cons, List.flatMap_nil, List.append_nil, hcollect, weightOfAll, Node.weight]
    omega

theorem lightened_fields {head : String} {ds es : List Declaration} (h : Lightened Body.bulk es ds) :
    Lightened (bulk Node.shortened) [.fields head es] [.fields head ds] := by
  rcases h with rfl | h
  · exact .inl rfl
  · right
    rw [Body.bulk, Body.bulk, Prod.Lex.toLex_lt_toLex] at h
    simp only [bulk_lt_iff, List.flatMap_cons, List.flatMap_nil, List.append_nil, Node.shortened, weightOfAll, Node.weight]
    omega

theorem lightened_block {head : String}
    (h : Lightened (bulk (if Node.isKeyframesHead head then Node.frameBody else Node.shortened)) xs ys) :
    Lightened (bulk Node.shortened) [.block head xs] [.block head ys] := by
  have htokens (nodes : List Node) : [Node.block head nodes].flatMap Node.shortened
      = nodes.flatMap (if Node.isKeyframesHead head then Node.frameBody else Node.shortened) := by
    rw [List.flatMap_cons, List.flatMap_nil, List.append_nil, Node.shortened, Node.shortenedOfAll_eq]
    split <;> rfl
  rcases h with rfl | h
  · exact .inl rfl
  · right
    rw [bulk_lt_iff] at h
    simp only [bulk_lt_iff, htokens, weightOfAll, Node.weight]
    omega

/-- A node with nothing to shorten is left alone or gets lighter, if so do its children. -/
theorem node_lighter {inner : List Node → Attempt (List Node)} {node left : Node}
    (hinner : ∀ children inside, AreShort config.profile Node.shortened children → inner children = .ok inside →
      Lightened (bulk Node.shortened) inside children)
    (hshort : AreShort config.profile Node.shortened [node]) (h : node.optimize config inner = .ok left) :
    Lightened (bulk Node.shortened) [left] [node] := by
  cases node with
  | rule r =>
      cases h
      rw [AreShort, List.forall_mem_singleton, Node.shortened] at hshort
      rw [Rule.optimize]
      split
      · exact lightened_rule collects_shortened.rule (Body.optimize_lighter hshort)
      · rw [map_eq_self_iff.mpr hshort]
        exact .inl rfl
  | fields head ds =>
      cases h
      rw [AreShort, List.forall_mem_singleton, Node.shortened] at hshort
      exact lightened_fields (Body.optimize_lighter hshort)
  | block head children =>
      rw [areShort_block] at hshort
      simp only [Node.optimize] at h
      split at h
      · next hframes =>
          cases h
          rw [if_pos hframes] at hshort
          refine lightened_block ?_
          rw [if_pos hframes]
          refine lightened_of_forall₂ (List.forall₂_map_right_iff.mpr (List.forall₂_same.mpr fun frame hframe => ?_))
          cases frame with
          | rule r => exact lightened_rule (fun _ => rfl) (Body.optimize_lighter (hshort _ hframe))
          | _ => exact .inl rfl
      · next hframes =>
          obtain ⟨inside, hinside, h⟩ := Attempt.exists_of_bind h
          cases h
          rw [if_neg hframes] at hshort
          refine lightened_block ?_
          rw [if_neg hframes]
          exact hinner children inside hshort hinside
  | statement text =>
      cases h
      exact .inl rfl
  | comment text =>
      cases h
      exact .inl rfl

/-- Siblings with nothing to shorten are left alone or get lighter. -/
theorem optimizeWithin_lighter {depth : Nat} (hshort : AreShort config.profile Node.shortened xs)
    (h : optimizeWithin config depth xs = .ok ys) : Lightened (bulk Node.shortened) ys xs := by
  induction depth generalizing xs ys with
  | zero =>
      cases h
      exact .inl rfl
  | succ depth ih =>
      rw [optimizeWithin] at h
      obtain ⟨nodes, hnodes, h⟩ := Attempt.exists_of_bind h
      have hrounds := settleText_lighter (fun _ _ hround => runAll_lighter (lightens_optimizeWithin config depth) hround) h
      refine hrounds.lightened.trans (lightened_of_forall₂ ?_)
      have hall := List.forall₂_iff_zip.mp (Attempt.mapM_eq_ok_iff.mp hnodes)
      refine List.forall₂_iff_zip.mpr ⟨hall.1, fun {node left} hmem => ?_⟩
      refine node_lighter (fun _ _ hchildren hinside => ih hchildren hinside) ?_ (hall.2 hmem)
      exact fun n hn => hshort n (List.mem_singleton.mp hn ▸ (List.of_mem_zip hmem).1)

end Bulk

end Siblings

namespace Sheet

open Siblings

variable {config : Config} {sheet out : Sheet}

/-- What is left of siblings when empty ones are dropped. -/
theorem exists_of_optimize (h : Sheet.optimize config sheet = .ok out) :
    ∃ nodes, Siblings.optimize config sheet = .ok nodes ∧ NoHeavier out nodes := by
  obtain ⟨nodes, hnodes, h⟩ := Attempt.exists_of_bind h
  refine ⟨nodes, hnodes, ?_⟩
  cases h
  split
  · exact Node.prunedAll_lighter nodes
  · exact .refl nodes

/-- A sheet with nothing to be shortened is left alone or gets lighter. -/
theorem optimize_lighter (hshort : AreShort config.profile Node.shortened sheet)
    (h : Sheet.optimize config sheet = .ok out) : Lightened (bulk Node.shortened) out sheet := by
  obtain ⟨nodes, hnodes, hlighter⟩ := exists_of_optimize h
  exact hlighter.lightened.trans (optimizeWithin_lighter hshort hnodes)

/-- A sheet with nothing to be shortened is left alone if it is settled. -/
theorem optimize_eq_self_iff (hshort : AreShort config.profile Node.shortened sheet) :
    Sheet.optimize config sheet = .ok sheet ↔ sheet.isSettled config = true := by
  rw [← optimizeWithin_eq_self_iff_isSettled (Nat.lt_succ_self _) hshort]
  constructor
  · intro h
    obtain ⟨nodes, hnodes, hlighter⟩ := exists_of_optimize h
    obtain rfl := hlighter.eq_of_le (lightens_optimize config _ _ hnodes)
    exact hnodes
  · intro h
    have hquiet := ((optimizeWithin_eq_self_iff config _ sheet).mp h).2
    have hoptimize : Siblings.optimize config sheet = .ok sheet := h
    rw [Sheet.optimize, hoptimize]
    show Except.ok _ = _
    split
    · next hremove => rw [removeEmpty_of_isQuiet hremove hquiet]
    · rfl

end Sheet

end CssMinify
