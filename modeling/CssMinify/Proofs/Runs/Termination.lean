import CssMinify.Proofs.Stability.Descent
import CssMinify.Proofs.Stability.Passes
import CssMinify.Proofs.Stability.Sheets

/-! Why a run ends. A move of shared declarations leaves fewer of them, whatever becomes of their bytes; and
what is optimized once more after a merge of blocks is longer than what each of them held, but nests less deep
than the siblings that the blocks stand among. So neither the bound on the number of moves nor the one on the
depth ever cuts anything short. -/

namespace CssMinify

theorem Attempt.bind_congr {α β : Type} {first : Attempt α} {next next' : α → Attempt β}
    (h : ∀ a, first = .ok a → next a = next' a) : (first >>= next) = (first >>= next') := by
  cases first with
  | error fault => rfl
  | ok a => exact h a rfl

theorem Attempt.mapM_congr {α β : Type} {f g : α → Attempt β} {as : List α} (h : ∀ a ∈ as, f a = g a) :
    as.mapM f = as.mapM g := by
  induction as with
  | nil => rfl
  | cons a as ih =>
      rw [List.mapM_cons, List.mapM_cons, h a List.mem_cons_self, ih fun b hb => h b (List.mem_cons_of_mem a hb)]

namespace Siblings

section Moves

variable {config : Config}

/-- How many declarations a node itself holds. -/
def ownDeclarations : Node → Nat
  | .rule r => r.declarations.length
  | _ => 0

theorem declarationCount_eq (nodes : List Node) : declarationCount nodes = total ownDeclarations nodes := by
  unfold declarationCount
  induction nodes with
  | nil => rfl
  | cons node nodes ih =>
      rw [total, ← ih]
      cases node with
      | rule r => rfl
      | _ => exact (Nat.zero_add _).symm

/-- A move leaves fewer declarations: two rules or more lose what one gets, and optimizing a body brings in none. -/
theorem declarationCount_apply_lt {nodes : List Node} {h : Hoist} (hbest : Hoist.best? config nodes = .ok (some h)) :
    declarationCount (h.apply config nodes) < declarationCount nodes := by
  have hsound := Hoist.sound_of_best? hbest
  have hpos : 0 < h.declarations.length := List.length_pos_iff.mpr hsound.nonempty
  rw [declarationCount_eq, declarationCount_eq]
  apply total_apply_lt h.declarations.length hsound
  · intro between r hr
    have hloss := total_filter_not_contains (fun _ => 1) hsound.nodup hr.subset
    rw [total_one, total_one, total_one] at hloss
    have hle := Body.length_optimize_le config (r.declarations.filter fun d => !h.declarations.contains d)
    rw [Hoist.strip_rule]
    split
    · simp only [total, ownDeclarations]
      omega
    · simp only [total, ownDeclarations, Hoist.remainder]
      omega
  · have hle := Body.length_optimize_le config h.declarations
    simp only [ownDeclarations, Hoist.rule]
    omega

/-- Where there are no declarations there is nothing to move. -/
theorem best?_of_declarationCount_eq_zero {nodes : List Node} (h : declarationCount nodes = 0) :
    Hoist.best? config nodes = .ok none := by
  have hoffers : ∀ node ∈ nodes, Hoist.offers node = [] := by
    intro node hnode
    apply List.eq_nil_iff_forall_not_mem.mpr
    intro d hd
    obtain ⟨r, rfl, -, -, honce⟩ := Hoist.of_mem_offers hd
    have hlength : r.declarations.length ≤ total ownDeclarations nodes := le_total_of_mem ownDeclarations hnode
    rw [← declarationCount_eq, h, Nat.le_zero, List.length_eq_zero_iff] at hlength
    rw [hlength] at honce
    cases honce
  have hnone : Hoist.offered nodes = [] := by
    rw [Hoist.offered, List.flatMap_eq_nil_iff.mpr hoffers]
    rfl
  rw [Hoist.best?, Hoist.shared, hnone]
  rfl

/-- Two bounds that are no less than the number of declarations are as good as each other. -/
theorem hoistWithin_congr {steps steps' : Nat} {nodes : List Node} (h : declarationCount nodes ≤ steps)
    (h' : declarationCount nodes ≤ steps') : hoistWithin config steps nodes = hoistWithin config steps' nodes := by
  have hnone {nodes : List Node} (steps : Nat) (hzero : declarationCount nodes = 0) :
      hoistWithin config steps nodes = .ok (nodes, 0) := by
    cases steps with
    | zero => rfl
    | succ steps =>
        rw [hoistWithin, best?_of_declarationCount_eq_zero hzero]
        rfl
  induction steps generalizing nodes steps' with
  | zero =>
      have hzero : declarationCount nodes = 0 := by omega
      rw [hnone 0 hzero, hnone steps' hzero]
  | succ steps ih =>
      cases steps' with
      | zero =>
          have hzero : declarationCount nodes = 0 := by omega
          rw [hnone 0 hzero, hnone (steps + 1) hzero]
      | succ steps' =>
          rw [hoistWithin, hoistWithin]
          refine Attempt.bind_congr fun best hbest => ?_
          cases best with
          | none => rfl
          | some hoist =>
              have hless := declarationCount_apply_lt hbest
              show (hoistWithin config steps (hoist.apply config nodes) >>= _)
                = (hoistWithin config steps' (hoist.apply config nodes) >>= _)
              have hrest : hoistWithin config steps (hoist.apply config nodes)
                  = hoistWithin config steps' (hoist.apply config nodes) := ih (by omega) (by omega)
              rw [hrest]

/-- Moving is a loop without a bound of its own. -/
theorem hoist_eq (nodes : List Node) : hoist config nodes = (do
    match ← Hoist.best? config nodes with
    | none => return (nodes, 0)
    | some h =>
      let (left, moved) ← hoist config (h.apply config nodes)
      return (left, h.declarations.length + moved)) := by
  have hmore : hoist config nodes = hoistWithin config (declarationCount nodes + 1) nodes :=
    hoistWithin_congr (Nat.le_refl _) (Nat.le_succ _)
  rw [hmore, hoistWithin]
  refine Attempt.bind_congr fun best hbest => ?_
  cases best with
  | none => rfl
  | some h =>
      have hless := declarationCount_apply_lt hbest
      have hrest : hoistWithin config (declarationCount nodes) (h.apply config nodes)
          = hoist config (h.apply config nodes) := hoistWithin_congr hless.le (Nat.le_refl _)
      show (hoistWithin config (declarationCount nodes) (h.apply config nodes) >>= _)
        = (hoist config (h.apply config nodes) >>= _)
      rw [hrest]

/-- Moves made one after the other, and what they leave. -/
theorem moves_le_declarationCount {lists : Nat → List Node} {n : Nat}
    (h : ∀ i < n, ∃ h, Hoist.best? config (lists i) = .ok (some h) ∧ lists (i + 1) = h.apply config (lists i)) :
    n + declarationCount (lists n) ≤ declarationCount (lists 0) := by
  induction n with
  | zero => exact (Nat.zero_add _).le
  | succ n ih =>
      obtain ⟨hoist, hbest, hnext⟩ := h n (Nat.lt_succ_self n)
      have hless := declarationCount_apply_lt hbest
      have hle := ih fun i hi => h i (Nat.lt_succ_of_lt hi)
      rw [hnext]
      omega

end Moves

section Heights

open Node (heightOfAll)

theorem heightOfAll_le_iff {nodes : List Node} {bound : Nat} :
    heightOfAll nodes ≤ bound ↔ ∀ node ∈ nodes, node.height ≤ bound := by
  induction nodes with
  | nil => simp [heightOfAll]
  | cons node nodes ih => rw [heightOfAll, Nat.max_le, ih, List.forall_mem_cons]

theorem heightOfAll_append (as bs : List Node) : heightOfAll (as ++ bs) = max (heightOfAll as) (heightOfAll bs) := by
  induction as with
  | nil => exact (Nat.zero_max _).symm
  | cons a as ih => rw [List.cons_append, heightOfAll, heightOfAll, ih, Nat.max_assoc]

variable {config : Config}

/-- No edit makes blocks nest deeper. -/
theorem Edit.heightOfAll_le {xs ys : List Node} (h : Edit config xs ys) : heightOfAll ys ≤ heightOfAll xs := by
  induction h with
  | within before after _ ih =>
      simp only [heightOfAll_append]
      omega
  | inside head _ ih =>
      simp only [heightOfAll, Node.height]
      omega
  | sink h =>
      simp only [heightOfAll_append, heightOfAll]
      omega
  | rise h =>
      simp only [heightOfAll_append, heightOfAll]
      omega
  | dropFont hfirst hsecond =>
      simp only [heightOfAll_append, heightOfAll]
      omega
  | hoist hbest =>
      apply heightOfAll_le_iff.mpr
      intro node hnode
      rcases mem_apply hnode with hnode | ⟨r, ds, rfl⟩
      · exact heightOfAll_le_iff.mp (Nat.le_refl _) node hnode
      · exact Nat.zero_le _
  | joinMedia hmedia =>
      simp only [heightOfAll, Node.height, heightOfAll_append]
      omega
  | _ =>
      simp only [heightOfAll, Node.height]
      omega

theorem Edits.heightOfAll_le {xs ys : List Node} (h : Edits config xs ys) : heightOfAll ys ≤ heightOfAll xs :=
  h.invariant (P := fun zs => heightOfAll zs ≤ heightOfAll xs) (fun hedit hle => hedit.heightOfAll_le.trans hle)
    (Nat.le_refl _)

/-- What two blocks among siblings hold nests less deep than the siblings do. -/
theorem heightOfAll_joined_lt {nodes earlier later : List Node} {head head' : String}
    (hearlier : .block head earlier ∈ nodes) (hlater : .block head' later ∈ nodes) :
    heightOfAll (earlier ++ later) < heightOfAll nodes := by
  have hfirst := heightOfAll_le_iff.mp (Nat.le_refl _) _ hearlier
  have hsecond := heightOfAll_le_iff.mp (Nat.le_refl _) _ hlater
  rw [Node.height] at hfirst hsecond
  rw [heightOfAll_append]
  omega

end Heights

section Levels

open Node (heightOfAll)

variable {config : Config} {again other : List Node → Attempt (List Node)}

/-- Optimizes siblings, where `again` optimizes what blocks hold, before they are merged and afterwards. -/
def level (config : Config) (again : List Node → Attempt (List Node)) (nodes : List Node) : Attempt (List Node) := do
  let nodes ← nodes.mapM (Node.optimize config again)
  settleText (runAll config again config.options.passes) maxRounds nodes

/-- Merging blocks asks for nothing that nests as deep as the siblings do. -/
theorem mergeMediaFrom_congr {semantic : Bool} {bound : Nat}
    (hagain : ∀ {xs ys : List Node}, again xs = .ok ys → heightOfAll ys ≤ heightOfAll xs)
    (hsame : ∀ xs, heightOfAll xs < bound → other xs = again xs) {done rest : List Node}
    (hbound : heightOfAll (done ++ rest) ≤ bound) :
    mergeMediaFrom semantic other done rest = mergeMediaFrom semantic again done rest := by
  fun_induction mergeMediaFrom semantic again done rest with
  | case1 done => rw [mergeMediaFrom]
  | case2 done node rest hmedia ih =>
      rw [mergeMediaFrom]
      simp only [hmedia]
      apply ih
      rwa [List.append_assoc, List.singleton_append]
  | case3 done node rest head later hmedia before head' earlier between hcut ihUp ihDown ihStay =>
      have hdone := eq_of_cutAtLast? hcut
      cases Node.of_media? hmedia
      have hjoined : heightOfAll (earlier ++ later) < bound := by
        have hearlier : .block head' earlier ∈ done ++ .block head later :: rest := by simp [hdone]
        have hlater : .block head later ∈ done ++ .block head later :: rest := by simp
        exact Nat.lt_of_lt_of_le (heightOfAll_joined_lt hearlier hlater) hbound
      have hchildren {children : List Node} (h : again (earlier ++ later) = .ok children) :
          (Node.block head children).height ≤ bound := by
        have hle := hagain h
        rw [Node.height]
        omega
      rw [mergeMediaFrom]
      simp only [hmedia]
      split
      case h_2 hno => exact absurd hcut (hno before head' earlier between)
      next hcut' =>
      rw [hcut] at hcut'
      cases hcut'
      rw [hdone] at hbound
      simp only [heightOfAll_append, heightOfAll] at hbound
      refine Attempt.bind_congr fun up _ => ?_
      cases up with
      | true =>
          show (other (earlier ++ later) >>= _) = (again (earlier ++ later) >>= _)
          rw [hsame _ hjoined]
          refine Attempt.bind_congr fun children h => ihUp children ?_
          have hblock := hchildren h
          simp only [heightOfAll_append, heightOfAll]
          omega
      | false =>
          refine Attempt.bind_congr fun down _ => ?_
          cases down with
          | true =>
              show (other (earlier ++ later) >>= _) = (again (earlier ++ later) >>= _)
              rw [hsame _ hjoined]
              refine Attempt.bind_congr fun children h => ihDown children ?_
              have hblock := hchildren h
              simp only [heightOfAll_append, heightOfAll]
              omega
          | false =>
              apply ihStay
              rw [hdone]
              simp only [heightOfAll_append, heightOfAll]
              omega
  | case4 done node rest head later hmedia hcut ih =>
      rw [mergeMediaFrom]
      simp only [hmedia]
      apply ih
      rwa [List.append_assoc, List.singleton_append]

section Rounds

variable (hagain : ∀ {xs ys : List Node}, again xs = .ok ys → Edits config xs ys) {bound : Nat}
  (hsame : ∀ xs, heightOfAll xs < bound → other xs = again xs)

include hagain hsame

theorem run_congr {pass : Pass} {nodes : List Node} (hbound : heightOfAll nodes ≤ bound) :
    pass.run config other nodes = pass.run config again nodes := by
  cases pass with
  | mergeMedia =>
      unfold Pass.run
      have hmerge : mergeMediaFrom config.options.mergeSemantically other [] nodes
          = mergeMediaFrom config.options.mergeSemantically again [] nodes :=
        mergeMediaFrom_congr (fun h => (hagain h).heightOfAll_le) hsame hbound
      rw [hmerge]
  | _ => rfl

theorem runAll_congr {passes : List Pass} {nodes : List Node} (hbound : heightOfAll nodes ≤ bound) :
    runAll config other passes nodes = runAll config again passes nodes := by
  induction passes generalizing nodes with
  | nil => rfl
  | cons pass passes ih =>
      rw [runAll, runAll, run_congr hagain hsame hbound]
      apply Attempt.bind_congr
      intro outcome houtcome
      exact ih ((edits_run hagain houtcome).heightOfAll_le.trans hbound)

theorem settleText_congr {passes : List Pass} {rounds : Nat} {nodes : List Node} (hbound : heightOfAll nodes ≤ bound) :
    settleText (runAll config other passes) rounds nodes = settleText (runAll config again passes) rounds nodes := by
  induction rounds generalizing nodes with
  | zero => rfl
  | succ rounds ih =>
      rw [settleText, settleText, runAll_congr hagain hsame hbound]
      apply Attempt.bind_congr
      intro next hnext
      have hedits : Edits config nodes next :=
        (framed_edits config).runAll (fun _ _ _ _ hrun => edits_run hagain hrun) hnext
      rw [ih (hedits.heightOfAll_le.trans hbound)]

end Rounds

/-- To optimize siblings, only what nests less deep has to be known how to optimize. -/
theorem level_congr (hagain : ∀ {xs ys : List Node}, again xs = .ok ys → Edits config xs ys) {nodes : List Node}
    (hsame : ∀ xs, heightOfAll xs < heightOfAll nodes → other xs = again xs) :
    level config other nodes = level config again nodes := by
  have hnode : ∀ node ∈ nodes, node.optimize config other = node.optimize config again := by
    intro node hnode
    cases node with
    | block head children =>
        have hlower : heightOfAll children < heightOfAll nodes := by
          have hle := heightOfAll_joined_lt hnode hnode
          rw [heightOfAll_append, Nat.max_self] at hle
          exact hle
        rw [Node.optimize, Node.optimize, hsame children hlower]
    | _ => rfl
  have heach : nodes.mapM (Node.optimize config other) = nodes.mapM (Node.optimize config again) :=
    Attempt.mapM_congr hnode
  unfold level
  rw [heach]
  apply Attempt.bind_congr
  intro optimized hoptimized
  have hedits : Edits config nodes optimized := (framed_edits config).mapM (fun h => edits_node hagain h) hoptimized
  exact settleText_congr hagain hsame hedits.heightOfAll_le

/-- Depths beyond that of the siblings are as good as each other. -/
theorem optimizeWithin_congr {depth depth' : Nat} {nodes : List Node} (h : heightOfAll nodes < depth)
    (h' : heightOfAll nodes < depth') : optimizeWithin config depth nodes = optimizeWithin config depth' nodes := by
  induction depth generalizing nodes depth' with
  | zero => omega
  | succ depth ih =>
      cases depth' with
      | zero => omega
      | succ depth' =>
          show level config (optimizeWithin config depth) nodes = level config (optimizeWithin config depth') nodes
          apply level_congr edits_optimizeWithin
          intro xs hxs
          exact ih (by omega) (by omega)

theorem level_eq_optimize {nodes : List Node}
    (h : ∀ xs, heightOfAll xs < heightOfAll nodes → other xs = optimize config xs) :
    level config other nodes = optimize config nodes := by
  show _ = level config (optimizeWithin config (heightOfAll nodes)) nodes
  apply level_congr edits_optimizeWithin
  intro xs hxs
  calc other xs = optimize config xs := h xs hxs
    _ = optimizeWithin config (heightOfAll nodes) xs := optimizeWithin_congr (Nat.lt_succ_self _) hxs

end Levels

open Node (heightOfAll) in
/-- Optimizing ends. Every move of shared declarations leaves fewer declarations in the rules of the list, so there
are at most as many moves as there are declarations, and moving is the loop that stops when no move is found.
Blocks that are merged among what a round has made of siblings hold together less deep a tree than the siblings
were; so the recursion, which has no bound of its own, is only ever entered below the depth it started at. -/
theorem optimize_descends (config : Config) :
    (∀ nodes h, Hoist.best? config nodes = .ok (some h) →
      declarationCount (h.apply config nodes) < declarationCount nodes) ∧
    (∀ (lists : Nat → List Node) (n : Nat),
      (∀ i < n, ∃ h, Hoist.best? config (lists i) = .ok (some h) ∧ lists (i + 1) = h.apply config (lists i)) →
        n ≤ declarationCount (lists 0)) ∧
    (∀ nodes, hoist config nodes = do
      match ← Hoist.best? config nodes with
      | none => return (nodes, 0)
      | some h =>
        let (left, moved) ← hoist config (h.apply config nodes)
        return (left, h.declarations.length + moved)) ∧
    (∀ nodes left, Edits config nodes left → ∀ head earlier later, .block head earlier ∈ left →
      .block head later ∈ left → heightOfAll (earlier ++ later) < heightOfAll nodes) ∧
    (∀ nodes, optimize config nodes = level config (optimize config) nodes) ∧
    (∀ nodes other, (∀ xs, heightOfAll xs < heightOfAll nodes → other xs = optimize config xs) →
      level config other nodes = optimize config nodes) := by
  refine ⟨fun nodes h => declarationCount_apply_lt, fun lists n hmoves => ?_, hoist_eq, ?_, fun nodes => ?_,
    fun nodes other => level_eq_optimize⟩
  · have hle := moves_le_declarationCount hmoves
    omega
  · intro nodes left hedits head earlier later hearlier hlater
    calc heightOfAll (earlier ++ later) < heightOfAll left := heightOfAll_joined_lt hearlier hlater
      _ ≤ heightOfAll nodes := hedits.heightOfAll_le
  · exact (level_eq_optimize fun xs _ => rfl).symm

end Siblings

end CssMinify
