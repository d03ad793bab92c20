import CssMinify.Proofs.Runs.Frame
import Mathlib.Logic.Relation

/-! What a whole run does to a sheet, taken apart into single edits at any depth of the tree. An edit says
all that is known when it is made: which node travels past which, why two rules become one, and how the
declarations of a body come about. So what every edit keeps, every run keeps. -/

namespace CssMinify

namespace Siblings

/-- One edit of a list of siblings or of what is inside them. -/
inductive Edit (config : Config) : List Node → List Node → Prop
  | within {xs ys : List Node} (before after : List Node) (h : Edit config xs ys) :
      Edit config (before ++ (xs ++ after)) (before ++ (ys ++ after))
  | inside {cs ds : List Node} (head : String) (h : Edit config cs ds) :
      Edit config [.block head cs] [.block head ds]
  /-- A node travels down. -/
  | sink {mover : Node} {between : List Node}
      (h : mover.mayTravel config.options.mergeSemantically between = .ok true) :
      Edit config (mover :: between) (between ++ [mover])
  /-- A node travels up. -/
  | rise {mover : Node} {between : List Node}
      (h : mover.mayTravel config.options.mergeSemantically between = .ok true) :
      Edit config (between ++ [mover]) (mover :: between)
  | dropRule {r s : Rule} (hr : r.nested = []) (hs : s.nested = []) (hkey : r.sameSelectors s = true)
      (hbody : r.sameBody s = true) : Edit config [.rule r, .rule s] [.rule s]
  | dropMedia {node : Node} (hmedia : node.media?.isSome = true) (hsealed : node.isSealed = false)
      (hlayer : node.mentionsLayer = false) : Edit config [node, node] [node]
  | dropFont {first second : Node} {between : List Node} {body : String} (hfirst : first.fontFace? = some body)
      (hsecond : second.fontFace? = some body) :
      Edit config (first :: (between ++ [second])) (first :: between)
  | dropEmpty {node : Node} (hempty : node.isEmpty = true) : Edit config [node] []
  | joinBodies {r s t : Rule} (hr : r.nested = []) (hs : s.nested = []) (hkey : r.sameSelectors s = true)
      (ht : t = r ∨ t = s) :
      Edit config [.rule r, .rule s] [.rule { t with declarations := r.bodyWith config s }]
  | joinSelectors {r s t : Rule} (hr : r.nested = []) (hs : s.nested = [])
      (hbody : r.mayShareBody config s = true) (ht : t = r ∨ t = s) :
      Edit config [.rule r, .rule s] [.rule { t with selectors := r.selectorsWith s }]
  | joinMedia {head : String} {cs ds : List Node} (hmedia : (Node.block head cs).media?.isSome = true) :
      Edit config [.block head cs, .block head ds] [.block head (cs ++ ds)]
  | hoist {nodes : List Node} {h : Hoist} (hbest : Hoist.best? config nodes = .ok (some h)) :
      Edit config nodes (h.apply config nodes)
  | optimizeBody (r : Rule) :
      Edit config [.rule r] [.rule { r with declarations := Body.optimize config r.declarations }]
  /-- Among nested texts values are only shortened. -/
  | minifyBody (r : Rule) :
      Edit config [.rule r]
        [.rule { r with declarations := r.declarations.map (Declaration.minify config.profile) }]
  | optimizeFields (head : String) (declarations : List Declaration) :
      Edit config [.fields head declarations] [.fields head (Body.optimize config declarations)]

/-- What finitely many edits lead to. -/
abbrev Edits (config : Config) : List Node → List Node → Prop := Relation.ReflTransGen (Edit config)

section Edits

variable {config : Config}

theorem framed_edits (config : Config) : Framed (Edits config) where
  refl _ := .refl
  trans h h' := h.trans h'
  within before after h := by
    induction h with
    | refl => exact .refl
    | tail _ hedit ih => exact ih.tail (.within before after hedit)

theorem Edits.inside {cs ds : List Node} (head : String) (h : Edits config cs ds) :
    Edits config [.block head cs] [.block head ds] := by
  induction h with
  | refl => exact .refl
  | tail _ hedit ih => exact ih.tail (.inside head hedit)

/-- A property of siblings that every edit keeps holds after a run if it did before. -/
theorem Edits.invariant {P : List Node → Prop} (hedit : ∀ {xs ys : List Node}, Edit config xs ys → P xs → P ys)
    {xs ys : List Node} (h : Edits config xs ys) (hxs : P xs) : P ys := by
  induction h with
  | refl => exact hxs
  | tail _ hstep ih => exact hedit hstep ih

theorem edits_dropRule {a b : Node} {between : List Node} (h : isRepeatedRule a b = true)
    (htravel : a.mayTravel config.options.mergeSemantically between = .ok true) :
    Edits config (a :: (between ++ [b])) (between ++ [b]) := by
  unfold isRepeatedRule Node.plainRules at h
  split at h
  case h_2 => cases h
  next r s hr hs =>
  obtain ⟨rfl, hrnested⟩ := Node.of_plainRule? hr
  obtain ⟨rfl, hsnested⟩ := Node.of_plainRule? hs
  rw [Bool.and_eq_true] at h
  have hsink := (framed_edits config).before [.rule s] (.single (.sink htravel))
  rw [List.append_assoc] at hsink
  exact hsink.trans ((framed_edits config).after between (.single (.dropRule hrnested hsnested h.1 h.2)))

theorem edits_dropMedia {a b : Node} {between : List Node} (h : isRepeatedMedia a b = true)
    (htravel : a.mayTravel config.options.mergeSemantically between = .ok true) :
    Edits config (a :: (between ++ [b])) (between ++ [b]) := by
  rw [isRepeatedMedia, Bool.and_eq_true, beq_iff_eq] at h
  obtain ⟨hmedia, rfl⟩ := h
  have hfree : a.isSealed = false ∧ a.mentionsLayer = false := by
    rw [Node.mayTravel] at htravel
    split at htravel
    · cases htravel
    · next hguard =>
        simp only [Bool.or_eq_true, not_or, Bool.not_eq_true] at hguard
        exact hguard.1
  have hsink := (framed_edits config).before [a] (.single (.sink htravel))
  rw [List.append_assoc] at hsink
  exact hsink.trans ((framed_edits config).after between (.single (.dropMedia hmedia hfree.1 hfree.2)))

theorem edit_join? {r s t : Rule} (hr : r.nested = []) (hs : s.nested = []) (h : r.join? config s = some t) :
    Edit config [.rule r, .rule s] [.rule t] := by
  unfold Rule.join? at h
  split at h
  · next hkey =>
      cases h
      exact .joinBodies hr hs hkey (.inl rfl)
  · split at h
    · next hbody =>
        cases h
        exact .joinSelectors hr hs hbody (.inl rfl)
    · cases h

section Distant

variable {m : Merger}

/-- A way to make one rule out of two that is an edit when they are neighbours. -/
structure Joins (config : Config) (m : Merger) : Prop where
  below {earlier later : Rule} (hearlier : earlier.nested = []) (hlater : later.nested = [])
    (hfits : m.fits earlier later = true) :
    Edit config [.rule earlier, .rule later] [.rule (m.below earlier later)]
  above {earlier later : Rule} (hearlier : earlier.nested = []) (hlater : later.nested = [])
    (hfits : m.fits earlier later = true) :
    Edit config [.rule earlier, .rule later] [.rule (m.above earlier later)]

theorem joins_bySelector (config : Config) : Joins config (.bySelector config) where
  below hearlier hlater hfits := .joinBodies hearlier hlater hfits (.inr rfl)
  above hearlier hlater hfits := .joinBodies hearlier hlater hfits (.inl rfl)

theorem joins_byBody (config : Config) : Joins config (.byBody config) where
  below hearlier hlater hfits := .joinSelectors hearlier hlater hfits (.inr rfl)
  above hearlier hlater hfits := .joinSelectors hearlier hlater hfits (.inl rfl)

variable {earlier later : Rule} {between : List Node}

theorem edits_below (hjoin : Edit config [.rule earlier, .rule later] [.rule (m.below earlier later)])
    (htravel : (Node.rule earlier).mayTravel config.options.mergeSemantically between = .ok true) :
    Edits config (.rule earlier :: (between ++ [.rule later])) (between ++ [.rule (m.below earlier later)]) := by
  have hsink := (framed_edits config).before [.rule later] (.single (.sink htravel))
  rw [List.append_assoc] at hsink
  exact hsink.trans ((framed_edits config).after between (.single hjoin))

theorem edits_above (hjoin : Edit config [.rule earlier, .rule later] [.rule (m.above earlier later)])
    (htravel : (Node.rule later).mayTravel config.options.mergeSemantically between = .ok true) :
    Edits config (.rule earlier :: (between ++ [.rule later])) (.rule (m.above earlier later) :: between) :=
  ((framed_edits config).after [.rule earlier] (.single (.rise htravel))).trans
    ((framed_edits config).before between (.single hjoin))

theorem edits_addMerging (hm : Joins config m) {done left : List Node} {node : Node}
    (h : addMerging config.options.mergeSemantically m done node = .ok left) :
    Edits config (done ++ [node]) left :=
  (framed_edits config).addMerging (fun hr hs hfits => edits_below (hm.below hr hs hfits))
    (fun hr hs hfits => edits_above (hm.above hr hs hfits)) h

theorem edits_mergeDistant (hm : Joins config m) {nodes left : List Node}
    (h : mergeDistant config.options.mergeSemantically m nodes = .ok left) : Edits config nodes left :=
  (framed_edits config).mergeDistant (fun hr hs hfits => edits_below (hm.below hr hs hfits))
    (fun hr hs hfits => edits_above (hm.above hr hs hfits)) h

end Distant

section Media

variable {again : List Node → Attempt (List Node)}
  (hagain : ∀ {xs ys : List Node}, again xs = .ok ys → Edits config xs ys)

include hagain

theorem edits_joinMedia {head : String} {earlier later children : List Node}
    (hmedia : (Node.block head earlier).media?.isSome = true) (h : again (earlier ++ later) = .ok children) :
    Edits config [.block head earlier, .block head later] [.block head children] :=
  .head (.joinMedia hmedia) ((hagain h).inside head)

/-- A pass is made of edits, if what optimizes merged blocks is. -/
theorem edits_run {pass : Pass} {nodes : List Node} {outcome : Pass.Outcome}
    (h : pass.run config again nodes = .ok outcome) : Edits config nodes outcome.nodes := by
  have hframed := framed_edits config
  cases pass with
  | removeDuplicateRules =>
      obtain ⟨left, hleft, h⟩ := Attempt.exists_of_bind h
      cases h
      exact hframed.keepLastFrom edits_dropRule hleft
  | mergeAdjacent =>
      cases h
      exact hframed.mergeAdjacent (fun hr hs h => .single (edit_join? hr hs h)) nodes
  | mergeBySelector =>
      obtain ⟨left, hleft, h⟩ := Attempt.exists_of_bind h
      cases h
      exact edits_mergeDistant (joins_bySelector config) hleft
  | mergeByBody =>
      obtain ⟨left, hleft, h⟩ := Attempt.exists_of_bind h
      cases h
      exact edits_mergeDistant (joins_byBody config) hleft
  | hoist =>
      obtain ⟨⟨left, moved⟩, hleft, h⟩ := Attempt.exists_of_bind h
      cases h
      exact hframed.hoistWithin (fun hbest => .single (.hoist hbest)) hleft
  | removeDuplicateFontFaces =>
      cases h
      exact hframed.keepFirstFontFaces (fun _ _ hfirst hsecond => .single (.dropFont hfirst hsecond)) []
        (by simp) nodes
  | removeDuplicateMedia =>
      obtain ⟨left, hleft, h⟩ := Attempt.exists_of_bind h
      cases h
      exact hframed.keepLastFrom edits_dropMedia hleft
  | mergeMedia =>
      obtain ⟨left, hleft, h⟩ := Attempt.exists_of_bind h
      cases h
      refine hframed.mergeMediaFrom ?_ ?_ hleft
      · intro head earlier later between children hmedia _ hrise hchildren
        exact (hframed.after [.block head earlier] (.single (.rise hrise))).trans
          (hframed.before between (edits_joinMedia hagain hmedia hchildren))
      · intro head earlier between children later hmedia _ hsink hchildren
        have hdown := hframed.before [.block head later] (.single (.sink hsink))
        rw [List.append_assoc] at hdown
        exact hdown.trans (hframed.after between (edits_joinMedia hagain hmedia hchildren))
  | removeEmpty =>
      cases h
      exact hframed.prunedAll (fun hempty => .single (.dropEmpty hempty)) (fun head _ h => h.inside head) nodes

/-- A node is optimized by edits, if its children are. -/
theorem edits_node {node left : Node} (h : node.optimize config again = .ok left) :
    Edits config [node] [left] := by
  cases node with
  | rule r =>
      cases h
      rw [Rule.optimize]
      split
      · exact .single (.optimizeBody r)
      · exact .single (.minifyBody r)
  | fields head declarations =>
      cases h
      exact .single (.optimizeFields head declarations)
  | block head children =>
      simp only [Node.optimize] at h
      split at h
      · cases h
        have hframe (frame : Node) : Edits config [frame] [frame.optimizeFrame config] := by
          cases frame with
          | rule r => exact .single (.optimizeBody r)
          | _ => exact .refl
        have hframes := (framed_edits config).map hframe children
        exact hframes.inside head
      · obtain ⟨inside, hinside, h⟩ := Attempt.exists_of_bind h
        cases h
        exact (hagain hinside).inside head
  | statement text =>
      cases h
      exact .refl
  | comment text =>
      cases h
      exact .refl

end Media

/-- All that is done to siblings and to what is inside them is made of edits. -/
theorem edits_optimizeWithin {depth : Nat} {xs ys : List Node} (h : optimizeWithin config depth xs = .ok ys) :
    Edits config xs ys := by
  induction depth generalizing xs ys with
  | zero =>
      cases h
      exact .refl
  | succ depth ih =>
      rw [optimizeWithin] at h
      obtain ⟨nodes, hnodes, h⟩ := Attempt.exists_of_bind h
      have hframed := framed_edits config
      have heach := hframed.mapM (fun hnode => edits_node ih hnode) hnodes
      exact heach.trans (hframed.settleText (hframed.runAll fun _ _ _ _ hrun => edits_run ih hrun) h)

end Edits

end Siblings

/-- A run is made of edits. -/
theorem Sheet.edits_optimize {config : Config} {sheet out : Sheet} (h : Sheet.optimize config sheet = .ok out) :
    Siblings.Edits config sheet out := by
  obtain ⟨nodes, hnodes, h⟩ := Attempt.exists_of_bind h
  have hedits := Siblings.edits_optimizeWithin hnodes
  cases h
  split
  · have hpruned := (Siblings.framed_edits config).prunedAll
      (fun hempty => .single (.dropEmpty hempty)) (fun head _ h => h.inside head) nodes
    exact hedits.trans hpruned
  · exact hedits

end CssMinify
