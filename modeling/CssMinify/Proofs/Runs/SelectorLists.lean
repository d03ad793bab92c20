import CssMinify.Proofs.Moves.Hoisting
import CssMinify.Proofs.Runs.Edit
import CssMinify.Proofs.Selector.Key

/-! The selector lists of a run. An engine drops a rule if it does not know one of its selectors, so a list
is only ever widened if all of it may share a rule; and each of the passes that widen lists checks the new
list as a whole, not only what it adds. -/

namespace CssMinify

namespace Node

mutual

/-- The rules of a node and of what is inside it. -/
def rules : Node → List Rule
  | rule r => [r]
  | block _ children => rulesOfAll children
  | fields .. | statement _ | comment _ => []

def rulesOfAll : List Node → List Rule
  | [] => []
  | node :: rest => node.rules ++ rulesOfAll rest

end

theorem rulesOfAll_append (xs ys : List Node) : rulesOfAll (xs ++ ys) = rulesOfAll xs ++ rulesOfAll ys := by
  induction xs with
  | nil => rfl
  | cons node rest ih => rw [List.cons_append, rulesOfAll, rulesOfAll, ih, List.append_assoc]

theorem rulesOfAll_singleton (node : Node) : rulesOfAll [node] = node.rules := by
  rw [rulesOfAll, rulesOfAll, List.append_nil]

theorem mem_rulesOfAll {nodes : List Node} {r : Rule} : r ∈ rulesOfAll nodes ↔ ∃ node ∈ nodes, r ∈ node.rules := by
  induction nodes with
  | nil => simp [rulesOfAll]
  | cons node rest ih => rw [rulesOfAll, List.mem_append, ih, List.exists_mem_cons_iff]

end Node

open Node

/-- A list of selectors that a run may put in front of a body, given the rules that there are: the list of
one of them, or a sorted list of selectors of theirs that may all share a rule. -/
def Carried (config : Config) (source : List Rule) (selectors : List String) : Prop :=
  (∃ r ∈ source, r.selectors = selectors) ∨
    (selectors.Pairwise (· < ·) ∧ (∀ s ∈ selectors, ∃ r ∈ source, s ∈ r.selectors) ∧
      Selector.areMergeable config.profile selectors = true)

/-- Rules whose selector lists a run may make of those of `source`. -/
def Carries (config : Config) (source left : List Rule) : Prop :=
  ∀ r ∈ left, Carried config source r.selectors

section Carried

variable {config : Config} {source middle left : List Rule} {selectors : List String}

theorem Carried.of_key (hmem : ∀ s ∈ selectors, ∃ r ∈ source, s ∈ r.selectors)
    (hmergeable : Selector.areMergeable config.profile (Selector.key selectors) = true) :
    Carried config source (Selector.key selectors) := by
  refine .inr ⟨Selector.pairwise_key selectors, ?_, hmergeable⟩
  intro s hs
  exact hmem s (Selector.mem_key.mp hs)

theorem Carried.exists_mem (h : Carried config source selectors) {s : String} (hs : s ∈ selectors) :
    ∃ r ∈ source, s ∈ r.selectors := by
  obtain ⟨r, hr, rfl⟩ | ⟨-, hmem, -⟩ := h
  · exact ⟨r, hr, hs⟩
  · exact hmem s hs

theorem Carries.of_subset (h : left ⊆ source) : Carries config source left :=
  fun r hr => .inl ⟨r, h hr, rfl⟩

theorem Carries.trans (hfirst : Carries config source middle) (hsecond : Carries config middle left) :
    Carries config source left := by
  intro t ht
  obtain ⟨s, hs, heq⟩ | ⟨hsorted, hmem, hmergeable⟩ := hsecond t ht
  · rw [← heq]
    exact hfirst s hs
  · refine .inr ⟨hsorted, ?_, hmergeable⟩
    intro s hs
    obtain ⟨r, hr, hsr⟩ := hmem s hs
    exact (hfirst r hr).exists_mem hsr

theorem Carries.mono {source' : List Rule} (hsub : source ⊆ source') (h : Carries config source left) :
    Carries config source' left :=
  Carries.trans (.of_subset hsub) h

theorem Carries.append {left' : List Rule} (h : Carries config source left) (h' : Carries config source left') :
    Carries config source (left ++ left') := by
  intro r hr
  exact (List.mem_append.mp hr).elim (h r) (h' r)

theorem Carries.singleton {r : Rule} (h : Carried config source r.selectors) : Carries config source [r] := by
  intro s hs
  rw [List.mem_singleton.mp hs]
  exact h

/-- A selector that may share no rule keeps to the lists that it was in. -/
theorem Carried.of_special {s : String} (h : Carried config source selectors) (hs : s ∈ selectors)
    (hspecial : config.profile.selectors.special.isFoundIn s = true) :
    ∃ r ∈ source, r.selectors = selectors := by
  obtain hlist | ⟨-, -, hmergeable⟩ := h
  · exact hlist
  · rw [Selector.areMergeable, Bool.and_eq_true, List.all_eq_true] at hmergeable
    have hnot := hmergeable.2 s hs
    simp [Selector.isMergeable, hspecial] at hnot

end Carried

theorem Hoist.mem_rulesOfAll_of_rulesAt {nodes : List Node} {places : List Nat} {r : Rule}
    (h : r ∈ rulesAt nodes places) : r ∈ rulesOfAll nodes := by
  obtain ⟨place, -, hr⟩ := List.mem_filterMap.mp h
  obtain ⟨node, hnode, hrule⟩ := Option.bind_eq_some_iff.mp hr
  cases node with
  | rule s =>
      cases hrule
      exact mem_rulesOfAll.mpr ⟨_, List.mem_of_getElem? hnode, List.mem_cons_self⟩
  | block head children => cases hrule
  | fields head declarations => cases hrule
  | statement text => cases hrule
  | comment text => cases hrule

theorem Hoist.carries_stripped {config : Config} (h : Hoist) {marks : List (Node × Bool)}
    (hrules : AllRules marks) :
    Carries config (rulesOfAll (marks.map Prod.fst)) (rulesOfAll (stripped config h marks)) := by
  induction marks with
  | nil => exact .of_subset (List.Subset.refl _)
  | cons mark marks ih =>
      have hrest := ih fun node hnode => hrules node (List.mem_cons_of_mem mark hnode)
      obtain ⟨node, isMarked⟩ := mark
      rw [List.map_cons, rulesOfAll]
      have hrest' := hrest.mono (List.subset_append_right node.rules _)
      cases isMarked with
      | false =>
          rw [stripped_cons_false, rulesOfAll]
          exact .append (.of_subset (List.subset_append_left _ _)) hrest'
      | true =>
          obtain ⟨r, rfl, -, -⟩ := hrules node List.mem_cons_self
          rw [stripped_cons_true, rulesOfAll_append]
          refine .append ?_ hrest'
          rw [strip_rule]
          split
          · exact .of_subset (List.nil_subset _)
          · exact .singleton (.inl ⟨r, List.mem_cons_self, rfl⟩)

namespace Siblings

variable {config : Config}

/-- An edit makes no other lists. -/
theorem Edit.carries {xs ys : List Node} (h : Edit config xs ys) :
    Carries config (rulesOfAll xs) (rulesOfAll ys) := by
  induction h with
  | within before after _ ih =>
      simp only [rulesOfAll_append]
      refine .append (.of_subset (List.subset_append_left _ _)) (.append (ih.mono ?_) (.of_subset ?_))
      · intro r hr
        simp [hr]
      · intro r hr
        simp [hr]
  | inside head _ ih =>
      simp only [rulesOfAll_singleton, Node.rules]
      exact ih
  | sink | rise =>
      refine .of_subset fun r hr => ?_
      simp only [rulesOfAll_append, rulesOfAll, List.append_nil, List.mem_append] at hr ⊢
      exact hr.symm
  | dropRule | dropMedia => exact .of_subset (List.subset_append_right _ _)
  | dropFont =>
      simp only [← List.cons_append, rulesOfAll_append]
      exact .of_subset (List.subset_append_left _ _)
  | dropEmpty => exact .of_subset (List.nil_subset _)
  | joinMedia =>
      simp only [rulesOfAll, Node.rules, rulesOfAll_append, List.append_nil]
      exact .of_subset (List.Subset.refl _)
  | @joinBodies r s t _ _ _ ht =>
      refine .singleton (.inl ⟨t, ?_, rfl⟩)
      rcases ht with rfl | rfl <;> simp [rulesOfAll, Node.rules]
  | @joinSelectors r s t _ _ hbody _ =>
      rw [Rule.mayShareBody, Bool.and_eq_true] at hbody
      refine .singleton (.of_key ?_ hbody.2)
      intro u hu
      rcases List.mem_append.mp hu with hu | hu
      · exact ⟨r, by simp [rulesOfAll, Node.rules], hu⟩
      · exact ⟨s, by simp [rulesOfAll, Node.rules], hu⟩
  | @hoist nodes h hbest =>
      have hsound := Hoist.sound_of_best? hbest
      obtain ⟨-, -, -, hselectors, hmergeable, -⟩ := Hoist.group_of_best? hbest
      have hnodes : rulesOfAll nodes = rulesOfAll (nodes.take (h.holders.headD 0))
          ++ rulesOfAll ((h.marks nodes (h.holders.headD 0)).map Prod.fst) := by
        rw [Hoist.map_fst_marks, ← rulesOfAll_append, List.take_append_drop]
      have hcarrier : Carried config (rulesOfAll nodes) (h.rule config).selectors := by
        rw [hselectors] at hmergeable
        rw [Hoist.rule, hselectors]
        refine .of_key ?_ hmergeable
        intro s hs
        obtain ⟨r, hr, hsr⟩ := List.mem_flatMap.mp hs
        exact ⟨r, Hoist.mem_rulesOfAll_of_rulesAt hr, hsr⟩
      rw [Hoist.apply_eq, rulesOfAll_append, rulesOfAll]
      refine .append ?_ (.append (.singleton hcarrier) ?_)
      · rw [hnodes]
        exact .of_subset (List.subset_append_left _ _)
      · rw [hnodes]
        exact (h.carries_stripped hsound.allReady.rules).mono (List.subset_append_right _ _)
  | optimizeBody r | minifyBody r => exact .singleton (.inl ⟨r, List.mem_cons_self, rfl⟩)
  | optimizeFields => exact .of_subset (List.Subset.refl _)

end Siblings

/-- A rule that a run leaves has the selector list of a rule of the sheet, or a sorted one of selectors of
the sheet that may all share a rule. A selector that is special to some engine stands in no other lists
than in the sheet. -/
theorem Sheet.selectors_optimize {config : Config} {sheet out : Sheet} (h : Sheet.optimize config sheet = .ok out)
    {r : Rule} (hr : r ∈ rulesOfAll out) :
    ((∃ s ∈ rulesOfAll sheet, s.selectors = r.selectors) ∨
      (r.selectors.Pairwise (· < ·) ∧ (∀ u ∈ r.selectors, ∃ s ∈ rulesOfAll sheet, u ∈ s.selectors) ∧
        Selector.areMergeable config.profile r.selectors = true)) ∧
    ∀ u ∈ r.selectors, config.profile.selectors.special.isFoundIn u = true →
      ∃ s ∈ rulesOfAll sheet, s.selectors = r.selectors := by
  have hcarries : Carries config (rulesOfAll sheet) (rulesOfAll out) :=
    (Sheet.edits_optimize h).invariant (P := fun nodes => Carries config (rulesOfAll sheet) (rulesOfAll nodes))
      (fun hedit hxs => hxs.trans hedit.carries) (.of_subset (List.Subset.refl _))
  exact ⟨hcarries r hr, fun u hu hspecial => (hcarries r hr).of_special hu hspecial⟩

/-- Two neighbours with the same body share a rule; a third keeps its own, for not every engine knows its
selector. -/
theorem Sheet.selectors_optimize_neighbours :
    let rule (selectors : List String) : Rule :=
      { selectors, declarations := [{ name := "top", value := ["0"] }] }
    let config : Config := { options := { mergeMedia := false } }
    let sheet := [Node.rule (rule ["b"]), .rule (rule ["a"]), .rule (rule ["i::-moz-selection"])]
    let out := [Node.rule (rule ["a", "b"]), .rule (rule ["i::-moz-selection"])]
    Sheet.optimize config sheet = .ok out ∧
      ((∃ s ∈ rulesOfAll sheet, s.selectors = ["a", "b"]) ∨
        (["a", "b"].Pairwise (· < ·) ∧ (∀ u ∈ ["a", "b"], ∃ s ∈ rulesOfAll sheet, u ∈ s.selectors) ∧
          Selector.areMergeable config.profile ["a", "b"] = true)) ∧
      ∃ s ∈ rulesOfAll sheet, s.selectors = ["i::-moz-selection"] := by
  intro rule config sheet out
  have hrun : Sheet.optimize config sheet = .ok out := by decide +kernel
  have hshared : rule ["a", "b"] ∈ rulesOfAll out := List.mem_cons_self
  have hown : rule ["i::-moz-selection"] ∈ rulesOfAll out := List.mem_cons_of_mem _ List.mem_cons_self
  have hspecial : config.profile.selectors.special.isFoundIn "i::-moz-selection" = true := by decide +kernel
  exact ⟨hrun, (Sheet.selectors_optimize hrun hshared).1,
    (Sheet.selectors_optimize hrun hown).2 _ List.mem_cons_self hspecial⟩

end CssMinify
