import CssMinify.Proofs.Effect.Body
import CssMinify.Proofs.Moves.Holders
import CssMinify.Proofs.Selector.Key

/-! Moving shared declarations by steps. In each holder the declarations rise to the front of the body and
are cut off; the rule that they make travels up to the one that the first holder's made, and the two are
joined. At last what is left of the holders is optimized. -/

namespace CssMinify

namespace Hoist

/-- A rule that carries the declarations. -/
def carrier (ds : List Declaration) (selectors : List String) : Node :=
  .rule { selectors, declarations := ds }

/-- What is left of a holder before it is optimized. -/
def remnant (ds : List Declaration) (r : Rule) : List Node :=
  let left := r.declarations.filter fun d => !ds.contains d
  if left.isEmpty then [] else [.rule { r with declarations := left }]

/-- One node sets nothing that the other does not set. -/
structure Within (a b : Node) : Prop where
  notSealed : a.isSealed = false → b.isSealed = false
  touches : b.touches ⊆ a.touches

theorem Within.refl (a : Node) : Within a a := ⟨id, fun _ h => h⟩

section Take

variable {config : Config} (again : List Node → Attempt (List Node)) {ds : List Declaration}
  {between : List Node} {r : Rule}

theorem within_of_mem_remnant {node : Node} (h : node ∈ remnant ds r) : Within (.rule r) node := by
  simp only [remnant] at h
  split at h
  · cases h
  · rw [List.mem_singleton] at h
    subst h
    refine ⟨id, ?_⟩
    exact List.map_subset _ (List.filter_sublist.subset)

/-- The declarations of a holder are cut off. -/
theorem reach_cutOff (hready : Ready config ds between r) (hnodup : ds.Nodup) (hne : ds ≠ []) :
    Siblings.Reach config again [.rule r] (carrier ds r.selectors :: remnant ds r) := by
  have hfront := reach_front again hready.nested ds hready.once hnodup hready.free
  have hcarrier : carrier ds r.selectors = .rule { r with declarations := ds } := by
    rw [carrier, ← hready.nested]
  rw [hcarrier]
  simp only [remnant]
  split
  · next hempty =>
      rw [List.isEmpty_iff.mp hempty, List.append_nil] at hfront
      exact hfront
  · next hleft =>
      rw [List.isEmpty_iff] at hleft
      let whole : Rule := { r with declarations := ds ++ r.declarations.filter fun d => !ds.contains d }
      have hcut : Siblings.Move config again [.rule whole] _ := .cut hready.nested hne hleft rfl
      exact hfront.trans hcut.reach

/-- The declarations of a holder are taken to those of the holders before it. -/
theorem reach_take (hready : Ready config ds between r) (hnodup : ds.Nodup) (hne : ds ≠ [])
    {left : List Node} (hleft : ∀ b ∈ left, ∃ a ∈ between, Within a b) (selectors : List String) :
    Siblings.Reach config again (carrier ds selectors :: (left ++ [.rule r]))
      (carrier ds (Selector.union selectors r.selectors) :: (left ++ remnant ds r)) := by
  -- The declarations leave their rule, rise past what the earlier holders left, and join the others.
  have hcut := (reach_cutOff again hready hnodup hne).after (carrier ds selectors :: left)
  have hpasses : ∀ b ∈ left, (carrier ds r.selectors).Passes config.options.mergeSemantically b := by
    intro b hb
    obtain ⟨a, ha, hwithin⟩ := hleft b hb
    refine ⟨rfl, rfl, hwithin.notSealed (hready.notSealed a ha), ?_⟩
    intro t ht u hu
    obtain ⟨d, hd, rfl⟩ := List.mem_map.mp ht
    exact hready.passes d hd a ha u (hwithin.touches hu)
  have hrise := (Siblings.reach_above again hpasses).within [carrier ds selectors] (remnant ds r)
  have hbody : Rule.sameBody { selectors, declarations := ds } { selectors := r.selectors, declarations := ds }
      = true := beq_self_eq_true _
  have hjoin : Siblings.Move config again [carrier ds selectors, carrier ds r.selectors]
      [carrier ds (Selector.union selectors r.selectors)] := .joinSelectors rfl rfl hbody (.inl rfl)
  have hjoined := hjoin.reach.before (left ++ remnant ds r)
  simp only [List.cons_append, List.nil_append, List.append_assoc] at hcut hrise hjoined
  exact hcut.trans (hrise.trans hjoined)

end Take

/-- The rules among marked nodes. -/
def markedRules (marks : List (Node × Bool)) : List Rule :=
  (marks.filter Prod.snd).filterMap fun mark => mark.1.rule?

/-- Marked nodes without the declarations, and the others. -/
def remnants (ds : List Declaration) (marks : List (Node × Bool)) : List Node :=
  marks.flatMap fun
    | (.rule r, true) => remnant ds r
    | (node, _) => [node]

theorem remnants_cons_false (ds : List Declaration) (node : Node) (marks : List (Node × Bool)) :
    remnants ds ((node, false) :: marks) = node :: remnants ds marks := by
  cases node <;> rfl

section Run

variable {config : Config} (again : List Node → Attempt (List Node)) {ds : List Declaration}

/-- Every marked node is a rule that can give away the declarations, past the nodes `between` and those
before it. -/
def AllReady (config : Config) (ds : List Declaration) (between : List Node) (marks : List (Node × Bool)) :
    Prop :=
  ∀ front node back, marks = front ++ (node, true) :: back →
    ∃ r, node = .rule r ∧ Ready config ds (between ++ front.map Prod.fst) r

theorem AllReady.tail {between : List Node} {mark : Node × Bool} {marks : List (Node × Bool)}
    (h : AllReady config ds between (mark :: marks)) : AllReady config ds (between ++ [mark.1]) marks := by
  intro front node back hmarks
  obtain ⟨r, hr, hready⟩ := h (mark :: front) node back (by rw [hmarks, List.cons_append])
  refine ⟨r, hr, ?_⟩
  rw [List.append_assoc]
  exact hready

/-- The declarations of all marked rules are taken together. -/
theorem reach_takeAll (hnodup : ds.Nodup) (hne : ds ≠ []) {between left : List Node}
    {marks : List (Node × Bool)} (hready : AllReady config ds between marks)
    (hleft : ∀ b ∈ left, ∃ a ∈ between, Within a b) (selectors : List String) :
    Siblings.Reach config again (carrier ds selectors :: (left ++ marks.map Prod.fst))
      (carrier ds (((markedRules marks).map Rule.selectors).foldl Selector.union selectors)
        :: (left ++ remnants ds marks)) := by
  -- `left` is what is left of the nodes `between`: past it every later holder has to rise.
  induction marks generalizing between left selectors with
  | nil => exact .refl
  | cons mark marks ih =>
      obtain ⟨node, isMarked⟩ := mark
      have hleft' (nodes : List Node) (hnodes : ∀ b ∈ nodes, Within node b) :
          ∀ b ∈ left ++ nodes, ∃ a ∈ between ++ [node], Within a b := by
        intro b hb
        rcases List.mem_append.mp hb with hb | hb
        · obtain ⟨a, ha, hwithin⟩ := hleft b hb
          exact ⟨a, List.mem_append_left [node] ha, hwithin⟩
        · exact ⟨node, by simp, hnodes b hb⟩
      cases isMarked with
      | false =>
          have hrest := ih hready.tail (hleft' [node] (by simp [Within.refl])) selectors
          rw [List.append_assoc, List.append_assoc] at hrest
          rw [remnants_cons_false]
          exact hrest
      | true =>
          obtain ⟨r, rfl, hfirst⟩ := hready [] node marks rfl
          rw [List.map_nil, List.append_nil] at hfirst
          have htake := (reach_take again hfirst hnodup hne hleft selectors).before (marks.map Prod.fst)
          have hrest := ih hready.tail (hleft' (remnant ds r) fun b hb => within_of_mem_remnant hb)
            (Selector.union selectors r.selectors)
          simp only [List.cons_append, List.append_assoc, List.nil_append] at htake hrest
          exact htake.trans hrest

/-- Every marked node is a rule from which something can be stripped. -/
def AllRules (marks : List (Node × Bool)) : Prop :=
  ∀ node, (node, true) ∈ marks → ∃ r, node = .rule r ∧ r.nested = [] ∧ r.selectors ≠ []

theorem AllReady.rules {between : List Node} {marks : List (Node × Bool)}
    (h : AllReady config ds between marks) : AllRules marks := by
  intro node hnode
  obtain ⟨front, back, hmarks⟩ := List.append_of_mem hnode
  obtain ⟨r, hr, hready⟩ := h front node back hmarks
  exact ⟨r, hr, hready.nested, hready.selectors⟩

/-- What is left of a holder is optimized. -/
theorem reach_strip (h : Hoist) {r : Rule} (hnested : r.nested = []) (hselectors : r.selectors ≠ []) :
    Siblings.Reach config again (remnant h.declarations r) (h.strip config (.rule r)).toList := by
  let left := r.declarations.filter fun d => !h.declarations.contains d
  have hstrip : h.strip config (.rule r) = if (Body.optimize config left).isEmpty then none
      else some (.rule { r with declarations := Body.optimize config left }) := by
    simp [strip, Node.isEmpty, left, hnested, hselectors]
  rw [hstrip, remnant]
  have hempty : (Body.optimize config left).isEmpty = left.isEmpty := by
    rw [Bool.eq_iff_iff, List.isEmpty_iff, List.isEmpty_iff]
    exact Body.optimize_eq_nil_iff config left
  rw [hempty]
  by_cases hleft : left.isEmpty = true
  · rw [if_pos hleft, if_pos hleft]
    exact .refl
  · rw [if_neg hleft, if_neg hleft]
    let kept : Rule := { r with declarations := left }
    have hoptimize : Siblings.Move config again [.rule kept] _ := .optimizeBody hnested
    exact hoptimize.reach

/-- Marked nodes stripped, and the others. -/
def stripped (config : Config) (h : Hoist) (marks : List (Node × Bool)) : List Node :=
  marks.filterMap fun (node, isMarked) => if isMarked then h.strip config node else some node

theorem stripped_cons_false (h : Hoist) (node : Node) (marks : List (Node × Bool)) :
    stripped config h ((node, false) :: marks) = node :: stripped config h marks := rfl

theorem stripped_cons_true (h : Hoist) (node : Node) (marks : List (Node × Bool)) :
    stripped config h ((node, true) :: marks) = (h.strip config node).toList ++ stripped config h marks := by
  rw [stripped, List.filterMap_cons]
  cases hstrip : h.strip config node <;> simp [hstrip, stripped]

/-- What is left of a rule, if anything is. -/
def remainder (config : Config) (h : Hoist) (r : Rule) : Rule :=
  { r with declarations := Body.optimize config (r.declarations.filter fun d => !h.declarations.contains d) }

theorem strip_rule (h : Hoist) (r : Rule) : (h.strip config (.rule r)).toList
    = if (Node.rule (h.remainder config r)).isEmpty then [] else [.rule (h.remainder config r)] := by
  have hstrip : h.strip config (.rule r) = if (Node.rule (h.remainder config r)).isEmpty then none
      else some (.rule (h.remainder config r)) := rfl
  rw [hstrip]
  split <;> rfl

theorem reach_stripped (h : Hoist) {marks : List (Node × Bool)} (hrules : AllRules marks) :
    Siblings.Reach config again (remnants h.declarations marks) (stripped config h marks) := by
  induction marks with
  | nil => exact .refl
  | cons mark marks ih =>
      have hrest := ih fun node hnode => hrules node (List.mem_cons_of_mem mark hnode)
      obtain ⟨node, isMarked⟩ := mark
      cases isMarked with
      | false =>
          rw [remnants_cons_false]
          exact hrest.after [node]
      | true =>
          obtain ⟨r, rfl, hnested, hselectors⟩ := hrules node List.mem_cons_self
          rw [stripped_cons_true]
          exact ((reach_strip again h hnested hselectors).before _).trans (hrest.after _)

end Run

section Apply

variable {config : Config} (again : List Node → Attempt (List Node)) {nodes : List Node} {h : Hoist}

/-- The nodes from a place on, the holders marked. -/
def marks (h : Hoist) (nodes : List Node) (start : Nat) : List (Node × Bool) :=
  (nodes.zipIdx.drop start).map fun (node, place) => (node, h.holders.contains place)

theorem getElem?_marks (start k : Nat) :
    (h.marks nodes start)[k]?
      = nodes[start + k]?.map fun node => (node, h.holders.contains (start + k)) := by
  simp [marks, Function.comp_def]

theorem map_fst_marks (start : Nat) : (h.marks nodes start).map Prod.fst = nodes.drop start := by
  simp [marks, Function.comp_def]

theorem apply_eq : h.apply config nodes
    = nodes.take (h.holders.headD 0) ++
      .rule (h.rule config) :: stripped config h (h.marks nodes (h.holders.headD 0)) := by
  rw [apply, stripped, marks, List.filterMap_map]
  rfl

theorem mem_marks {start : Nat} {node : Node} {isMarked : Bool} :
    (node, isMarked) ∈ h.marks nodes start ↔
      ∃ place, start ≤ place ∧ nodes[place]? = some node ∧ h.holders.contains place = isMarked := by
  simp only [List.mem_iff_getElem?, getElem?_marks, Option.map_eq_some_iff, Prod.mk.injEq]
  constructor
  · rintro ⟨k, _, hnode, rfl, hmarked⟩
    exact ⟨start + k, Nat.le_add_right start k, hnode, hmarked⟩
  · rintro ⟨place, hle, hnode, hmarked⟩
    obtain ⟨k, rfl⟩ := Nat.exists_eq_add_of_le hle
    exact ⟨k, node, hnode, rfl, hmarked⟩

theorem mem_markedRules {start : Nat} {r : Rule} :
    r ∈ markedRules (h.marks nodes start) ↔
      ∃ place ∈ h.holders, start ≤ place ∧ nodes[place]? = some (.rule r) := by
  have hrule (node : Node) : node.rule? = some r ↔ node = .rule r := by
    cases node <;> simp [Node.rule?]
  simp only [markedRules, List.mem_filterMap, List.mem_filter, hrule]
  constructor
  · rintro ⟨⟨_, _⟩, ⟨hmem, rfl⟩, rfl⟩
    obtain ⟨place, hle, hnode, hmarked⟩ := mem_marks.mp hmem
    exact ⟨place, List.contains_iff_mem.mp hmarked, hle, hnode⟩
  · rintro ⟨place, hplace, hle, hnode⟩
    have hmem := mem_marks.mpr ⟨place, hle, hnode, List.contains_iff_mem.mpr hplace⟩
    exact ⟨(.rule r, true), ⟨hmem, rfl⟩, rfl⟩

/-- Every holder can give away the declarations, past all from the first holder on. -/
theorem Sound.allReady (hsound : Sound config.options.mergeSemantically nodes h) :
    AllReady config h.declarations [] (h.marks nodes (h.holders.headD 0)) := by
  intro front node back hmarks
  let first := h.holders.headD 0
  have hmark : (h.marks nodes first)[front.length]? = some (node, true) := by
    rw [hmarks]
    simp
  rw [getElem?_marks, Option.map_eq_some_iff] at hmark
  obtain ⟨node', hnode, heq⟩ := hmark
  obtain ⟨rfl, hplace⟩ := Prod.mk.inj heq
  obtain ⟨r, hr, hready⟩ := hsound.ready (List.contains_iff_mem.mp hplace)
  rw [hnode] at hr
  cases hr
  have hbetween : (nodes.take (first + front.length)).drop first = front.map Prod.fst := by
    rw [List.drop_take, ← map_fst_marks, hmarks]
    simp
  rw [hbetween] at hready
  exact ⟨r, rfl, hready⟩

theorem marks_cons {start : Nat} {node : Node} (hnode : nodes[start]? = some node) :
    h.marks nodes start = (node, h.holders.contains start) :: h.marks nodes (start + 1) := by
  apply List.ext_getElem?
  intro k
  rw [getElem?_marks]
  cases k with
  | zero => rw [Nat.add_zero, hnode, Option.map_some, List.getElem?_cons_zero]
  | succ k => rw [List.getElem?_cons_succ, getElem?_marks, Nat.add_right_comm, Nat.add_assoc]

/-- The first holder stands before all others, and there is another. -/
theorem Sound.exists_first (hsound : Sound config.options.mergeSemantically nodes h) :
    h.holders.headD 0 ∈ h.holders ∧ (∀ place ∈ h.holders, h.holders.headD 0 ≤ place) ∧
      markedRules (h.marks nodes (h.holders.headD 0 + 1)) ≠ [] := by
  obtain ⟨d, hd⟩ := List.exists_mem_of_ne_nil _ hsound.nonempty
  obtain ⟨htwo, hsorted, -, -⟩ := hsound.movable d hd
  match hholders : h.holders with
  | [] | [_] =>
      rw [hholders] at htwo
      simp at htwo
  | first :: second :: more =>
      rw [hholders, List.pairwise_cons] at hsorted
      refine ⟨List.mem_cons_self, ?_, ?_⟩
      · intro place hplace
        rcases List.mem_cons.mp hplace with rfl | hplace
        · exact Nat.le_refl _
        · exact Nat.le_of_lt (hsorted.1 place hplace)
      · have hsecond : second ∈ h.holders := by simp [hholders]
        obtain ⟨r, hr, -⟩ := hsound.ready hsecond
        exact List.ne_nil_of_mem
          (mem_markedRules.mpr ⟨second, hsecond, hsorted.1 second List.mem_cons_self, hr⟩)

/-- The selectors of the new rule are those of the first holder and of those after it. -/
theorem Sound.selectors_eq (hsound : Sound config.options.mergeSemantically nodes h) {r : Rule}
    (hr : nodes[h.holders.headD 0]? = some (.rule r)) :
    h.selectors = Selector.key (r.selectors ++
      ((markedRules (h.marks nodes (h.holders.headD 0 + 1))).map Rule.selectors).flatten) := by
  obtain ⟨hfirst, hleast, -⟩ := hsound.exists_first
  have hrule (place : Nat) (s : Rule) :
      nodes[place]?.bind Node.rule? = some s ↔ nodes[place]? = some (.rule s) := by
    cases hnode : nodes[place]? with
    | none => simp
    | some node => cases node <;> simp [Node.rule?]
  rw [hsound.selectors]
  apply Selector.key_congr
  intro s
  simp only [List.mem_flatMap, rulesAt, List.mem_filterMap, hrule, List.mem_append, List.mem_flatten,
    List.mem_map]
  constructor
  · rintro ⟨t, ⟨place, hplace, ht⟩, hs⟩
    rcases Nat.eq_or_lt_of_le (hleast place hplace) with heq | hlt
    · rw [← heq, hr] at ht
      cases ht
      exact .inl hs
    · exact .inr ⟨t.selectors, ⟨t, mem_markedRules.mpr ⟨place, hplace, hlt, ht⟩, rfl⟩, hs⟩
  · rintro (hs | ⟨_, ⟨t, ht, rfl⟩, hs⟩)
    · exact ⟨r, ⟨_, hfirst, hr⟩, hs⟩
    · obtain ⟨place, hplace, -, ht⟩ := mem_markedRules.mp ht
      exact ⟨t, ⟨place, hplace, ht⟩, hs⟩

/-- A move is made of steps. -/
theorem Sound.reach_apply (hsound : Sound config.options.mergeSemantically nodes h) :
    Siblings.Reach config again nodes (h.apply config nodes) := by
  let first := h.holders.headD 0
  obtain ⟨hfirst, -, hothers⟩ := hsound.exists_first
  obtain ⟨r, hr, -⟩ := hsound.ready hfirst
  have hready := hsound.allReady
  have hmarks : h.marks nodes first = (.rule r, true) :: h.marks nodes (first + 1) := by
    rw [marks_cons hr, List.contains_iff_mem.mpr hfirst]
  have hmoved : Siblings.Reach config again (nodes.drop first)
      (carrier h.declarations h.selectors :: remnants h.declarations (h.marks nodes first)) := by
    rw [hmarks] at hready
    obtain ⟨_, ⟨⟩, hfirstReady⟩ := hready [] (.rule r) _ rfl
    have hcut := reach_cutOff again hfirstReady hsound.nodup hsound.nonempty
    have hleft : ∀ b ∈ remnant h.declarations r, ∃ a ∈ [Node.rule r], Within a b := by
      intro b hb
      exact ⟨.rule r, List.mem_cons_self, within_of_mem_remnant hb⟩
    have htake := reach_takeAll again hsound.nodup hsound.nonempty hready.tail hleft r.selectors
    rw [Selector.foldl_union _ (mt List.map_eq_nil_iff.mp hothers), ← hsound.selectors_eq hr] at htake
    rw [← map_fst_marks (h := h), hmarks]
    exact (hcut.before _).trans htake
  have hoptimized : Siblings.Move config again [carrier h.declarations h.selectors] [.rule (h.rule config)] :=
    .optimizeBody rfl
  have hstripped : Siblings.Reach config again (remnants h.declarations (h.marks nodes first))
      (stripped config h (h.marks nodes first)) := reach_stripped again h hready.rules
  have hfrom := hmoved.trans ((hoptimized.reach.before _).trans (hstripped.after [.rule (h.rule config)]))
  have hall := Siblings.Reach.after (nodes.take first) hfrom
  rw [List.take_append_drop] at hall
  rw [apply_eq]
  exact hall

end Apply

end Hoist

namespace Siblings

variable {config : Config} (again : List Node → Attempt (List Node))

theorem reach_hoistWithin {steps : Nat} {nodes left : List Node} {moved : Nat}
    (h : hoistWithin config steps nodes = .ok (left, moved)) : Reach config again nodes left := by
  induction steps generalizing nodes moved with
  | zero =>
      cases h
      exact .refl
  | succ steps ih =>
      rw [hoistWithin] at h
      obtain ⟨best, hbest, h⟩ := Attempt.exists_of_bind h
      cases best with
      | none =>
          cases h
          exact .refl
      | some hoist =>
          obtain ⟨⟨rest, count⟩, hrest, h⟩ := Attempt.exists_of_bind h
          cases h
          exact ((Hoist.sound_of_best? hbest).reach_apply again).trans (ih hrest)

end Siblings

end CssMinify
