import CssMinify.Proofs.Size.Sheets

/-! What a move saves. The gain that is computed for a group of shared declarations is the number of bytes that the
text of the siblings loses when the declarations are taken out of their holders, holders with nothing left go, and
the rule that takes the declarations is put before the first holder. A group whose move pays is never passed over. -/

namespace CssMinify

namespace Hoist

open Text Node

variable {config : Config} {nodes : List Node} {h : Hoist}

section Outcome

/-- What is left of a holder, its body tidied; nothing if it is empty. -/
def stripWith (tidy : List Declaration → List Declaration) (h : Hoist) (node : Node) : Option Node :=
  match node with
  | .rule r =>
    let left := Node.rule { r with declarations := tidy (r.declarations.filter fun d => !h.declarations.contains d) }
    if left.isEmpty then none else some left
  | node => if node.isEmpty then none else some node

/-- Carries out the move and tidies the bodies that it makes. -/
def applyWith (tidy : List Declaration → List Declaration) (h : Hoist) (nodes : List Node) : List Node :=
  let first := h.holders.headD 0
  let stripped := nodes.zipIdx.drop first |>.filterMap fun (node, place) =>
    if h.holders.contains place then h.stripWith tidy node else some node
  nodes.take first ++ .rule { selectors := h.selectors, declarations := tidy h.declarations } :: stripped

/-- A move as it is carried out tidies bodies by optimizing them. -/
theorem apply_eq_applyWith (config : Config) (h : Hoist) (nodes : List Node) :
    h.apply config nodes = h.applyWith (Body.optimize config) nodes := by
  have hstrip (node : Node) : h.strip config node = h.stripWith (Body.optimize config) node := by
    cases node <;> rfl
  simp only [apply, applyWith, rule, hstrip]

theorem toList_stripWith_id {r : Rule} (hnested : r.nested = []) (hselectors : r.selectors ≠ []) :
    (h.stripWith id (.rule r)).toList = remnant h.declarations r := by
  simp only [stripWith, remnant, Node.isEmpty, hnested, id_eq, List.isEmpty_eq_false_iff.mpr hselectors,
    List.isEmpty_nil, Bool.and_true, Bool.false_or]
  split <;> rfl

/-- Without tidying, the remnants of the holders are what is left of them. -/
theorem Sound.applyWith_id (hsound : Sound config.options.mergeSemantically nodes h) :
    h.applyWith id nodes = nodes.take (h.holders.headD 0) ++ carrier h.declarations h.selectors ::
      remnants h.declarations (h.marks nodes (h.holders.headD 0)) := by
  have hrules := hsound.allReady.rules
  have hstripped : ((h.marks nodes (h.holders.headD 0)).filterMap fun mark =>
      if mark.2 then h.stripWith id mark.1 else some mark.1)
        = remnants h.declarations (h.marks nodes (h.holders.headD 0)) := by
    rw [List.filterMap_eq_flatMap_toList, remnants]
    refine List.flatMap_congr fun mark hmark => ?_
    obtain ⟨node, isMarked⟩ := mark
    cases isMarked with
    | false => cases node <;> rfl
    | true =>
        obtain ⟨r, rfl, hnested, hselectors⟩ := hrules node hmark
        exact toList_stripWith_id hnested hselectors
  rw [← hstripped, marks, List.filterMap_map]
  rfl

end Outcome

section Bytes

variable {ds : List Declaration} {between : List Node}

/-- All holders together lose what is counted, and the other nodes lose nothing. -/
theorem size_remnants (hnodup : ds.Nodup) {marks : List (Node × Bool)}
    (hready : AllReady config ds between marks) :
    sizeOfAll (remnants ds marks) + total (lossOf ds) (markedRules marks) = sizeOfAll (marks.map Prod.fst) := by
  induction marks generalizing between with
  | nil => rfl
  | cons mark marks ih =>
      have hrest := ih hready.tail
      obtain ⟨node, isMarked⟩ := mark
      cases isMarked with
      | false =>
          have hmarked : markedRules ((node, false) :: marks) = markedRules marks := rfl
          simp only [remnants_cons_false, hmarked, List.map_cons, sizeOfAll_cons]
          omega
      | true =>
          obtain ⟨r, rfl, hr⟩ := hready [] node marks rfl
          have hmarked : markedRules ((.rule r, true) :: marks) = r :: markedRules marks := rfl
          have hremnants : remnants ds ((.rule r, true) :: marks) = remnant ds r ++ remnants ds marks := rfl
          have hone := size_remnant hr hnodup
          simp only [hremnants, hmarked, List.map_cons, sizeOfAll_append, sizeOfAll_cons, total, Node.print]
          omega

/-- The bytes of the rule that takes the declarations, which has no semicolon after the last of them. -/
theorem byteLength_carrier (hne : ds ≠ []) (selectors : List String) :
    byteLength (carrier ds selectors).print + 1 = byteLength (joined "," selectors) + 2 + bodySize ds := by
  have hpos := bodySize_pos hne
  rw [carrier, Node.print, Rule.byteLength_print, Rule.byteLength_printBody_of_nested rfl]
  simp only
  omega

/-- The text after the move and what the holders lose are the text before it and the new rule. -/
theorem Sound.size_applyWith_id (hsound : Sound config.options.mergeSemantically nodes h) :
    sizeOfAll (h.applyWith id nodes) + total (lossOf h.declarations) (rulesAt nodes h.holders)
      = sizeOfAll nodes + byteLength (carrier h.declarations h.selectors).print := by
  let first := h.holders.headD 0
  have hnodes : sizeOfAll (nodes.take first) + sizeOfAll ((h.marks nodes first).map Prod.fst) = sizeOfAll nodes := by
    rw [← sizeOfAll_append, map_fst_marks, List.take_append_drop]
  have hremnants := size_remnants hsound.nodup hsound.allReady
  rw [total_perm _ hsound.rulesAt_perm, hsound.applyWith_id, sizeOfAll_append, sizeOfAll_cons]
  simp only [first] at hnodes
  omega

end Bytes

section Gain

theorem Sound.gain?_eq_some_iff (hsound : Sound config.options.mergeSemantically nodes h) (gain : Nat) :
    gain? (rulesAt nodes h.holders) h.declarations h.selectors = some gain ↔
      0 < gain ∧ sizeOfAll (h.applyWith id nodes) + gain = sizeOfAll nodes := by
  have hsize := hsound.size_applyWith_id
  have hrule := byteLength_carrier hsound.nonempty h.selectors
  simp only [gain?]
  split
  · rw [Option.some.injEq]
    omega
  · simp only [reduceCtorEq, false_iff]
    omega

theorem Sound.gain?_eq_none_iff (hsound : Sound config.options.mergeSemantically nodes h) :
    gain? (rulesAt nodes h.holders) h.declarations h.selectors = none ↔
      sizeOfAll nodes ≤ sizeOfAll (h.applyWith id nodes) := by
  rw [Option.eq_none_iff_forall_ne_some]
  simp only [ne_eq, hsound.gain?_eq_some_iff]
  constructor
  · intro hnone
    have hzero := hnone (sizeOfAll nodes - sizeOfAll (h.applyWith id nodes))
    omega
  · intro hle gain
    omega

/-- A group of shared declarations whose move is weighed, with the selectors of its holders. -/
structure Weighed (config : Config) (nodes : List Node) (h : Hoist) : Prop where
  grouped : ∃ pairs, shared config.options.mergeSemantically nodes = .ok pairs ∧
    (h.declarations, h.holders) ∈ groups pairs
  selectors : h.selectors = Selector.key ((rulesAt nodes h.holders).flatMap Rule.selectors)

theorem Weighed.sound (hweighed : Weighed config nodes h) : Sound config.options.mergeSemantically nodes h := by
  obtain ⟨⟨pairs, hpairs, hgroup⟩, hselectors⟩ := hweighed
  exact sound_of_group hpairs hgroup hselectors

theorem weighed_of_best? (hbest : best? config nodes = .ok (some h)) : Weighed config nodes h ∧
    gain? (rulesAt nodes h.holders) h.declarations h.selectors = some h.gain := by
  obtain ⟨pairs, hpairs, hgroup, hselectors, -, hgain⟩ := group_of_best? hbest
  exact ⟨⟨⟨pairs, hpairs, hgroup⟩, hselectors⟩, hgain⟩

/-- The holders are two or more, in their order, and each is a rule that has each declaration once. -/
structure HeldOnce (nodes : List Node) (h : Hoist) : Prop where
  nonempty : h.declarations ≠ []
  nodup : h.declarations.Nodup
  two : 2 ≤ h.holders.length
  sorted : h.holders.Pairwise (· < ·)
  once : ∀ place ∈ h.holders, ∃ r, nodes[place]? = some (.rule r) ∧ r.nested = [] ∧
    ∀ d ∈ h.declarations, r.declarations.count d = 1

theorem Sound.heldOnce (hsound : Sound config.options.mergeSemantically nodes h) : HeldOnce nodes h := by
  obtain ⟨d, hd⟩ := List.exists_mem_of_ne_nil _ hsound.nonempty
  obtain ⟨htwo, hsorted, -, -⟩ := hsound.movable d hd
  refine ⟨hsound.nonempty, hsound.nodup, htwo, hsorted, fun place hplace => ?_⟩
  obtain ⟨r, hr, hready⟩ := hsound.ready hplace
  exact ⟨r, hr, hready.nested, hready.once⟩

/-- The gain is exact. The move that is chosen saves its gain, which is not zero, if the bodies that it makes are not
optimized, as they are when it is carried out. Of every group whose move is weighed, the size that is computed for the
new rule is the size of its text, and there is a gain just where the text gets shorter, by the gain. -/
theorem gain_exact (config : Config) (nodes : List Node) (h : Hoist) :
    h.apply config nodes = h.applyWith (Body.optimize config) nodes ∧
      (best? config nodes = .ok (some h) → Weighed config nodes h ∧ HeldOnce nodes h ∧ 0 < h.gain ∧
        sizeOfAll (h.applyWith id nodes) + h.gain = sizeOfAll nodes) ∧
      (Weighed config nodes h →
        byteLength (carrier h.declarations h.selectors).print + 1
            = byteLength (joined "," h.selectors) + 2 + bodySize h.declarations ∧
          (∀ gain, gain? (rulesAt nodes h.holders) h.declarations h.selectors = some gain ↔
            0 < gain ∧ sizeOfAll (h.applyWith id nodes) + gain = sizeOfAll nodes) ∧
          (gain? (rulesAt nodes h.holders) h.declarations h.selectors = none ↔
            sizeOfAll nodes ≤ sizeOfAll (h.applyWith id nodes))) := by
  refine ⟨apply_eq_applyWith config h nodes, fun hbest => ?_, fun hweighed => ?_⟩
  · obtain ⟨hweighed, hgain⟩ := weighed_of_best? hbest
    exact ⟨hweighed, hweighed.sound.heldOnce, (hweighed.sound.gain?_eq_some_iff h.gain).mp hgain⟩
  · have hsound := hweighed.sound
    exact ⟨byteLength_carrier hsound.nonempty h.selectors, hsound.gain?_eq_some_iff,
      hsound.gain?_eq_none_iff⟩

/-- One holder stays and one goes altogether. -/
theorem gain_exact_color_display :
    let color : Declaration := { name := "color", value := ["red"] }
    let display : Declaration := { name := "display", value := ["block"] }
    let margin : Declaration := { name := "margin", value := ["0"] }
    let nodes : List Node := [.rule { selectors := [".one"], declarations := [color, display, margin] },
      .rule { selectors := [".two"], declarations := [display, color] }]
    let h : Hoist := { declarations := [color, display], holders := [0, 1], selectors := [".one", ".two"], gain := 19 }
    best? {} nodes = .ok (some h) ∧ HeldOnce nodes h ∧ sizeOfAll (h.applyWith id nodes) + h.gain = sizeOfAll nodes := by
  intro color display margin nodes h
  have hbest : best? {} nodes = .ok (some h) := by decide +kernel
  obtain ⟨-, hchosen, -⟩ := gain_exact {} nodes h
  obtain ⟨-, honce, -, hsize⟩ := hchosen hbest
  exact ⟨hbest, honce, hsize⟩

end Gain

end Hoist

end CssMinify
