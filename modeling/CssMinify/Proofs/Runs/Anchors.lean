import CssMinify.Proofs.Moves.Hoisting
import CssMinify.Proofs.Runs.Edit

/-! What holds its place in a sheet. The order of layers is that of their first mentions, and nothing is
known of what a nested text or an unknown at-rule does; so a run keeps all of these, in their order and
through every block. Nodes do travel past layers, and blocks around anchors are merged, pruned and
optimized: what counts is that the node which travels holds no anchor. -/

namespace CssMinify

/-- What a run may neither drop nor move past another of its kind. -/
inductive Anchor where
  /-- A layer is named, by the head of a block or by a statement. -/
  | layer (head : String)
  /-- A rule that holds more than declarations. -/
  | nesting (selectors : List String) (texts : List NestedText)
  /-- An at-rule that is kept as written with its block. -/
  | kept (text : String)
  deriving DecidableEq, Repr

namespace Node

mutual

/-- The anchors of a node and of what is inside it, in the order of the text. -/
def anchors : Node → List Anchor
  | rule r => if r.selectors.isEmpty || r.nested.isEmpty then [] else [.nesting r.selectors r.nested]
  | block head children => (if isLayerHead head then [.layer head] else []) ++ anchorsOfAll children
  | statement text =>
    (if isLayerHead text then [.layer text] else [])
      ++ if Text.endsWith text "\x7d" then [.kept text] else []
  | fields .. | comment _ => []

def anchorsOfAll : List Node → List Anchor
  | [] => []
  | node :: rest => node.anchors ++ anchorsOfAll rest

end

@[simp] theorem anchorsOfAll_append (xs ys : List Node) :
    anchorsOfAll (xs ++ ys) = anchorsOfAll xs ++ anchorsOfAll ys := by
  induction xs with
  | nil => rfl
  | cons node rest ih => rw [List.cons_append, anchorsOfAll, anchorsOfAll, ih, List.append_assoc]

theorem anchorsOfAll_singleton (node : Node) : anchorsOfAll [node] = node.anchors := by
  rw [anchorsOfAll, anchorsOfAll, List.append_nil]

theorem anchors_of_nested_eq_nil {r : Rule} (h : r.nested = []) : (rule r).anchors = [] := by
  simp [anchors, h]

mutual

/-- What may travel holds no anchor. -/
theorem anchors_of_free {node : Node} (hsealed : node.isSealed = false) (hlayer : node.mentionsLayer = false) :
    node.anchors = [] := by
  cases node with
  | rule r => exact anchors_of_nested_eq_nil (by simpa [isSealed] using hsealed)
  | block head children =>
      rw [isSealed] at hsealed
      rw [mentionsLayer, Bool.or_eq_false_iff] at hlayer
      rw [anchors, hlayer.1, anchorsOfAll_of_free hsealed hlayer.2]
      rfl
  | fields head declarations => rfl
  | statement text =>
      rw [isSealed] at hsealed
      rw [mentionsLayer] at hlayer
      rw [anchors, hsealed, hlayer]
      rfl
  | comment text => rfl

theorem anchorsOfAll_of_free {nodes : List Node} (hsealed : anySealed nodes = false)
    (hlayer : anyMentionsLayer nodes = false) : anchorsOfAll nodes = [] := by
  cases nodes with
  | nil => rfl
  | cons node rest =>
      rw [anySealed, Bool.or_eq_false_iff] at hsealed
      rw [anyMentionsLayer, Bool.or_eq_false_iff] at hlayer
      rw [anchorsOfAll, anchors_of_free hsealed.1 hlayer.1, anchorsOfAll_of_free hsealed.2 hlayer.2]
      rfl

end

theorem anchors_of_mayTravel {semantic : Bool} {mover : Node} {between : List Node}
    (h : mover.mayTravel semantic between = .ok true) : mover.anchors = [] := by
  rw [mayTravel] at h
  split at h
  · cases h
  · next hguard =>
      simp only [Bool.or_eq_true, not_or, Bool.not_eq_true] at hguard
      exact anchors_of_free hguard.1.1 hguard.1.2

mutual

/-- What is pruned holds no anchor. -/
theorem anchors_of_isEmpty {node : Node} (h : node.isEmpty = true) : node.anchors = [] := by
  cases node with
  | rule r =>
      rw [isEmpty, Bool.or_eq_true, Bool.and_eq_true] at h
      rw [anchors, if_pos]
      rw [Bool.or_eq_true]
      exact h.imp_right And.right
  | block head children =>
      rw [isEmpty, Bool.and_eq_true, Bool.not_eq_true'] at h
      rw [anchors, h.1, anchorsOfAll_of_allEmpty h.2]
      rfl
  | fields head declarations => rfl
  | statement text => cases h
  | comment text => cases h

theorem anchorsOfAll_of_allEmpty {nodes : List Node} (h : allEmpty nodes = true) : anchorsOfAll nodes = [] := by
  cases nodes with
  | nil => rfl
  | cons node rest =>
      rw [allEmpty, Bool.and_eq_true] at h
      rw [anchorsOfAll, anchors_of_isEmpty h.1, anchorsOfAll_of_allEmpty h.2]
      rfl

end

/-- The head of a block for media names no layer. -/
theorem isLayerHead_of_media? {head : String} {children : List Node}
    (h : (block head children).media?.isSome = true) : isLayerHead head = false := by
  have hmedia : Text.startsWith (Text.lower head) "@media" = true := by
    rw [media?] at h
    split at h
    · assumption
    · cases h
  obtain ⟨rest, hrest⟩ := List.isPrefixOf_iff_prefix.mp hmedia
  rw [isLayerHead, ← hrest]
  rfl

theorem anchors_of_fontFace? {node : Node} {body : String} (h : node.fontFace? = some body) :
    node.anchors = [] := by
  cases node with
  | fields head declarations => rfl
  | rule r => cases h
  | block head children => cases h
  | statement text => cases h
  | comment text => cases h

end Node

open Node

theorem Hoist.anchors_stripped {config : Config} (h : Hoist) {marks : List (Node × Bool)}
    (hrules : AllRules marks) : anchorsOfAll (stripped config h marks) = anchorsOfAll (marks.map Prod.fst) := by
  induction marks with
  | nil => rfl
  | cons mark marks ih =>
      have hrest := ih fun node hnode => hrules node (List.mem_cons_of_mem mark hnode)
      obtain ⟨node, isMarked⟩ := mark
      cases isMarked with
      | false =>
          rw [stripped_cons_false, List.map_cons, anchorsOfAll, anchorsOfAll, hrest]
      | true =>
          obtain ⟨r, rfl, hnested, -⟩ := hrules node List.mem_cons_self
          have hstrip : anchorsOfAll (h.strip config (.rule r)).toList = [] := by
            rw [strip_rule]
            split
            · rfl
            · rw [anchorsOfAll_singleton]
              exact anchors_of_nested_eq_nil hnested
          rw [stripped_cons_true, anchorsOfAll_append, hstrip, List.map_cons, anchorsOfAll,
            anchors_of_nested_eq_nil hnested, hrest]

namespace Siblings

variable {config : Config}

/-- An edit keeps the anchors. -/
theorem Edit.anchors {xs ys : List Node} (h : Edit config xs ys) : anchorsOfAll ys = anchorsOfAll xs := by
  induction h with
  | within before after _ ih => simp only [anchorsOfAll_append, ih]
  | inside head _ ih => simp only [anchorsOfAll_singleton, Node.anchors, ih]
  | sink htravel | rise htravel =>
      simp [anchorsOfAll, anchors_of_mayTravel htravel]
  | dropRule hr hs =>
      simp [anchorsOfAll, anchors_of_nested_eq_nil hr]
  | dropMedia _ hsealed hlayer =>
      simp [anchorsOfAll, anchors_of_free hsealed hlayer]
  | dropFont _ hsecond => simp [anchorsOfAll, anchors_of_fontFace? hsecond]
  | dropEmpty hempty => simp [anchorsOfAll, anchors_of_isEmpty hempty]
  | joinBodies hr hs _ ht | joinSelectors hr hs _ ht =>
      rcases ht with rfl | rfl <;> simp [anchorsOfAll, Node.anchors, hr, hs]
  | joinMedia hmedia => simp [anchorsOfAll, Node.anchors, isLayerHead_of_media? hmedia]
  | @hoist nodes h hbest =>
      have hsound := Hoist.sound_of_best? hbest
      have hcarrier : (Node.rule (h.rule config)).anchors = [] := anchors_of_nested_eq_nil rfl
      calc anchorsOfAll (h.apply config nodes)
          = anchorsOfAll (nodes.take (h.holders.headD 0))
              ++ anchorsOfAll ((h.marks nodes (h.holders.headD 0)).map Prod.fst) := by
            rw [Hoist.apply_eq, anchorsOfAll_append, anchorsOfAll, hcarrier,
              Hoist.anchors_stripped h hsound.allReady.rules, List.nil_append]
        _ = anchorsOfAll nodes := by
            rw [Hoist.map_fst_marks, ← anchorsOfAll_append, List.take_append_drop]
  | optimizeBody r | minifyBody r => simp only [anchorsOfAll_singleton, Node.anchors]
  | optimizeFields => rfl

end Siblings

/-- A run keeps layers, nested rules and unknown at-rules, each of them once and in their order. -/
theorem Sheet.anchors_optimize {config : Config} {sheet out : Sheet} (h : Sheet.optimize config sheet = .ok out) :
    anchorsOfAll out = anchorsOfAll sheet := by
  have hkeeps : ∀ {xs ys : List Node}, Siblings.Edit config xs ys →
      anchorsOfAll xs = anchorsOfAll sheet → anchorsOfAll ys = anchorsOfAll sheet :=
    fun hedit hxs => hedit.anchors.trans hxs
  exact (Sheet.edits_optimize h).invariant hkeeps rfl

/-- A rule sinks past a layer to one with the same selectors, and a layer keeps a nested rule while an
empty one goes. -/
theorem Sheet.anchors_optimize_layers :
    let top : Declaration := { name := "top", value := ["0"] }
    let left : Declaration := { name := "left", value := ["0"] }
    let nesting := Node.rule { selectors := ["b"], declarations := [top], nested := [⟨1, "& i\x7b\x7d"⟩] }
    let base := Node.statement "@layer base"
    let unknown := Node.statement "@x\x7by\x7d"
    let config : Config := { options := { mergeMedia := false } }
    let sheet := [.rule { selectors := ["a"], declarations := [top] }, base,
      .rule { selectors := ["a"], declarations := [left] },
      .block "@layer x" [nesting, .rule { selectors := ["c"], declarations := [] }], unknown]
    let out := [base, .rule { selectors := ["a"], declarations := [top, left] }, .block "@layer x" [nesting],
      unknown]
    Sheet.optimize config sheet = .ok out ∧ anchorsOfAll out = anchorsOfAll sheet := by
  intro top left nesting base unknown config sheet out
  have hrun : Sheet.optimize config sheet = .ok out := by decide +kernel
  exact ⟨hrun, Sheet.anchors_optimize hrun⟩

end CssMinify
