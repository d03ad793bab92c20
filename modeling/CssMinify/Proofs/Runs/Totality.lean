import CssMinify.Minify
import CssMinify.Proofs.Runs.SelectorLists

/-! When a run gives a result. Selectors are read to find out whether two rules may change places, and
reading fails in one place only: a string that is left open loses its last byte in place of a closing
quote, and that byte can belong to a wide character. A run on a sheet without such a string never fails,
for no pass makes a selector that was not there. -/

namespace CssMinify

namespace Attempt

/-- An attempt that gives a result. -/
def Succeeds {α : Type} (x : Attempt α) : Prop := ∃ a, x = .ok a

variable {α β : Type}

theorem Succeeds.bind {x : Attempt α} {f : α → Attempt β} (hx : Succeeds x)
    (hf : ∀ a, x = .ok a → Succeeds (f a)) : Succeeds (x >>= f) := by
  obtain ⟨a, rfl⟩ := hx
  exact hf a rfl

theorem succeeds_allM {test : α → Attempt Bool} {as : List α} (h : ∀ a ∈ as, Succeeds (test a)) :
    Succeeds (as.allM test) := by
  induction as with
  | nil => exact ⟨true, rfl⟩
  | cons a as ih =>
      refine (h a List.mem_cons_self).bind ?_
      intro passed _
      cases passed with
      | false => exact ⟨false, rfl⟩
      | true => exact ih fun b hb => h b (List.mem_cons_of_mem a hb)

theorem succeeds_foldlM {step : β → α → Attempt β} {as : List α} (h : ∀ b, ∀ a ∈ as, Succeeds (step b a))
    (first : β) : Succeeds (as.foldlM step first) := by
  induction as generalizing first with
  | nil => exact ⟨first, rfl⟩
  | cons a as ih =>
      rw [List.foldlM_cons]
      exact (h first a List.mem_cons_self).bind fun b _ => ih (fun b c hc => h b c (List.mem_cons_of_mem a hc)) b

theorem succeeds_mapM {f : α → Attempt β} {as : List α} (h : ∀ a ∈ as, Succeeds (f a)) :
    Succeeds (as.mapM f) := by
  induction as with
  | nil => exact ⟨[], rfl⟩
  | cons a as ih =>
      rw [List.mapM_cons]
      refine (h a List.mem_cons_self).bind fun b _ => ?_
      exact (ih fun c hc => h c (List.mem_cons_of_mem a hc)).bind fun bs _ => ⟨b :: bs, rfl⟩

end Attempt

open Attempt

namespace Selector

/-- A string that ends in a wide character, so without a closing quote. -/
def Operand.endsWide : Operand → Bool
  | ident _ => false
  | quoted text => !text.toList.getLast?.all Text.isAscii

theorem Operand.isOk_content {operand : Operand} (h : operand.endsWide = false) :
    operand.content.isOk = true := by
  cases operand with
  | ident text => rfl
  | quoted text =>
      rw [endsWide, Bool.not_eq_false'] at h
      rw [content, unquote]
      split
      · next q c rest htext =>
          rw [htext, List.getLast?_cons_cons] at h
          have hascii : ((c :: rest).getLast?.any Text.isAscii) = true := by
            rw [List.getLast?_eq_some_getLast (List.cons_ne_nil c rest)] at h ⊢
            exact h
          rw [if_pos hascii]
          rfl
      · rfl

/-- The simple selectors of a list of selectors. -/
def simples (text : String) : List Simple := (readList text).1.flatMap fun s => s.parts.flatMap Part.compound

/-- No string of an attribute selector ends in a wide character, nor does one in an argument that counts
for how strongly the selector binds. -/
inductive Readable : String → Prop
  | intro {text : String}
      (strings : ∀ name test operand, .attribute name test (some operand) ∈ simples text →
        operand.endsWide = false)
      (arguments : ∀ name argument, .pseudoClass name (some argument) ∈ simples text →
        bindsAsArgument name = true → Readable argument) : Readable text

theorem isOk_parseList {text : String} (h : Readable text) : parseList text = .ok (readList text).1 := by
  obtain ⟨hstrings, -⟩ := h
  have hall : (readList text).1.all Complex.isReadable = true := by
    simp only [List.all_eq_true, Complex.isReadable]
    intro s hs part hpart simple hsimple
    split
    · next name test operand =>
        refine Operand.isOk_content (hstrings name test operand ?_)
        exact List.mem_flatMap.mpr ⟨s, hs, List.mem_flatMap.mpr ⟨part, hpart, hsimple⟩⟩
    · rfl
  rw [parseList, if_pos hall]

theorem succeeds_specificityWithin {text : String} (h : Readable text) (depth : Nat) :
    Succeeds (specificityWithin depth text) := by
  induction depth generalizing text with
  | zero => exact ⟨.zero, rfl⟩
  | succ depth ih =>
      rw [specificityWithin, isOk_parseList h]
      refine succeeds_foldlM ?_ _
      intro best s hs
      refine Succeeds.bind ?_ fun own _ => ⟨_, rfl⟩
      refine succeeds_foldlM ?_ _
      intro total simple hsimple
      refine Succeeds.bind ?_ fun own _ => ⟨_, rfl⟩
      have hmem : simple ∈ simples text := List.mem_flatMap.mpr ⟨s, hs, hsimple⟩
      cases simple with
      | pseudoClass name argument =>
          cases argument with
          | none => exact ⟨_, rfl⟩
          | some argument =>
              rw [Simple.specificityWith]
              split
              · next hbinds =>
                  obtain ⟨-, harguments⟩ := h
                  exact ih (harguments name argument hmem hbinds)
              · exact ⟨_, rfl⟩
      | _ => exact ⟨_, rfl⟩

/-- Every selector of a list can be read. -/
def AllReadable (selectors : List String) : Prop := ∀ s ∈ selectors, Readable s

theorem succeeds_bindDifferently {a b : List String} (ha : AllReadable a) (hb : AllReadable b) :
    Succeeds (bindDifferently a b) := by
  refine succeeds_allM fun left hleft => ?_
  refine (succeeds_specificityWithin (ha left hleft) _).bind fun strength _ => ?_
  refine succeeds_allM fun right hright => ?_
  exact (succeeds_specificityWithin (hb right hright) _).bind fun other _ => ⟨_, rfl⟩

theorem succeeds_neverMeet (semantic : Bool) {a b : List String} (ha : AllReadable a) (hb : AllReadable b) :
    Succeeds (neverMeet semantic a b) := by
  refine succeeds_allM fun left hleft => ?_
  rw [isOk_parseList (ha left hleft)]
  refine succeeds_allM fun right hright => ?_
  rw [isOk_parseList (hb right hright)]
  exact ⟨_, rfl⟩

end Selector

namespace Touch

theorem succeeds_mayExchange (semantic : Bool) {a b : Touch} (ha : Selector.AllReadable a.selectors)
    (hb : Selector.AllReadable b.selectors) : Succeeds (a.mayExchange semantic b) := by
  rw [mayExchange]
  split
  · exact ⟨_, rfl⟩
  · split
    · exact ⟨_, rfl⟩
    · refine (Selector.succeeds_bindDifferently ha hb).bind fun differ _ => ?_
      split
      · exact ⟨_, rfl⟩
      · exact Selector.succeeds_neverMeet semantic ha hb

theorem succeeds_mayExchangeAll (semantic : Bool) {moving fixed : List Touch}
    (hmoving : ∀ t ∈ moving, Selector.AllReadable t.selectors)
    (hfixed : ∀ t ∈ fixed, Selector.AllReadable t.selectors) :
    Succeeds (mayExchangeAll semantic moving fixed) :=
  succeeds_allM fun m hm => succeeds_allM fun f hf => succeeds_mayExchange semantic (hmoving m hm) (hfixed f hf)

end Touch

namespace Node

/-- Every selector of the rules in these nodes can be read. -/
def AreReadable (nodes : List Node) : Prop := ∀ r ∈ rulesOfAll nodes, Selector.AllReadable r.selectors

mutual

theorem exists_rule_of_mem_touches {node : Node} {t : Touch} (h : t ∈ node.touches) :
    ∃ r ∈ node.rules, t.selectors = r.selectors := by
  cases node with
  | rule r =>
      obtain ⟨d, -, rfl⟩ := List.mem_map.mp h
      exact ⟨r, List.mem_cons_self, rfl⟩
  | block head children =>
      rw [touches] at h
      split at h
      · cases h
      · exact exists_rule_of_mem_touchesOfAll h
  | fields head declarations => cases h
  | statement text => cases h
  | comment text => cases h

theorem exists_rule_of_mem_touchesOfAll {nodes : List Node} {t : Touch} (h : t ∈ touchesOfAll nodes) :
    ∃ r ∈ rulesOfAll nodes, t.selectors = r.selectors := by
  cases nodes with
  | nil => cases h
  | cons node rest =>
      rw [touchesOfAll, List.mem_append] at h
      rw [rulesOfAll]
      rcases h with h | h
      · obtain ⟨r, hr, heq⟩ := exists_rule_of_mem_touches h
        exact ⟨r, List.mem_append_left _ hr, heq⟩
      · obtain ⟨r, hr, heq⟩ := exists_rule_of_mem_touchesOfAll h
        exact ⟨r, List.mem_append_right _ hr, heq⟩

end

theorem AreReadable.touches {nodes : List Node} (h : AreReadable nodes) :
    ∀ t ∈ touchesOfAll nodes, Selector.AllReadable t.selectors := by
  intro t ht
  obtain ⟨r, hr, heq⟩ := exists_rule_of_mem_touchesOfAll ht
  rw [heq]
  exact h r hr

theorem areReadable_append {xs ys : List Node} : AreReadable (xs ++ ys) ↔ AreReadable xs ∧ AreReadable ys := by
  simp only [AreReadable, rulesOfAll_append, List.forall_mem_append]

theorem areReadable_cons {node : Node} {rest : List Node} :
    AreReadable (node :: rest) ↔ AreReadable [node] ∧ AreReadable rest := by
  rw [← List.singleton_append, areReadable_append]

theorem areReadable_block {head : String} {children : List Node} :
    AreReadable [.block head children] ↔ AreReadable children := by
  rw [AreReadable, rulesOfAll_singleton, rules]
  rfl

theorem AreReadable.of_subset {xs ys : List Node} (h : AreReadable ys) (hsub : xs ⊆ ys) : AreReadable xs := by
  intro r hr
  obtain ⟨node, hnode, hr⟩ := mem_rulesOfAll.mp hr
  exact h r (mem_rulesOfAll.mpr ⟨node, hsub hnode, hr⟩)

theorem AreReadable.of_carries {config : Config} {xs ys : List Node} (h : AreReadable xs)
    (hcarries : Carries config (rulesOfAll xs) (rulesOfAll ys)) : AreReadable ys := by
  intro r hr s hs
  obtain ⟨t, ht, hst⟩ := (hcarries r hr).exists_mem hs
  exact h t ht s hst

theorem succeeds_mayTravel (semantic : Bool) {moving : Node} {between : List Node}
    (h : AreReadable (moving :: between)) : Succeeds (moving.mayTravel semantic between) := by
  rw [areReadable_cons] at h
  rw [mayTravel]
  split
  · exact ⟨_, rfl⟩
  · have hmoving := h.1.touches
    rw [touchesOfAll, touchesOfAll, List.append_nil] at hmoving
    exact Touch.succeeds_mayExchangeAll semantic hmoving h.2.touches

end Node

open Node

namespace Hoist

variable {config : Config} {nodes : List Node}

theorem succeeds_keepWhere {α : Type} {test : α → Attempt Bool} {as : List α}
    (h : ∀ a ∈ as, Succeeds (test a)) : Succeeds (keepWhere test as) := by
  induction as with
  | nil => exact ⟨[], rfl⟩
  | cons a as ih =>
      rw [keepWhere]
      refine (h a List.mem_cons_self).bind fun kept _ => ?_
      exact (ih fun b hb => h b (List.mem_cons_of_mem a hb)).bind fun more _ => ⟨_, rfl⟩

theorem succeeds_mayRise (semantic : Bool) (h : AreReadable nodes) (d : Declaration) (target place : Nat) :
    Succeeds (mayRise semantic nodes d target place) := by
  rw [mayRise]
  split
  · next r hr =>
      have hown : Selector.AllReadable r.selectors :=
        h r (mem_rulesOfAll.mpr ⟨_, List.mem_of_getElem? hr, List.mem_cons_self⟩)
      have hmoving : ∀ t ∈ [Touch.ofDeclaration r.selectors d], Selector.AllReadable t.selectors := by
        intro t ht
        rw [List.mem_singleton.mp ht]
        exact hown
      have hbetween : AreReadable ((nodes.take place).drop target) :=
        h.of_subset fun node hnode => List.mem_of_mem_take (List.mem_of_mem_drop hnode)
      dsimp only
      split
      · exact ⟨_, rfl⟩
      · refine (Touch.succeeds_mayExchangeAll semantic hmoving ?_).bind ?_
        · intro t ht
          obtain ⟨x, -, rfl⟩ := List.mem_map.mp ht
          exact hown
        · intro free _
          split
          · exact Touch.succeeds_mayExchangeAll semantic hmoving hbetween.touches
          · exact ⟨_, rfl⟩
  · exact ⟨_, rfl⟩

theorem succeeds_movable (semantic : Bool) (h : AreReadable nodes) (d : Declaration) (holders : List Nat) :
    Succeeds (movable semantic nodes d holders) := by
  fun_induction movable semantic nodes d holders with
  | case1 => exact ⟨[], rfl⟩
  | case2 first others ih =>
      refine (succeeds_keepWhere fun place _ => succeeds_mayRise semantic h d first place).bind ?_
      intro kept _
      split
      · next hless => exact ih kept hless
      · exact ⟨_, rfl⟩

theorem succeeds_best? (h : AreReadable nodes) : Succeeds (best? config nodes) := by
  rw [best?, shared]
  refine Succeeds.bind (Succeeds.bind ?_ fun narrowed _ => ⟨_, rfl⟩) fun pairs _ => ⟨_, rfl⟩
  refine succeeds_mapM fun pair _ => ?_
  exact (succeeds_movable _ h pair.1 pair.2).bind fun holders _ => ⟨_, rfl⟩

end Hoist

namespace Siblings

variable {config : Config}

theorem Edits.areReadable {xs ys : List Node} (h : Edits config xs ys) (hxs : AreReadable xs) : AreReadable ys :=
  h.invariant (fun hedit hreadable => hreadable.of_carries hedit.carries) hxs

theorem succeeds_dropCopies {isCopy : Node → Node → Bool}
    (hdrop : ∀ {earlier node : Node} {between : List Node}, isCopy earlier node = true →
      earlier.mayTravel config.options.mergeSemantically between = .ok true →
      Edits config (earlier :: (between ++ [node])) (between ++ [node]))
    {node : Node} {done : List Node} (h : AreReadable (done ++ [node])) :
    Succeeds (dropCopies config.options.mergeSemantically isCopy node done) := by
  induction done with
  | nil => exact ⟨[], rfl⟩
  | cons earlier between ih =>
      rw [List.cons_append, areReadable_cons] at h
      rw [dropCopies]
      refine (ih h.2).bind fun left hleft => ?_
      have hreadable := (areReadable_append.mp
        (((framed_edits config).dropCopies hdrop hleft).areReadable h.2)).1
      split
      · refine (succeeds_mayTravel _ (areReadable_cons.mpr ⟨h.1, hreadable⟩)).bind fun travels _ => ?_
        exact ⟨_, rfl⟩
      · exact ⟨_, rfl⟩

theorem succeeds_keepLastFrom {isCopy : Node → Node → Bool}
    (hdrop : ∀ {earlier node : Node} {between : List Node}, isCopy earlier node = true →
      earlier.mayTravel config.options.mergeSemantically between = .ok true →
      Edits config (earlier :: (between ++ [node])) (between ++ [node]))
    (done : List Node) {rest : List Node} (h : AreReadable (done ++ rest)) :
    Succeeds (keepLastFrom config.options.mergeSemantically isCopy done rest) := by
  induction rest generalizing done with
  | nil => exact ⟨done, rfl⟩
  | cons node rest ih =>
      rw [← List.singleton_append, ← List.append_assoc, areReadable_append] at h
      rw [keepLastFrom]
      refine (succeeds_dropCopies hdrop h.1).bind fun left hleft => ih _ ?_
      exact areReadable_append.mpr ⟨((framed_edits config).dropCopies hdrop hleft).areReadable h.1, h.2⟩

section Distant

variable {m : Merger}

theorem succeeds_addMerging {done : List Node} {node : Node} (h : AreReadable (done ++ [node])) :
    Succeeds (addMerging config.options.mergeSemantically m done node) := by
  unfold addMerging
  split
  · exact ⟨_, rfl⟩
  split
  · next before earlier between hcut =>
      rw [eq_of_cutAtLast? hcut] at h
      have hpart : AreReadable (.rule earlier :: between) :=
        h.of_subset fun x hx => List.mem_append_left _ (List.mem_append_right _ hx)
      have hother : AreReadable (node :: between) := by
        refine h.of_subset ?_
        intro x hx
        rcases List.mem_cons.mp hx with rfl | hx
        · simp
        · simp [hx]
      refine (succeeds_mayTravel _ hpart).bind fun down _ => ?_
      split
      · exact ⟨_, rfl⟩
      · refine (succeeds_mayTravel _ hother).bind fun up _ => ?_
        split <;> exact ⟨_, rfl⟩
  · exact ⟨_, rfl⟩

theorem succeeds_mergeDistant (hm : Joins config m) {nodes : List Node} (h : AreReadable nodes) :
    Succeeds (mergeDistant config.options.mergeSemantically m nodes) := by
  have hfold : ∀ rest done : List Node, AreReadable (done ++ rest) →
      Succeeds (rest.foldlM (addMerging config.options.mergeSemantically m) done) := by
    intro rest
    induction rest with
    | nil => exact fun done _ => ⟨done, rfl⟩
    | cons node rest ih =>
        intro done h
        rw [← List.singleton_append, ← List.append_assoc, areReadable_append] at h
        rw [List.foldlM_cons]
        refine (succeeds_addMerging h.1).bind fun left hleft => ih left ?_
        exact areReadable_append.mpr ⟨(edits_addMerging hm hleft).areReadable h.1, h.2⟩
  exact hfold nodes [] h

end Distant

theorem succeeds_hoistWithin (steps : Nat) {nodes : List Node} (h : AreReadable nodes) :
    Succeeds (hoistWithin config steps nodes) := by
  induction steps generalizing nodes with
  | zero => exact ⟨_, rfl⟩
  | succ steps ih =>
      rw [hoistWithin]
      refine (Hoist.succeeds_best? h).bind fun best hbest => ?_
      cases best with
      | none => exact ⟨_, rfl⟩
      | some hoist =>
          have hmoved : AreReadable (hoist.apply config nodes) :=
            Edits.areReadable (.single (.hoist hbest)) h
          exact (ih hmoved).bind fun left _ => ⟨_, rfl⟩

section Media

variable {again : List Node → Attempt (List Node)}
  (hagain : ∀ {xs ys : List Node}, again xs = .ok ys → Edits config xs ys)
  (hsucceeds : ∀ {xs : List Node}, AreReadable xs → Succeeds (again xs))

include hagain hsucceeds

theorem succeeds_mergeMediaFrom (done : List Node) {rest : List Node} (h : AreReadable (done ++ rest)) :
    Succeeds (mergeMediaFrom config.options.mergeSemantically again done rest) := by
  fun_induction mergeMediaFrom config.options.mergeSemantically again done rest with
  | case1 done => exact ⟨done, rfl⟩
  | case2 done node rest _ ih =>
      rw [List.append_assoc, List.singleton_append] at ih
      exact ih h
  | case3 done node rest head later hmedia before head' earlier between hcut ihUp ihDown ihStay =>
      obtain ⟨rfl, -⟩ := of_isMediaWith (satisfies_of_cutAtLast? hcut)
      cases of_media? hmedia
      have hstay : AreReadable (done ++ [.block head' later] ++ rest) := by
        rw [List.append_assoc]
        exact h
      rw [eq_of_cutAtLast? hcut] at h
      obtain ⟨hdone, hback⟩ := areReadable_append.mp h
      obtain ⟨hbefore, hfrom⟩ := areReadable_append.mp hdone
      obtain ⟨hearlier, hbetween⟩ := areReadable_cons.mp hfrom
      obtain ⟨hlater, hrest⟩ := areReadable_cons.mp hback
      have hboth : AreReadable (earlier ++ later) :=
        areReadable_append.mpr ⟨areReadable_block.mp hearlier, areReadable_block.mp hlater⟩
      have hmerged {children : List Node} (hchildren : again (earlier ++ later) = .ok children) :
          AreReadable [.block head' children] :=
        areReadable_block.mpr ((hagain hchildren).areReadable hboth)
      refine (succeeds_mayTravel _ (areReadable_cons.mpr ⟨hlater, hbetween⟩)).bind fun up _ => ?_
      split
      · refine (hsucceeds hboth).bind fun children hchildren => ihUp children ?_
        simp only [areReadable_append]
        exact ⟨⟨hbefore, hmerged hchildren⟩, hbetween, hrest⟩
      · refine (succeeds_mayTravel _ hfrom).bind fun down _ => ?_
        split
        · refine (hsucceeds hboth).bind fun children hchildren => ihDown children ?_
          simp only [areReadable_append]
          exact ⟨⟨⟨hbefore, hbetween⟩, hmerged hchildren⟩, hrest⟩
        · exact ihStay hstay
  | case4 done node rest head later _ _ ih =>
      rw [List.append_assoc, List.singleton_append] at ih
      exact ih h

/-- A pass gives a result, if what optimizes merged blocks does. -/
theorem succeeds_run (pass : Pass) {nodes : List Node} (h : AreReadable nodes) :
    Succeeds (pass.run config again nodes) := by
  cases pass with
  | removeDuplicateRules =>
      exact (succeeds_keepLastFrom edits_dropRule [] h).bind fun left _ => ⟨_, rfl⟩
  | mergeAdjacent => exact ⟨_, rfl⟩
  | mergeBySelector => exact (succeeds_mergeDistant (joins_bySelector config) h).bind fun left _ => ⟨_, rfl⟩
  | mergeByBody => exact (succeeds_mergeDistant (joins_byBody config) h).bind fun left _ => ⟨_, rfl⟩
  | hoist => exact (succeeds_hoistWithin _ h).bind fun left _ => ⟨_, rfl⟩
  | removeDuplicateFontFaces => exact ⟨_, rfl⟩
  | removeDuplicateMedia =>
      exact (succeeds_keepLastFrom edits_dropMedia [] h).bind fun left _ => ⟨_, rfl⟩
  | mergeMedia => exact (succeeds_mergeMediaFrom hagain hsucceeds [] h).bind fun left _ => ⟨_, rfl⟩
  | removeEmpty => exact ⟨_, rfl⟩

theorem succeeds_runAll (passes : List Pass) {nodes : List Node} (h : AreReadable nodes) :
    Succeeds (runAll config again passes nodes) := by
  induction passes generalizing nodes with
  | nil => exact ⟨nodes, rfl⟩
  | cons pass passes ih =>
      rw [runAll]
      refine (succeeds_run hagain hsucceeds pass h).bind fun outcome houtcome => ih ?_
      exact (edits_run hagain houtcome).areReadable h

end Media

theorem succeeds_node {again : List Node → Attempt (List Node)}
    (hsucceeds : ∀ {xs : List Node}, AreReadable xs → Succeeds (again xs)) {node : Node} (h : AreReadable [node]) : Succeeds (node.optimize config again) := by
  cases node with
  | block head children =>
      rw [Node.optimize]
      split
      · exact ⟨_, rfl⟩
      · exact (hsucceeds (areReadable_block.mp h)).bind fun inside _ => ⟨_, rfl⟩
  | rule r => exact ⟨_, rfl⟩
  | fields head declarations => exact ⟨_, rfl⟩
  | statement text => exact ⟨_, rfl⟩
  | comment text => exact ⟨_, rfl⟩

theorem succeeds_settleText {round : List Node → Attempt (List Node)}
    (hround : ∀ {xs ys : List Node}, round xs = .ok ys → Edits config xs ys)
    (hsucceeds : ∀ {xs : List Node}, AreReadable xs → Succeeds (round xs)) (rounds : Nat) {nodes : List Node}
    (h : AreReadable nodes) : Succeeds (settleText round rounds nodes) := by
  induction rounds generalizing nodes with
  | zero => exact ⟨nodes, rfl⟩
  | succ rounds ih =>
      rw [settleText]
      refine (hsucceeds h).bind fun next hnext => ?_
      split
      · exact ⟨_, rfl⟩
      · exact ih ((hround hnext).areReadable h)

theorem succeeds_optimizeWithin (depth : Nat) {nodes : List Node} (h : AreReadable nodes) :
    Succeeds (optimizeWithin config depth nodes) := by
  induction depth generalizing nodes with
  | zero => exact ⟨nodes, rfl⟩
  | succ depth ih =>
      have hinner : ∀ {xs ys : List Node}, optimizeWithin config depth xs = .ok ys → Edits config xs ys :=
        edits_optimizeWithin
      have heach : ∀ node ∈ nodes, Succeeds (node.optimize config (optimizeWithin config depth)) :=
        fun node hnode => succeeds_node ih (h.of_subset (List.cons_subset.mpr ⟨hnode, List.nil_subset _⟩))
      rw [optimizeWithin]
      refine (succeeds_mapM heach).bind fun left hleft => ?_
      have hedits := (framed_edits config).mapM (fun hnode => edits_node hinner hnode) hleft
      exact succeeds_settleText
        (fun hround => (framed_edits config).runAll (fun _ _ _ _ hrun => edits_run hinner hrun) hround)
        (succeeds_runAll hinner ih _) _ (hedits.areReadable h)

end Siblings

/-- A text whose selectors can all be read is minified: no pass meets anything that it cannot read. -/
theorem exists_minify (config : Config) {text : String} (h : AreReadable (Sheet.parse text)) :
    ∃ out, minify config text = .ok out := by
  have hoptimize : Succeeds (Sheet.optimize config (Sheet.parse text)) :=
    (Siblings.succeeds_optimizeWithin _ h).bind fun nodes _ => ⟨_, rfl⟩
  exact hoptimize.bind fun sheet _ => ⟨_, rfl⟩

/-- Wide characters in strings that are closed, one of them in an argument. -/
theorem exists_minify_closed :
    AreReadable (Sheet.parse "a[b=\"é\"]:not([c='ü'])\x7btop:0\x7d") ∧
      ∃ out, minify {} "a[b=\"é\"]:not([c='ü'])\x7btop:0\x7d" = .ok out := by
  have hparse : rulesOfAll (Sheet.parse "a[b=\"é\"]:not([c='ü'])\x7btop:0\x7d")
      = [{ selectors := ["a[b=\"é\"]:not([c='ü'])"], declarations := [{ name := "top", value := ["0"] }] }] := by
    decide +kernel
  have hsimples : Selector.simples "a[b=\"é\"]:not([c='ü'])" = [.element "a",
      .attribute "b" .equals (some (.quoted "\"é\"")), .pseudoClass "not" (some "[c='ü']")] := by
    decide +kernel
  have hinside : Selector.simples "[c='ü']" = [.attribute "c" .equals (some (.quoted "'ü'"))] := by
    decide +kernel
  have hargument : Selector.Readable "[c='ü']" := by
    refine ⟨?_, ?_⟩
    · intro name test operand hmem
      simp only [hinside, List.mem_singleton, Selector.Simple.attribute.injEq, Option.some.injEq] at hmem
      rw [hmem.2.2]
      decide
    · simp [hinside]
  have hselector : Selector.Readable "a[b=\"é\"]:not([c='ü'])" := by
    refine ⟨?_, ?_⟩
    · intro name test operand hmem
      simp only [hsimples, List.mem_cons, List.not_mem_nil, reduceCtorEq, false_or, or_false,
        Selector.Simple.attribute.injEq, Option.some.injEq] at hmem
      rw [hmem.2.2]
      decide
    · intro name argument hmem _
      simp only [hsimples, List.mem_cons, List.not_mem_nil, reduceCtorEq, false_or, or_false,
        Selector.Simple.pseudoClass.injEq, Option.some.injEq] at hmem
      rw [hmem.2]
      exact hargument
  have hreadable : AreReadable (Sheet.parse "a[b=\"é\"]:not([c='ü'])\x7btop:0\x7d") := by
    intro r hr s hs
    rw [hparse] at hr
    obtain rfl := List.mem_singleton.mp hr
    obtain rfl := List.mem_singleton.mp hs
    exact hselector
  exact ⟨hreadable, exists_minify {} hreadable⟩

/-- The string is left open by the end of its line. In the argument, which is trimmed, nothing follows the
wide character at its end. -/
theorem minify_open_string :
    minify {} "a:not([b=\"é\n)]\x7btop:0\x7dc\x7btop:1px\x7da:not([b=\"é\n)]\x7btop:0\x7d" = .error .splitsCharacter := by
  decide +kernel

end CssMinify
