import CssMinify.Proofs.Runs.Undisturbed

/-! Which definition of a name counts after a run. Rules define nothing, so what is done to them makes no
difference, and of equal blocks for media the last one stays. But a block for media travels whatever it defines,
and a description of a font goes if an earlier one has its text, whatever stands between the two. Where a sheet
gives neither of them room, the last definition of a name stays the last. -/

namespace CssMinify

namespace Siblings

open Node (definitionsOfAll definitionsOfAll_append definitionsOfAll_singleton blockCount isMediaHead)

section Dropping

variable {config : Config} {active : String → Bool} {name : Definition.Name} {last : Definition}

/-- Of two equal nodes the earlier one may go. -/
theorem keeps_dropEarlier (node : Node) (between : List Node) :
    Keeps config active name last (node :: (between ++ [node])) (between ++ [node]) where
  count place := by
    cases place with
    | nil => exact Nat.le_refl 1
    | cons head place =>
        rw [Node.blockCount_cons_cons]
        exact Nat.le_add_left _ _
  stems p hp := by
    refine ⟨p, ?_, Std.Refl.refl p⟩
    rw [definitionsOfAll]
    exact List.mem_append_right _ hp
  sublist _ := by
    rw [named_cons _ (between ++ _)]
    exact (List.sublist_append_right _ _).sublistForall₂
  ends _ hends := by
    rw [named_cons _ (between ++ _)] at hends
    rcases endsIn_append.mp hends with hends | ⟨hnil, hends⟩
    · exact hends
    · rw [named_append, List.append_eq_nil_iff] at hnil
      rw [hnil.2] at hends
      obtain ⟨p, hp, -⟩ := hends
      cases hp

theorem definitions_of_fontFace? (active : String → Bool) {node : Node} {text : String}
    (h : node.fontFace? = some text) :
    ∃ ds, node.definitions active = [⟨[], .face ds⟩] ∧ Declaration.printBody ds = text := by
  cases node with
  | fields head ds =>
      simp only [Node.fontFace?] at h
      split at h
      · next hhead =>
          cases h
          exact ⟨ds, if_pos hhead, rfl⟩
      · cases h
  | rule r => cases h
  | block head children => cases h
  | statement text => cases h
  | comment text => cases h

/-- Of two descriptions of a font with one text the later one may go, where that is not known to matter. -/
theorem keeps_dropFont (hremove : config.options.removeDuplicateFontRules = true) {first second : Node}
    (between : List Node) {text : String} (hfirst : first.fontFace? = some text)
    (hsecond : second.fontFace? = some text) :
    Keeps config active name last (first :: (between ++ [second])) (first :: between) where
  count place := by
    cases place with
    | nil => exact Nat.le_refl 1
    | cons head place =>
        simp only [Node.blockCount_cons_cons, Node.blockCount_cons_append]
        omega
  stems p hp := by
    refine ⟨p, ?_, Std.Refl.refl p⟩
    rw [definitionsOfAll, List.mem_append] at hp ⊢
    rw [definitionsOfAll_append, List.mem_append]
    exact hp.imp id .inl
  sublist _ := by
    rw [named_cons _ between, named_cons _ (between ++ _), named_append]
    exact ((List.Sublist.refl _).append (List.sublist_append_left _ _)).sublistForall₂
  ends hall hends := by
    obtain ⟨ds, hds, hdtext⟩ := definitions_of_fontFace? active hfirst
    obtain ⟨es, hes, hetext⟩ := definitions_of_fontFace? active hsecond
    have hnamed : named config active name (first :: (between ++ [second])) = named config active name [first] ++
        (named config active name between ++ named config active name [second]) := by
      rw [named_cons _ (between ++ _), named_append]
    rw [hnamed] at hends
    rw [named_cons _ between]
    by_cases hname : (Definition.face es).name? config = some name
    case neg =>
      have hnone : named config active name [second] = [] := by
        rw [named, definitionsOfAll_singleton, hes]
        simp [hname]
      rwa [hnone, List.append_nil] at hends
    have hone : named config active name [second] = [⟨[], .face es⟩] := by
      rw [named, definitionsOfAll_singleton, hes]
      simp [hname]
    have hlast : (Definition.face es).Alike config last := by
      rw [hone, ← List.append_assoc, endsIn_append] at hends
      obtain ⟨p, hp, halike⟩ := hends.resolve_right fun h => List.cons_ne_nil _ _ h.1
      cases hp
      exact halike
    -- The first has the text of the second, so it is like it and defines the same name.
    have hshares : (Definition.face ds).SharesText config (.face es) :=
      ⟨0, 0, text, congrArg some hdtext, congrArg some hetext⟩
    have halike : (Definition.face ds).Alike config (.face es) := by
      refine hall.told hremove ⟨[], .face ds⟩ ?_ ⟨[], .face es⟩ ?_ rfl hshares
      · rw [definitionsOfAll, hds]
        exact List.mem_append_left _ (List.mem_singleton_self _)
      · rw [hnamed, hone]
        exact List.mem_append_right _ (List.mem_append_right _ (List.mem_singleton_self _))
    have hzero : named config active name [first] = [⟨[], .face ds⟩] := by
      rw [named, definitionsOfAll_singleton, hds]
      simp [halike.name?_eq, hname]
    rw [hzero]
    rcases List.eq_nil_or_concat (named config active name between) with hnil | ⟨front, b, hconcat⟩
    · rw [hnil]
      exact ⟨⟨[], .face ds⟩, rfl, halike.trans hlast⟩
    · have hb : b.definition.Alike config last := by
        refine hall.between hremove ⟨[], .face ds⟩ b ⟨[], .face es⟩ ?_ rfl hshares hlast
        rw [hnamed, hzero, hone, hconcat]
        simp
      rw [hconcat]
      exact endsIn_append.mpr (.inl ⟨b, by simp, hb⟩)

section Empty

mutual

theorem name?_of_isEmpty (hremove : config.options.removeEmpty = true) : ∀ {node : Node}, node.isEmpty = true →
    ∀ p ∈ node.definitions active, p.definition.name? config = none
  | .block head children, hempty, p, hp => by
      rw [Node.isEmpty, Bool.and_eq_true] at hempty
      rw [Node.definitions, List.mem_append] at hp
      rcases hp with hp | hp
      · rw [Node.ownFrames] at hp
        split at hp
        · cases List.mem_singleton.mp hp
          simp [Definition.name?, hremove, hempty.2]
        · cases hp
      · split at hp
        · obtain ⟨inner, hinner, rfl⟩ := List.mem_map.mp hp
          exact name?_of_allEmpty hremove hempty.2 inner hinner
        · cases hp
  | .fields head ds, hempty, p, hp => by
      rw [Node.definitions] at hp
      split at hp
      · cases List.mem_singleton.mp hp
        rw [Node.isEmpty, List.isEmpty_iff] at hempty
        rw [hempty]
        rfl
      · cases hp
  | .rule r, _, p, hp => nomatch hp
  | .statement text, _, p, hp => nomatch hp
  | .comment text, _, p, hp => nomatch hp

theorem name?_of_allEmpty (hremove : config.options.removeEmpty = true) : ∀ {nodes : List Node}, Node.allEmpty nodes = true →
    ∀ p ∈ definitionsOfAll active nodes, p.definition.name? config = none
  | [], _, p, hp => nomatch hp
  | node :: rest, hempty, p, hp => by
      rw [Node.allEmpty, Bool.and_eq_true] at hempty
      rw [definitionsOfAll, List.mem_append] at hp
      rcases hp with hp | hp
      · exact name?_of_isEmpty hremove hempty.1 p hp
      · exact name?_of_allEmpty hremove hempty.2 p hp

end

/-- What is empty defines nothing, where empty nodes are dropped. -/
theorem keeps_dropEmpty (hremove : config.options.removeEmpty = true) {node : Node} (hempty : node.isEmpty = true) :
    Keeps config active name last [node] [] := by
  apply Keeps.of_named_eq
  · intro place
    cases place with
    | nil => exact Nat.le_refl 1
    | cons head place => exact Nat.zero_le _
  · exact List.nil_subset _
  · intro _
    symm
    apply List.filter_eq_nil_iff.mpr
    intro p hp
    rw [definitionsOfAll_singleton] at hp
    rw [name?_of_isEmpty hremove hempty p hp]
    simp

theorem keeps_prunedAll (hremove : config.options.removeEmpty = true) (nodes : List Node) :
    Keeps config active name last nodes (Node.prunedAll nodes) := by
  apply framed_keeps.prunedAll
  · exact keeps_dropEmpty hremove
  · intro head children h
    exact h.inside fun _ => .pruned (.frames head children)

end Empty

end Dropping

section Runs

variable {config : Config} {active : String → Bool} {name : Definition.Name} {last : Definition}

theorem keeps_mergeDistant {m : Merger} {nodes left : List Node}
    (h : mergeDistant config.options.mergeSemantically m nodes = .ok left) :
    Keeps config active name last nodes left := by
  refine framed_keeps.mergeDistant ?_ ?_ h
  · intro earlier later between _ _ _ _
    apply Keeps.of_unruled_eq
    simp only [unruled_append, unruled_rule]
  · intro earlier later between _ _ _ _
    apply Keeps.of_unruled_eq
    simp only [unruled_append, unruled_rule]
    exact (List.append_nil _).symm

variable {again : List Node → Attempt (List Node)}
  (hagain : ∀ {xs ys : List Node}, again xs = .ok ys → Keeps config active name last xs ys)

include hagain

/-- A pass keeps the last definition, if what optimizes merged blocks does. -/
theorem keeps_run {pass : Pass} (hpass : pass ∈ config.options.passes) {nodes : List Node} {outcome : Pass.Outcome}
    (h : pass.run config again nodes = .ok outcome) : Keeps config active name last nodes outcome.nodes := by
  have hframed : Framed (Keeps config active name last) := framed_keeps
  cases pass with
  | removeDuplicateRules =>
      obtain ⟨left, hleft, h⟩ := Attempt.exists_of_bind h
      cases h
      refine hframed.keepLastFrom ?_ hleft
      intro earlier node between hcopy _
      unfold isRepeatedRule Node.plainRules at hcopy
      split at hcopy
      · next hr hs =>
          obtain ⟨rfl, -⟩ := Node.of_plainRule? hr
          exact .of_unruled_eq rfl
      · cases hcopy
  | mergeAdjacent =>
      cases h
      exact hframed.mergeAdjacent (fun _ _ _ => .of_unruled_eq rfl) nodes
  | mergeBySelector =>
      obtain ⟨left, hleft, h⟩ := Attempt.exists_of_bind h
      cases h
      exact keeps_mergeDistant hleft
  | mergeByBody =>
      obtain ⟨left, hleft, h⟩ := Attempt.exists_of_bind h
      cases h
      exact keeps_mergeDistant hleft
  | hoist =>
      obtain ⟨⟨left, moved⟩, hleft, h⟩ := Attempt.exists_of_bind h
      cases h
      exact hframed.hoistWithin keeps_apply hleft
  | removeDuplicateFontFaces =>
      have hremove : config.options.removeDuplicateFontRules = true := by simpa [Options.passes] using hpass
      cases h
      exact hframed.keepFirstFontFaces (keeps_dropFont hremove) [] (by simp) nodes
  | removeDuplicateMedia =>
      obtain ⟨left, hleft, h⟩ := Attempt.exists_of_bind h
      cases h
      refine hframed.keepLastFrom ?_ hleft
      intro earlier node between hcopy _
      rw [isRepeatedMedia, Bool.and_eq_true, beq_iff_eq] at hcopy
      obtain ⟨-, rfl⟩ := hcopy
      exact keeps_dropEarlier earlier between
  | mergeMedia =>
      have hmerge : config.options.mergeMedia = true := by simpa [Options.passes] using hpass
      obtain ⟨left, hleft, h⟩ := Attempt.exists_of_bind h
      cases h
      have hinside {head : String} {xs ys : List Node} (hmedia : isMediaHead head = true) (h : again xs = .ok ys) :
          Keeps config active name last [.block head xs] [.block head ys] := by
        refine (hagain h).inside fun hhead => ?_
        rw [Node.isMediaHead_of_isAnimationHead hhead] at hmedia
        cases hmedia
      refine hframed.mergeMediaFrom ?_ ?_ hleft
      · intro head earlier later between children hmedia hbetween _ hchildren
        rw [Node.isSome_media?] at hmedia
        exact hframed.trans (keeps_join hmerge hmedia earlier later hbetween (List.nil_append between))
          (hframed.before between (hinside hmedia hchildren))
      · intro head earlier between children later hmedia hbetween _ hchildren
        rw [Node.isSome_media?] at hmedia
        exact hframed.trans (keeps_join hmerge hmedia earlier later hbetween (List.append_nil between))
          (hframed.after between (hinside hmedia hchildren))
  | removeEmpty =>
      have hremove : config.options.removeEmpty = true := by simpa [Options.passes] using hpass
      cases h
      exact keeps_prunedAll hremove nodes

theorem keeps_node {node left : Node} (h : node.optimize config again = .ok left) :
    Keeps config active name last [node] [left] := by
  have hframed : Framed (Keeps config active name last) := framed_keeps
  cases node with
  | rule r =>
      cases h
      exact .of_unruled_eq rfl
  | fields head declarations =>
      cases h
      apply Keeps.of_forall₂
      · exact fun place => Nat.le_of_eq (by cases place <;> rfl)
      · rw [definitionsOfAll_singleton, definitionsOfAll_singleton, Node.definitions, Node.definitions]
        split
        · exact .cons ⟨rfl, .optimized (.face declarations)⟩ .nil
        · exact .nil
  | block head children =>
      simp only [Node.optimize] at h
      split at h
      · cases h
        have hframe (frame : Node) : Keeps config active name last [frame] [frame.optimizeFrame config] := by
          cases frame with
          | rule r => exact .of_unruled_eq rfl
          | _ => exact hframed.refl _
        exact (hframed.map hframe children).inside fun _ => .optimized (.frames head children)
      · next hhead =>
          obtain ⟨inside, hinside, h⟩ := Attempt.exists_of_bind h
          cases h
          refine (hagain hinside).inside fun hanimation => ?_
          exact absurd (Node.isKeyframesHead_of_isAnimationHead hanimation) hhead
  | statement text =>
      cases h
      exact hframed.refl _
  | comment text =>
      cases h
      exact hframed.refl _

omit hagain in
theorem keeps_optimizeWithin {depth : Nat} {xs ys : List Node} (h : optimizeWithin config depth xs = .ok ys) :
    Keeps config active name last xs ys := by
  have hframed : Framed (Keeps config active name last) := framed_keeps
  induction depth generalizing xs ys with
  | zero =>
      cases h
      exact hframed.refl _
  | succ depth ih =>
      rw [optimizeWithin] at h
      obtain ⟨nodes, hnodes, h⟩ := Attempt.exists_of_bind h
      have heach := hframed.mapM (fun hnode => keeps_node ih hnode) hnodes
      exact hframed.trans heach (hframed.settleText (hframed.runAll fun _ hpass _ _ hrun => keeps_run ih hpass hrun) h)

end Runs

/-- For an animation only the order matters. -/
theorem Undisturbed.of_order {config : Config} {active : String → Bool} {head : String} {last : Definition}
    {nodes : List Node}
    (h : ∀ p ∈ named config active (.animation head) nodes, ∀ q ∈ named config active (.animation head) nodes,
      ∀ outer inner, outer ++ [inner] <+: p.place → outer <+: q.place → ¬ outer ++ [inner] <+: q.place →
      isMediaHead inner = true → blockCount (outer ++ [inner]) nodes ≤ 1) :
    Undisturbed config active (.animation head) last nodes := by
  have hframes {p : Placed} (hp : p ∈ named config active (.animation head) nodes) (d : Definition) :
      ¬ d.SharesText config p.definition := by
    obtain ⟨-, hname⟩ := mem_named.mp hp
    cases hdefinition : p.definition with
    | frames head children => exact Definition.not_sharesText_frames d head children
    | face ds =>
        rw [hdefinition, Definition.name?] at hname
        obtain ⟨family, -, hname⟩ := Option.map_eq_some_iff.mp hname
        cases hname
  refine ⟨fun _ => h, fun _ p _ q hq _ htext => absurd htext (hframes hq _), ?_⟩
  intro _ p q r hpqr _ htext
  exact absurd htext (hframes (hpqr.subset (by simp)) _)

end Siblings

open Siblings

/-- The last definition of a name stays the last, whatever blocks are active. A name that had no definition gets
none; and where nothing disturbs the definitions of a name, the one that counts after a run is the one that counted
before it, up to optimizing its bodies and dropping empty frames. -/
theorem Sheet.lastNamed?_optimize {config : Config} {sheet out : Sheet} (h : Sheet.optimize config sheet = .ok out)
    (active : String → Bool) (name : Definition.Name) :
    (lastNamed? config active name sheet = none → lastNamed? config active name out = none) ∧
      ∀ last, lastNamed? config active name sheet = some last → Undisturbed config active name last sheet →
        ∃ left, lastNamed? config active name out = some left ∧ left.Alike config last := by
  have hkeeps (last : Definition) : Keeps config active name last sheet out := by
    obtain ⟨nodes, hnodes, hout⟩ := Attempt.exists_of_bind h
    have hnodes : Keeps config active name last sheet nodes := keeps_optimizeWithin hnodes
    cases hout
    split
    · next hremove => exact framed_keeps.trans hnodes (keeps_prunedAll hremove nodes)
    · exact hnodes
  constructor
  · intro hnone
    rw [lastNamed?, Option.map_eq_none_iff, List.getLast?_eq_none_iff] at hnone ⊢
    exact (hkeeps (.face [])).named_eq_nil hnone
  · intro last hlast hundisturbed
    obtain ⟨p, hp, rfl⟩ := Option.map_eq_some_iff.mp hlast
    obtain ⟨q, hq, halike⟩ := (hkeeps p.definition).ends hundisturbed ⟨p, hp, .refl p.definition⟩
    exact ⟨q.definition, Option.map_eq_some_iff.mpr ⟨q, hq, rfl⟩, halike⟩

/-- An animation is defined anew for print, and a font is described twice. -/
theorem Sheet.lastNamed?_optimize_print :
    let config : Config := {}
    let active : String → Bool := fun _ => true
    let frame (value : String) : Node :=
      .rule { selectors := ["from"], declarations := [{ name := "top", value := [value] }] }
    let font : List Declaration := [{ name := "font-family", value := ["A"] }]
    let sheet : Sheet := [.fields "@font-face" font, .block "@keyframes k" [frame "0px"],
      .block "@media print" [.block "@keyframes k" [frame "1px"]], .fields "@font-face" font]
    let out : Sheet := [.fields "@font-face" font, .block "@keyframes k" [frame "0"],
      .block "@media print" [.block "@keyframes k" [frame "1px"]]]
    Sheet.optimize config sheet = .ok out ∧
      (∃ left, lastNamed? config active (.animation "@keyframes k") out = some left ∧
        left.Alike config (.frames "@keyframes k" [frame "1px"])) ∧
      ∃ left, lastNamed? config active (.family (.own ["A"])) out = some left ∧ left.Alike config (.face font) := by
  intro config active frame font sheet out
  have hsheet : Sheet.optimize config sheet = .ok out ∧
      named config active (.animation "@keyframes k") sheet
        = [⟨[], .frames "@keyframes k" [frame "0px"]⟩, ⟨["@media print"], .frames "@keyframes k" [frame "1px"]⟩] ∧
      named config active (.family (.own ["A"])) sheet = [⟨[], .face font⟩, ⟨[], .face font⟩] := by
    decide +kernel
  obtain ⟨hrun, hframes, hfaces⟩ := hsheet
  refine ⟨hrun, ?_, ?_⟩
  · have hlast : lastNamed? config active (.animation "@keyframes k") sheet
        = some (.frames "@keyframes k" [frame "1px"]) := by
      rw [lastNamed?, hframes]
      rfl
    refine (Sheet.lastNamed?_optimize hrun active (.animation "@keyframes k")).2 _ hlast (.of_order ?_)
    intro p hp q _ outer inner hprefix _ _ _
    rw [hframes] at hp
    have hplace : p.place <+: ["@media print"] := by
      rcases List.mem_pair.mp hp with rfl | rfl
      · exact List.nil_prefix
      · exact List.prefix_rfl
    have hprint : outer ++ [inner] = ["@media print"] := by
      simpa [List.prefix_cons_iff] using hprefix.trans hplace
    rw [hprint]
    decide +kernel
  · have hlast : lastNamed? config active (.family (.own ["A"])) sheet = some (.face font) := by
      rw [lastNamed?, hfaces]
      rfl
    refine (Sheet.lastNamed?_optimize hrun active (.family (.own ["A"]))).2 (.face font) hlast ?_
    have hdefined : Node.definitionsOfAll active sheet = [⟨[], .face font⟩, ⟨[], .frames "@keyframes k" [frame "0px"]⟩,
        ⟨["@media print"], .frames "@keyframes k" [frame "1px"]⟩, ⟨[], .face font⟩] := by decide +kernel
    have hface {p : Placed} (hp : p ∈ named config active (.family (.own ["A"])) sheet) : p = ⟨[], .face font⟩ := by
      rw [hfaces] at hp
      simpa using hp
    refine ⟨?_, ?_, ?_⟩
    · intro _ p hp q _ outer inner hprefix
      rw [hface hp] at hprefix
      simp at hprefix
    · intro _ p hp q hq _ htext
      rw [hface hq] at htext ⊢
      rw [hdefined] at hp
      simp only [List.mem_cons, List.not_mem_nil, or_false] at hp
      rcases hp with rfl | rfl | rfl | rfl
      · exact .refl _
      · exact absurd htext.symm (Definition.not_sharesText_frames _ _ _)
      · exact absurd htext.symm (Definition.not_sharesText_frames _ _ _)
      · exact .refl _
    · intro _ p q r hpqr _ _ _
      have hq : q ∈ [p, q, r] := by simp
      rw [hface (hpqr.subset hq)]
      exact .refl _

/-- Without any condition the last definition need not stay the last. A font that counts goes as a copy of one
that stands before another one. A block for media takes an animation with it past another one of that name. An
animation without frames goes, and leaves the one before it to count. And of two descriptions of fonts that only
read the same, the one that counts goes. -/
theorem Sheet.not_alike_lastNamed? :
    let config : Config := {}
    let active : String → Bool := fun _ => true
    let font (family : Value) : Declaration := { name := "font-family", value := family }
    let bold : Declaration := { name := "font-weight", value := ["700"] }
    let frame (value : String) : Node :=
      .rule { selectors := ["from"], declarations := [{ name := "top", value := [value] }] }
    let fonts : Sheet := [.fields "@font-face" [font ["A"]], .fields "@font-face" [font ["A"], bold],
      .fields "@font-face" [font ["A"]]]
    let fontsLeft : Sheet := [.fields "@font-face" [font ["A"]], .fields "@font-face" [font ["A"], bold]]
    let blocks : Sheet := [.block "@media print" [frame "0"], .block "@keyframes k" [frame "0"],
      .block "@media print" [.block "@keyframes k" [frame "1px"]]]
    let blocksLeft : Sheet := [.block "@media print" [frame "0", .block "@keyframes k" [frame "1px"]],
      .block "@keyframes k" [frame "0"]]
    let animations : Sheet := [.block "@keyframes k" [frame "0"], .block "@keyframes k" []]
    let animationsLeft : Sheet := [.block "@keyframes k" [frame "0"]]
    let texts : Sheet := [.fields "@font-face" [font ["A B"]], .fields "@font-face" [font ["A", "B"]]]
    let textsLeft : Sheet := [.fields "@font-face" [font ["A B"]]]
    (Sheet.optimize config fonts = .ok fontsLeft ∧
      lastNamed? config active (.family (.own ["A"])) fonts = some (.face [font ["A"]]) ∧
      lastNamed? config active (.family (.own ["A"])) fontsLeft = some (.face [font ["A"], bold]) ∧
      ¬ (Definition.face [font ["A"], bold]).Alike config (.face [font ["A"]])) ∧
    (Sheet.optimize config blocks = .ok blocksLeft ∧
      lastNamed? config active (.animation "@keyframes k") blocks = some (.frames "@keyframes k" [frame "1px"]) ∧
      lastNamed? config active (.animation "@keyframes k") blocksLeft = some (.frames "@keyframes k" [frame "0"]) ∧
      ¬ (Definition.frames "@keyframes k" [frame "0"]).Alike config (.frames "@keyframes k" [frame "1px"])) ∧
    (Sheet.optimize config animations = .ok animationsLeft ∧
      (Node.definitionsOfAll active animations).getLast? = some ⟨[], .frames "@keyframes k" []⟩ ∧
      (Node.definitionsOfAll active animationsLeft).getLast? = some ⟨[], .frames "@keyframes k" [frame "0"]⟩ ∧
      ¬ (Definition.frames "@keyframes k" [frame "0"]).Alike config (.frames "@keyframes k" [])) ∧
    Sheet.optimize config texts = .ok textsLeft ∧
      lastNamed? config active (.family (.own ["A", "B"])) texts = some (.face [font ["A", "B"]]) ∧
      lastNamed? config active (.family (.own ["A", "B"])) textsLeft = none := by
  intro config active font bold frame fonts fontsLeft blocks blocksLeft animations animationsLeft texts textsLeft
  -- All runs are made in one go, since they look up the same rows of the table.
  have hfixed : (Definition.face [font ["A"]]).optimize config = .face [font ["A"]] ∧
      (Definition.face [font ["A"], bold]).optimize config = .face [font ["A"], bold] ∧
      (Definition.frames "@keyframes k" [frame "0"]).optimize config = .frames "@keyframes k" [frame "0"] ∧
      (Definition.frames "@keyframes k" [frame "1px"]).optimize config = .frames "@keyframes k" [frame "1px"] ∧
      Sheet.optimize config fonts = .ok fontsLeft ∧ Sheet.optimize config blocks = .ok blocksLeft ∧
      Sheet.optimize config animations = .ok animationsLeft ∧ Sheet.optimize config texts = .ok textsLeft ∧
      lastNamed? config active (.family (.own ["A"])) fonts = some (.face [font ["A"]]) ∧
      lastNamed? config active (.family (.own ["A"])) fontsLeft = some (.face [font ["A"], bold]) ∧
      lastNamed? config active (.animation "@keyframes k") blocks = some (.frames "@keyframes k" [frame "1px"]) ∧
      lastNamed? config active (.animation "@keyframes k") blocksLeft = some (.frames "@keyframes k" [frame "0"]) ∧
      lastNamed? config active (.family (.own ["A", "B"])) texts = some (.face [font ["A", "B"]]) ∧
      lastNamed? config active (.family (.own ["A", "B"])) textsLeft = none := by
    decide +kernel
  obtain ⟨hplain, hbold, hzero, hone, hfonts, hblocks, hanimations, htexts, hlastFont, hlastFontLeft, hlastFrames,
    hlastFramesLeft, hlastText, hlastTextLeft⟩ := hfixed
  refine ⟨⟨hfonts, hlastFont, hlastFontLeft, ?_⟩, ⟨hblocks, hlastFrames, hlastFramesLeft, ?_⟩,
    ⟨hanimations, rfl, rfl, ?_⟩, htexts, hlastText, hlastTextLeft⟩
  · exact Definition.not_alike_of_fixed hbold hplain (by decide +kernel)
  · exact Definition.not_alike_of_fixed hzero hone (by decide +kernel)
  · exact Definition.not_alike_of_fixed hzero rfl (by decide +kernel)

end CssMinify
