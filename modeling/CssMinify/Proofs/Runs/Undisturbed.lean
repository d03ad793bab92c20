import CssMinify.Proofs.Moves.Hoisting
import CssMinify.Proofs.Runs.Definitions
import CssMinify.Proofs.Runs.Frame

/-! What keeps the last definition of a name the last. Definitions keep their order and their place while siblings
are changed; of what happens to blocks, only merging two for media could bring a definition to the other side of
another one. The conditions under which it does not are said of the sheet as it is at first, and hold of all that
becomes of it, since there are never more blocks or other definitions than there were. -/

namespace CssMinify

namespace Siblings

open Node (definitionsOfAll definitionsOfAll_append definitionsOfAll_singleton blockCount isMediaHead)

section Ends

variable {config : Config} {last : Definition} {ps qs ps' qs' : List Placed}

/-- The last of these definitions is like `last`. -/
def EndsIn (config : Config) (last : Definition) (ps : List Placed) : Prop :=
  ∃ p, ps.getLast? = some p ∧ p.definition.Alike config last

theorem endsIn_append : EndsIn config last (ps ++ qs) ↔ EndsIn config last qs ∨ qs = [] ∧ EndsIn config last ps := by
  rcases List.eq_nil_or_concat qs with rfl | ⟨qs, q, rfl⟩
  · simp [EndsIn]
  · simp [EndsIn, ← List.append_assoc]

theorem EndsIn.append (h : EndsIn config last (ps ++ qs)) (hps : EndsIn config last ps → EndsIn config last ps')
    (hqs : EndsIn config last qs → EndsIn config last qs') (hnil : qs = [] → qs' = []) :
    EndsIn config last (ps' ++ qs') := by
  rcases endsIn_append.mp h with h | ⟨hempty, h⟩
  · exact endsIn_append.mpr (.inl (hqs h))
  · exact endsIn_append.mpr (.inr ⟨hnil hempty, hps h⟩)

theorem EndsIn.of_forall₂ (h : List.Forall₂ (Placed.StemsFrom config) ps qs) (hends : EndsIn config last qs) :
    EndsIn config last ps := by
  induction h with
  | nil => exact hends
  | @cons p q ps qs hpq hrest ih =>
      have hcons : EndsIn config last ([q] ++ qs) := hends
      show EndsIn config last ([p] ++ ps)
      refine hcons.append ?_ ih ?_
      · rintro ⟨q', hq', hlast⟩
        cases hq'
        exact ⟨p, rfl, hpq.definition.alike.trans hlast⟩
      · rintro rfl
        exact List.forall₂_nil_right_iff.mp hrest

/-- Definitions that stem from others pairwise have their names. -/
theorem forall₂_filter (name : Definition.Name) (h : List.Forall₂ (Placed.StemsFrom config) ps qs) :
    List.Forall₂ (Placed.StemsFrom config) (ps.filter fun p => p.definition.name? config = some name)
      (qs.filter fun p => p.definition.name? config = some name) := by
  refine List.rel_filter ?_ h
  intro p q hpq
  beta_reduce
  rw [hpq.definition.alike.name?_eq]

theorem sublistForall₂_append {α : Type} {R : α → α → Prop} {as bs as' bs' : List α}
    (h : List.SublistForall₂ R as as') (h' : List.SublistForall₂ R bs bs') :
    List.SublistForall₂ R (as ++ bs) (as' ++ bs') := by
  obtain ⟨cs, hcs, hsub⟩ := List.sublistForall₂_iff.mp h
  obtain ⟨ds, hds, hsub'⟩ := List.sublistForall₂_iff.mp h'
  exact List.sublistForall₂_iff.mpr ⟨cs ++ ds, List.rel_append hcs hds, hsub.append hsub'⟩

end Ends

/-- A sheet that gives a run no room to bring another definition of a name behind the last one, which is like
`last`. -/
structure Undisturbed (config : Config) (active : String → Bool) (name : Definition.Name) (last : Definition)
    (nodes : List Node) : Prop where
  /-- Where one of two definitions stands in a block for media and the other does not, this block has no partner
  that it could travel to. -/
  order : config.options.mergeMedia = true →
    ∀ p ∈ named config active name nodes, ∀ q ∈ named config active name nodes, ∀ outer head,
      outer ++ [head] <+: p.place → outer <+: q.place → ¬ outer ++ [head] <+: q.place →
      isMediaHead head = true → blockCount (outer ++ [head]) nodes ≤ 1
  /-- Descriptions of fonts in one place are alike if they come to have the same text. -/
  told : config.options.removeDuplicateFontRules = true →
    ∀ p ∈ definitionsOfAll active nodes, ∀ q ∈ named config active name nodes, p.place = q.place →
      p.definition.SharesText config q.definition → p.definition.Alike config q.definition
  /-- Between two in one place that are like `last`, and that come to have the same text, stand only such. -/
  between : config.options.removeDuplicateFontRules = true →
    ∀ p q r, List.Sublist [p, q, r] (named config active name nodes) → p.place = r.place →
      p.definition.SharesText config r.definition → r.definition.Alike config last →
      q.definition.Alike config last

section Keeps

variable {config : Config} {active : String → Bool} {name : Definition.Name} {last : Definition}
  {xs ys zs : List Node}

/-- What becomes of siblings as far as definitions of a name go. Blocks do not become more; nothing is defined
that was not; and if nothing disturbs them, definitions may go but keep their order, and if the last one was like
`last` then the one that is left last is. -/
structure Keeps (config : Config) (active : String → Bool) (name : Definition.Name) (last : Definition)
    (xs ys : List Node) : Prop where
  count (place : List String) : blockCount place ys ≤ blockCount place xs
  stems : ∀ p ∈ definitionsOfAll active ys, ∃ q ∈ definitionsOfAll active xs, p.StemsFrom config q
  sublist (h : Undisturbed config active name last xs) : List.SublistForall₂ (Placed.StemsFrom config)
    (named config active name ys) (named config active name xs)
  ends (h : Undisturbed config active name last xs) (hends : EndsIn config last (named config active name xs)) :
    EndsIn config last (named config active name ys)

theorem exists_named (hstems : ∀ p ∈ definitionsOfAll active ys, ∃ q ∈ definitionsOfAll active xs, p.StemsFrom config q)
    {p : Placed} (hp : p ∈ named config active name ys) :
    ∃ q ∈ named config active name xs, p.StemsFrom config q := by
  obtain ⟨hdefined, hname⟩ := mem_named.mp hp
  obtain ⟨q, hq, hpq⟩ := hstems p hdefined
  refine ⟨q, mem_named.mpr ⟨hq, ?_⟩, hpq⟩
  rw [← hpq.definition.alike.name?_eq, hname]

/-- What stems from siblings that nothing disturbs is not disturbed either. -/
theorem Undisturbed.descend (h : Undisturbed config active name last xs)
    (hcount : ∀ place, blockCount place ys ≤ blockCount place xs)
    (hstems : ∀ p ∈ definitionsOfAll active ys, ∃ q ∈ definitionsOfAll active xs, p.StemsFrom config q)
    (hsublist : List.SublistForall₂ (Placed.StemsFrom config) (named config active name ys)
      (named config active name xs)) : Undisturbed config active name last ys where
  order hmerge p hp q hq outer head hp' hq' hnot hmedia := by
    obtain ⟨p₀, hp₀, hpp₀⟩ := exists_named hstems hp
    obtain ⟨q₀, hq₀, hqq₀⟩ := exists_named hstems hq
    rw [hpp₀.place] at hp'
    rw [hqq₀.place] at hq' hnot
    exact (hcount _).trans (h.order hmerge p₀ hp₀ q₀ hq₀ outer head hp' hq' hnot hmedia)
  told hremove p hp q hq hplace htext := by
    obtain ⟨p₀, hp₀, hpp₀⟩ := hstems p hp
    obtain ⟨q₀, hq₀, hqq₀⟩ := exists_named hstems hq
    rw [hpp₀.place, hqq₀.place] at hplace
    have halike := h.told hremove p₀ hp₀ q₀ hq₀ hplace (htext.of_stemsFrom hpp₀.definition hqq₀.definition)
    exact hpp₀.definition.alike.trans (halike.trans hqq₀.definition.alike.symm)
  between hremove p q r hpqr hplace htext hlast := by
    have hthree : List.SublistForall₂ (Placed.StemsFrom config) [p, q, r] (named config active name xs) :=
      IsTrans.trans _ _ _ hpqr.sublistForall₂ hsublist
    obtain ⟨l, hl, hsub⟩ := List.sublistForall₂_iff.mp hthree
    match l, hl with
    | [p₀, q₀, r₀], .cons hpp₀ (.cons hqq₀ (.cons hrr₀ .nil)) =>
      rw [hpp₀.place, hrr₀.place] at hplace
      have halike := h.between hremove p₀ q₀ r₀ hsub hplace (htext.of_stemsFrom hpp₀.definition hrr₀.definition)
        (hrr₀.definition.alike.symm.trans hlast)
      exact hqq₀.definition.alike.trans halike

/-- Nothing disturbs a stretch of siblings that nothing disturbs. -/
theorem Undisturbed.stretch {before after : List Node} (h : Undisturbed config active name last (before ++ (xs ++ after))) :
    Undisturbed config active name last xs := by
  apply h.descend
  · intro place
    cases place with
    | nil => exact Nat.le_refl 1
    | cons head place =>
        rw [Node.blockCount_cons_append, Node.blockCount_cons_append]
        omega
  · intro p hp
    refine ⟨p, ?_, Std.Refl.refl p⟩
    rw [definitionsOfAll_append, definitionsOfAll_append]
    exact List.mem_append_right _ (List.mem_append_left _ hp)
  · rw [named_append, named_append]
    exact ((List.sublist_append_left _ _).trans (List.sublist_append_right _ _)).sublistForall₂

theorem Keeps.named_eq_nil (h : Keeps config active name last xs ys) (hxs : named config active name xs = []) :
    named config active name ys = [] := by
  apply List.eq_nil_iff_forall_not_mem.mpr
  intro p hp
  obtain ⟨q, hq, -⟩ := exists_named h.stems hp
  rw [hxs] at hq
  cases hq

theorem framed_keeps : Framed (Keeps config active name last) where
  refl xs := ⟨fun _ => Nat.le_refl _, fun p hp => ⟨p, hp, Std.Refl.refl p⟩, fun _ => Std.Refl.refl _, fun _ => id⟩
  trans {xs ys zs} h h' := by
    have hys (hxs : Undisturbed config active name last xs) : Undisturbed config active name last ys :=
      hxs.descend h.count h.stems (h.sublist hxs)
    refine ⟨fun place => (h'.count place).trans (h.count place), fun p hp => ?_, fun hxs => ?_, fun hxs hends => ?_⟩
    · obtain ⟨q, hq, hpq⟩ := h'.stems p hp
      obtain ⟨r, hr, hqr⟩ := h.stems q hq
      exact ⟨r, hr, IsTrans.trans _ _ _ hpq hqr⟩
    · exact IsTrans.trans _ _ _ (h'.sublist (hys hxs)) (h.sublist hxs)
    · exact h'.ends (hys hxs) (h.ends hxs hends)
  within {xs ys} before after h := by
    refine ⟨fun place => ?_, fun p hp => ?_, fun hall => ?_, fun hall hends => ?_⟩
    · cases place with
      | nil => exact Nat.le_refl 1
      | cons head place =>
          have hle := h.count (head :: place)
          simp only [Node.blockCount_cons_append]
          omega
    · simp only [definitionsOfAll_append, List.mem_append] at hp ⊢
      rcases hp with hp | hp | hp
      · exact ⟨p, .inl hp, Std.Refl.refl p⟩
      · obtain ⟨q, hq, hpq⟩ := h.stems p hp
        exact ⟨q, .inr (.inl hq), hpq⟩
      · exact ⟨p, .inr (.inr hp), Std.Refl.refl p⟩
    · simp only [named_append]
      apply sublistForall₂_append (Std.Refl.refl _)
      exact sublistForall₂_append (h.sublist hall.stretch) (Std.Refl.refl _)
    · simp only [named_append] at hends ⊢
      apply hends.append id
      · intro hends
        exact hends.append (h.ends hall.stretch) id id
      · intro hnil
        rw [List.append_eq_nil_iff] at hnil ⊢
        exact ⟨h.named_eq_nil hnil.1, hnil.2⟩

/-- Where the definitions of the name stay as they are, nothing needs to be known about how they could be disturbed. -/
theorem Keeps.of_named_eq (hcount : ∀ place, blockCount place ys ≤ blockCount place xs)
    (hsubset : definitionsOfAll active ys ⊆ definitionsOfAll active xs)
    (hnamed : Undisturbed config active name last xs → named config active name ys = named config active name xs) :
    Keeps config active name last xs ys where
  count := hcount
  stems p hp := ⟨p, hsubset hp, Std.Refl.refl p⟩
  sublist h := by
    rw [hnamed h]
    exact Std.Refl.refl _
  ends h hends := by
    rw [hnamed h]
    exact hends

theorem Keeps.of_forall₂ (hcount : ∀ place, blockCount place ys ≤ blockCount place xs)
    (h : List.Forall₂ (Placed.StemsFrom config) (definitionsOfAll active ys) (definitionsOfAll active xs)) :
    Keeps config active name last xs ys where
  count := hcount
  stems _ hp := Property.exists_of_mem_left h hp
  sublist _ := List.sublistForall₂_iff.mpr ⟨_, forall₂_filter name h, List.Sublist.refl _⟩
  ends _ hends := hends.of_forall₂ (forall₂_filter name h)

end Keeps

section Rules

/-- Siblings without the rules among them. -/
def unruled (nodes : List Node) : List Node := nodes.filter fun node => node.rule?.isNone

theorem definitionsOfAll_unruled (active : String → Bool) (nodes : List Node) :
    definitionsOfAll active (unruled nodes) = definitionsOfAll active nodes := by
  induction nodes with
  | nil => rfl
  | cons node nodes ih =>
      rw [definitionsOfAll, ← ih]
      cases node <;> rfl

theorem blockCount_unruled (place : List String) (nodes : List Node) :
    blockCount place (unruled nodes) = blockCount place nodes := by
  cases place with
  | nil => rfl
  | cons head place =>
      induction nodes with
      | nil => rfl
      | cons node nodes ih =>
          rw [Node.blockCount_cons_cons, ← ih]
          cases node with
          | rule r => exact (Nat.zero_add _).symm
          | _ => rfl

variable {config : Config} {active : String → Bool} {name : Definition.Name} {last : Definition}
  {xs ys : List Node}

/-- Rules define nothing. -/
theorem Keeps.of_unruled_eq (h : unruled ys = unruled xs) : Keeps config active name last xs ys := by
  have hdefinitions : definitionsOfAll active ys = definitionsOfAll active xs := by
    rw [← definitionsOfAll_unruled, h, definitionsOfAll_unruled]
  apply Keeps.of_named_eq
  · intro place
    rw [← blockCount_unruled, h, blockCount_unruled]
  · rw [hdefinitions]
    exact List.Subset.refl _
  · intro _
    rw [named, named, hdefinitions]

theorem unruled_append (as bs : List Node) : unruled (as ++ bs) = unruled as ++ unruled bs := List.filter_append as bs

theorem unruled_rule (r : Rule) (nodes : List Node) : unruled (.rule r :: nodes) = unruled nodes := rfl

theorem unruled_stripped (h : Hoist) {marks : List (Node × Bool)} (hrules : Hoist.AllRules marks) :
    unruled (Hoist.stripped config h marks) = unruled (marks.map Prod.fst) := by
  induction marks with
  | nil => rfl
  | cons mark marks ih =>
      have hrest := ih fun node hnode => hrules node (List.mem_cons_of_mem mark hnode)
      obtain ⟨node, isMarked⟩ := mark
      cases isMarked with
      | false =>
          rw [Hoist.stripped_cons_false, List.map_cons, ← List.singleton_append, unruled_append, hrest,
            ← unruled_append, List.singleton_append]
      | true =>
          obtain ⟨r, rfl, -, -⟩ := hrules node List.mem_cons_self
          rw [Hoist.stripped_cons_true, Hoist.strip_rule, unruled_append, hrest, List.map_cons, unruled_rule]
          split <;> rfl

theorem keeps_apply {nodes : List Node} {h : Hoist} (hbest : Hoist.best? config nodes = .ok (some h)) :
    Keeps config active name last nodes (h.apply config nodes) := by
  apply Keeps.of_unruled_eq
  have hsound := Hoist.sound_of_best? hbest
  rw [Hoist.apply_eq, unruled_append, unruled_rule, unruled_stripped h hsound.allReady.rules, Hoist.map_fst_marks,
    ← unruled_append, List.take_append_drop]

end Rules

section Blocks

variable {config : Config} {active : String → Bool} {name : Definition.Name} {last : Definition}
  {cs ds : List Node} {head : String}

theorem under_prefix_iff {head : String} {outer place : List String} :
    head :: outer <+: head :: place ↔ outer <+: place := by
  rw [List.cons_prefix_cons, and_iff_right rfl]

/-- Nothing disturbs what stands inside a block that nothing disturbs. -/
theorem Undisturbed.inside (hactive : active head = true) (h : Undisturbed config active name last [.block head cs]) :
    Undisturbed config active name last cs := by
  have hdefined {p : Placed} (hp : p ∈ definitionsOfAll active cs) :
      p.under head ∈ definitionsOfAll active [.block head cs] := by
    rw [definitionsOfAll_singleton, Node.definitions, if_pos hactive]
    exact List.mem_append_right _ (List.mem_map_of_mem hp)
  have hsublist : List.Sublist ((named config active name cs).map (Placed.under head))
      (named config active name [.block head cs]) := by
    rw [named_block, if_pos hactive]
    exact List.sublist_append_right _ _
  have hnamed {p : Placed} (hp : p ∈ named config active name cs) :
      p.under head ∈ named config active name [.block head cs] := hsublist.subset (List.mem_map_of_mem hp)
  refine ⟨fun hmerge p hp q hq outer inner hp' hq' hnot hmedia => ?_, fun hremove p hp q hq hplace => ?_,
    fun hremove p q r hpqr hplace => ?_⟩
  · have hle := h.order hmerge _ (hnamed hp) _ (hnamed hq) (head :: outer) inner (under_prefix_iff.mpr hp')
      (under_prefix_iff.mpr hq') (fun hprefix => hnot (under_prefix_iff.mp hprefix)) hmedia
    rw [List.cons_append, Node.blockCount_cons_cons, Node.blockCount_cons_nil, Node.countUnder, if_pos rfl] at hle
    exact hle
  · exact h.told hremove (p.under head) (hdefined hp) (q.under head) (hnamed hq) (congrArg (head :: ·) hplace)
  · exact h.between hremove (p.under head) (q.under head) (r.under head)
      ((hpqr.map (Placed.under head)).trans hsublist) (congrArg (head :: ·) hplace)

theorem endsIn_map_under (ps : List Placed) :
    EndsIn config last (ps.map (Placed.under head)) ↔ EndsIn config last ps := by
  simp [EndsIn, Placed.under]

theorem forall₂_ownFrames (hframes : Node.isAnimationHead head = true →
      (Definition.frames head ds).StemsFrom config (.frames head cs)) :
    List.Forall₂ (Placed.StemsFrom config) (Node.ownFrames head ds) (Node.ownFrames head cs) := by
  rw [Node.ownFrames, Node.ownFrames]
  split
  · next hhead => exact .cons ⟨rfl, hframes hhead⟩ .nil
  · exact .nil

/-- What is kept inside a block is kept with it around, if the animation that the block defines stays what it is. -/
theorem Keeps.inside (hframes : Node.isAnimationHead head = true →
      (Definition.frames head ds).StemsFrom config (.frames head cs))
    (h : Keeps config active name last cs ds) :
    Keeps config active name last [.block head cs] [.block head ds] where
  count place := by
    cases place with
    | nil => exact Nat.le_refl 1
    | cons head' place =>
        simp only [Node.blockCount_cons_cons, Node.blockCount_cons_nil, Node.countUnder]
        split
        · exact h.count place
        · exact Nat.le_refl 0
  stems p hp := by
    simp only [definitionsOfAll_singleton, Node.definitions, List.mem_append] at hp ⊢
    rcases hp with hp | hp
    · obtain ⟨q, hq, hpq⟩ := Property.exists_of_mem_left (forall₂_ownFrames hframes) hp
      exact ⟨q, .inl hq, hpq⟩
    · split at hp
      · next hactive =>
          obtain ⟨inner, hinner, rfl⟩ := List.mem_map.mp hp
          obtain ⟨q, hq, hpq⟩ := h.stems inner hinner
          refine ⟨q.under head, .inr ?_, hpq.under head⟩
          rw [if_pos hactive]
          exact List.mem_map_of_mem hq
      · cases hp
  sublist hall := by
    rw [named_block, named_block]
    apply sublistForall₂_append
    · exact List.sublistForall₂_iff.mpr ⟨_, forall₂_filter name (forall₂_ownFrames hframes), List.Sublist.refl _⟩
    · split
      · next hactive =>
          have hsub := h.sublist (hall.inside hactive)
          obtain ⟨l, hl, hl'⟩ := List.sublistForall₂_iff.mp hsub
          refine List.sublistForall₂_iff.mpr ⟨l.map (Placed.under head), ?_, hl'.map _⟩
          rw [List.forall₂_map_left_iff, List.forall₂_map_right_iff]
          exact hl.imp fun p q hpq => hpq.under head
      · exact .nil
  ends hall hends := by
    rw [named_block] at hends ⊢
    apply hends.append
    · exact .of_forall₂ (forall₂_filter name (forall₂_ownFrames hframes))
    · intro hends
      split at hends
      · next hactive =>
          rw [if_pos hactive]
          rw [endsIn_map_under] at hends ⊢
          exact h.ends (hall.inside hactive) hends
      · next hactive =>
          rw [if_neg hactive]
          exact hends
    · intro hnil
      split at hnil
      · next hactive =>
          rw [if_pos hactive, h.named_eq_nil (List.map_eq_nil_iff.mp hnil)]
          rfl
      · next hactive => rw [if_neg hactive]

theorem definitions_of_isMediaHead (hmedia : isMediaHead head = true) (children : List Node) :
    (Node.block head children).definitions active
      = if active head then (definitionsOfAll active children).map (Placed.under head) else [] := by
  have hhead : Node.isAnimationHead head = false := by
    apply Bool.eq_false_iff.mpr
    intro hanimation
    rw [Node.isMediaHead_of_isAnimationHead hanimation] at hmedia
    cases hmedia
  rw [Node.definitions, Node.ownFrames, hhead]
  rfl

theorem definitions_join (hmedia : isMediaHead head = true) (earlier later : List Node) :
    (Node.block head (earlier ++ later)).definitions active
      = (Node.block head earlier).definitions active ++ (Node.block head later).definitions active := by
  simp only [definitions_of_isMediaHead hmedia, definitionsOfAll_append]
  split
  · exact List.map_append
  · rfl

theorem named_join (hmedia : isMediaHead head = true) (earlier later : List Node) :
    named config active name [.block head (earlier ++ later)]
      = named config active name [.block head earlier] ++ named config active name [.block head later] := by
  simp only [named, definitionsOfAll_singleton, definitions_join hmedia, List.filter_append]

/-- A block for media that has a partner, and what stands between the two, do not both define the name. -/
theorem Undisturbed.apart (hmerge : config.options.mergeMedia = true) (hmedia : isMediaHead head = true)
    {earlier later between : List Node} (hbetween : ∀ node ∈ between, isMediaWith head node = false)
    (h : Undisturbed config active name last (.block head earlier :: (between ++ [.block head later]))) :
    named config active name between = [] ∨
      named config active name [.block head (earlier ++ later)] = [] := by
  by_contra hboth
  obtain ⟨hne, hne'⟩ := not_or.mp hboth
  obtain ⟨q, hq⟩ := List.exists_mem_of_ne_nil _ hne
  obtain ⟨p, hp⟩ := List.exists_mem_of_ne_nil _ hne'
  have hnamed : named config active name (.block head earlier :: (between ++ [.block head later]))
      = named config active name [.block head earlier] ++
        (named config active name between ++ named config active name [.block head later]) := by
    rw [named_cons _ (between ++ _), named_append]
  have hpin : [head] <+: p.place := by
    obtain ⟨hdefined, -⟩ := mem_named.mp hp
    rw [definitionsOfAll_singleton, definitions_of_isMediaHead hmedia] at hdefined
    split at hdefined
    · obtain ⟨inner, -, rfl⟩ := List.mem_map.mp hdefined
      exact ⟨inner.place, rfl⟩
    · cases hdefined
  have hqout : ¬ [head] <+: q.place := by
    rintro ⟨place, hplace⟩
    obtain ⟨children, hblock⟩ := Node.exists_block_of_place_eq (mem_named.mp hq).1 hplace.symm
    have hwith : isMediaWith head (.block head children) = true := by
      rw [isMediaHead] at hmedia
      simp [isMediaWith, Node.media?, hmedia]
    rw [hbetween _ hblock] at hwith
    cases hwith
  have hone : blockCount [head] (.block head earlier :: (between ++ [.block head later])) ≤ 1 := by
    apply h.order hmerge p _ q _ [] head hpin List.nil_prefix hqout hmedia
    · rw [named_join hmedia, List.mem_append] at hp
      rw [hnamed, List.mem_append, List.mem_append]
      exact hp.imp id .inr
    · rw [hnamed]
      exact List.mem_append_right _ (List.mem_append_left _ hq)
  have htwo : 2 ≤ blockCount [head] (.block head earlier :: (between ++ [.block head later])) := by
    have hcount (children : List Node) : Node.countUnder head (blockCount []) (.block head children) = 1 := if_pos rfl
    rw [Node.blockCount_cons_cons, Node.blockCount_cons_append, Node.blockCount_cons_cons, hcount, hcount]
    omega
  omega

/-- Two blocks for media become one, above what stands between them, below it or anywhere in it. -/
theorem keeps_join (hmerge : config.options.mergeMedia = true) (hmedia : isMediaHead head = true)
    (earlier later : List Node) {between : List Node} (hbetween : ∀ node ∈ between, isMediaWith head node = false)
    {front back : List Node} (hparts : front ++ back = between) :
    Keeps config active name last (.block head earlier :: (between ++ [.block head later]))
      (front ++ .block head (earlier ++ later) :: back) := by
  subst hparts
  apply Keeps.of_named_eq
  · intro place
    cases place with
    | nil => exact Nat.le_refl 1
    | cons head' place =>
        have hle := Node.blockCount_append_le place earlier later
        simp only [Node.blockCount_cons_cons, Node.blockCount_cons_append, Node.blockCount_cons_nil, Node.countUnder]
        split <;> omega
  · intro p hp
    simp only [definitionsOfAll, definitionsOfAll_append, definitions_join hmedia, List.append_nil,
      List.mem_append] at hp ⊢
    rcases hp with hp | (hp | hp) | hp
    · exact .inr (.inl (.inl hp))
    · exact .inl hp
    · exact .inr (.inr hp)
    · exact .inr (.inl (.inr hp))
  · intro h
    have hapart := h.apart hmerge hmedia hbetween
    rw [named_join hmedia, named_append, List.append_eq_nil_iff, List.append_eq_nil_iff] at hapart
    rw [named_cons _ (front ++ back ++ _), named_append, named_append, named_append, named_cons _ back,
      named_join hmedia]
    rcases hapart with ⟨hnone, hnone'⟩ | ⟨hnone, hnone'⟩
    · simp [hnone, hnone']
    · simp [hnone, hnone']

end Blocks

end Siblings

end CssMinify
