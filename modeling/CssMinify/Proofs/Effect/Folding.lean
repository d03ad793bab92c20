import CssMinify.Proofs.Effect.Shadowing

/-!
Comparing declarations that set something in common. A shorthand into which a later longhand is folded
gives to every longhand what the later one gives, or else what it gave before; whether the value that was
put together says so is checked by splitting it again. So every verdict of the comparison is safe.
-/

namespace CssMinify

namespace Property

/-- A property that gives to every longhand what its declaration gives. -/
structure Faithful (profile : Profile) (p : Property) : Prop where
  regular : p.isOpaque = false → p.Regular
  bound : p.Bound
  settings : ∀ l, p.toDeclaration.setting? profile l = p.setting? l

theorem faithful_wrap (profile : Profile) (d : Declaration) (position : Nat) :
    Faithful profile (wrap profile d position) where
  regular := regular_wrap
  bound := bound_wrap profile d position
  settings := by
    intro l
    rw [toDeclaration_wrap, Declaration.setting?]
    exact setting?_wrap_congr rfl rfl l

theorem isOpaque_of_components_ne_nil {p : Property} (h : p.components ≠ []) : p.isOpaque = false := by
  simp [isOpaque, h]

theorem leaves_congr {p q : Property} (h : p.components = q.components) (hne : p.components ≠ []) :
    p.leaves = q.leaves := by
  rw [leaves_of_components_ne_nil hne, leaves_of_components_ne_nil (h ▸ hne), h]

theorem regular_congr {p q : Property} (hname : p.name = q.name) (h : p.components = q.components)
    (hp : p.Regular) : q.Regular := by
  have hleaves : q.leaves.map (·.name) = p.leaves.map (·.name) := by
    by_cases hnil : p.components = []
    · rw [leaves_of_components_eq_nil hnil, leaves_of_components_eq_nil (h ▸ hnil), List.map_singleton,
        List.map_singleton, hname]
    · rw [leaves_congr h hnil]
  rw [regular_iff, ← hleaves, leafNames_congr hname, h, isShorthand, hname] at hp
  exact regular_iff.mpr hp

section Verified

variable {profile : Profile} {p : Property} {value : Value}

/-- What a value splits into again, longhand by longhand. -/
theorem forall₂_of_verifies (h : p.verifies profile value = true) :
    (wrap profile { p.toDeclaration with value } p.position).isOpaque = false ∧
      List.Forall₂ (fun e a => e.name = a.name ∧ (e.free = true ∨ e.value = a.value)) p.leaves
        (wrap profile { p.toDeclaration with value } p.position).leaves := by
  simp only [verifies, Bool.and_eq_true, beq_iff_eq, List.all_eq_true, Bool.or_eq_true] at h
  obtain ⟨⟨hanalysed, hlength⟩, hall⟩ := h
  refine ⟨?_, List.forall₂_iff_zip.mpr ⟨hlength, fun {e a} hmem => hall (e, a) hmem⟩⟩
  simp only [isAnalysed, Bool.and_eq_true, Bool.not_eq_true'] at hanalysed
  simp [isOpaque, hanalysed.2]

theorem exists_of_mem_left {α β : Type} {R : α → β → Prop} {as : List α} {bs : List β}
    (h : List.Forall₂ R as bs) {a : α} (ha : a ∈ as) : ∃ b ∈ bs, R a b := by
  induction h with
  | nil => cases ha
  | @cons a' b as bs hab _ ih =>
      rcases List.mem_cons.mp ha with rfl | ha
      · exact ⟨b, List.mem_cons_self, hab⟩
      · obtain ⟨b', hb', hab'⟩ := ih ha
        exact ⟨b', List.mem_cons_of_mem b hb', hab'⟩

/-- A value that splits into the longhands again gives them what they have, unless they are free. -/
theorem setting?_of_verifies (h : p.verifies profile value = true) {leaf : Property}
    (hleaf : leaf ∈ p.leaves) (hfree : leaf.free = false) :
    Declaration.setting? profile { p.toDeclaration with value } leaf.name = some (.own leaf.value) := by
  obtain ⟨hknown, hall⟩ := forall₂_of_verifies h
  obtain ⟨again, hmem, hname, hvalue⟩ := exists_of_mem_left hall hleaf
  have hsplit := setting?_of_mem_leaves (regular_wrap hknown) hknown hmem
  rw [hfree] at hvalue
  simp only [Bool.false_eq_true, false_or] at hvalue
  rw [hname, hvalue, ← hsplit]
  exact setting?_wrap_congr rfl rfl again.name

/-- A regular property gets a value that it splits into again. -/
theorem faithful_of_verifies {q : Property} (h : p.verifies profile value = true) (hregular : p.Regular)
    (hbound : p.Bound) (hne : p.components ≠ [])
    (hdeclaration : q.toDeclaration = { p.toDeclaration with value })
    (hcomponents : q.components = p.components) : Faithful profile q := by
  have hname : p.name = q.name := by rw [hdeclaration]
  have hleaves : q.leaves = p.leaves := (leaves_congr hcomponents.symm hne).symm
  have hq : q.Regular := regular_congr hname hcomponents.symm hregular
  have hknown : q.isOpaque = false := isOpaque_of_components_ne_nil (hcomponents ▸ hne)
  refine ⟨fun _ => hq, fun leaf hleaf => hbound leaf (hleaves ▸ hleaf), fun l => ?_⟩
  by_cases hmem : l ∈ q.leafNames
  · obtain ⟨leaf, hleaf, rfl⟩ := (mem_leafNames_iff hq).mp hmem
    rw [setting?_of_mem_leaves hq hknown hleaf, hdeclaration]
    rw [hleaves] at hleaf
    exact setting?_of_verifies h hleaf (hbound leaf hleaf)
  · rw [Declaration.setting?_eq_none profile hmem, setting?_eq_none (fun _ => hq) hmem]

end Verified

section Fold

variable {profile : Profile} {e r m : Property}

/-- Importance, hack and place come from the owner. -/
def adopt (owner q : Property) : Property :=
  { q with important := owner.important, hack := owner.hack, position := owner.position }

theorem belongTo_eq (owner p : Property) : belongTo owner p = adopt owner (p.mapComponents (adopt owner)) :=
  rfl

theorem name_belongTo (owner p : Property) : (belongTo owner p).name = p.name := by
  rw [belongTo_eq, mapComponents_eq]
  rfl

theorem leaves_belongTo (owner p : Property) : (belongTo owner p).leaves = p.leaves.map (adopt owner) :=
  leaves_mapComponents (adopt owner) (fun _ => rfl) p

theorem regular_belongTo (owner : Property) {p : Property} (hp : p.Regular) : (belongTo owner p).Regular :=
  regular_mapComponents (adopt owner) (fun _ => rfl) (fun _ => rfl) hp

theorem components_ne_nil_of_find? {name : String} {p c : Property} (h : p.find? name = some c) :
    p.components ≠ [] := by
  intro hnil
  rw [find?_eq, hnil, findAmong?] at h
  cases h

/-- Everything that a component sets, the shorthand sets. -/
theorem leafNames_subset_of_find? (he : e.Regular) {c : Property} (h : e.find? r.name = some c) :
    r.leafNames ⊆ e.leafNames := by
  obtain ⟨hc, hname, before, after, hleaves⟩ := find?_regular he h
  intro l hl
  rw [← leafNames_congr hname, mem_leafNames_iff hc] at hl
  obtain ⟨leaf, hleaf, rfl⟩ := hl
  exact (mem_leafNames_iff he).mpr ⟨leaf, by simp [hleaves, hleaf], rfl⟩

/-- A stretch of longhands that another property takes over gets what that property gives. -/
theorem setting?_of_stretch {c : Property} {before after : List Property} (he : e.Regular)
    (heknown : e.isOpaque = false) (hr : r.Regular) (hrknown : r.isOpaque = false) (hm : m.Regular)
    (hmknown : m.isOpaque = false) (hc : c.Regular) (hcname : c.name = r.name) (hmname : m.name = e.name)
    (hleaves : e.leaves = before ++ c.leaves ++ after)
    (hleaves' : m.leaves = before ++ r.leaves.map (adopt e) ++ after) (l : String) :
    m.setting? l = (r.setting? l).or (e.setting? l) := by
  by_cases hlr : l ∈ r.leafNames
  · obtain ⟨leaf, hleaf, rfl⟩ := (mem_leafNames_iff hr).mp hlr
    have hmem : adopt e leaf ∈ m.leaves := by
      rw [hleaves']
      simp [List.mem_map_of_mem hleaf]
    rw [setting?_of_mem_leaves hr hrknown hleaf, Option.some_or]
    -- Adopting changes neither the name nor the value of a longhand.
    have hset := setting?_of_mem_leaves hm hmknown hmem
    exact hset
  rw [setting?_eq_none (fun _ => hr) hlr, Option.none_or]
  by_cases hle : l ∈ e.leafNames
  · obtain ⟨leaf, hleaf, rfl⟩ := (mem_leafNames_iff he).mp hle
    have hapart : leaf ∉ c.leaves := by
      intro hmem
      refine hlr ?_
      rw [← leafNames_congr hcname]
      exact (mem_leafNames_iff hc).mpr ⟨leaf, hmem, rfl⟩
    have hmem : leaf ∈ m.leaves := by
      rw [hleaves] at hleaf
      rw [hleaves']
      simp only [List.mem_append] at hleaf ⊢
      tauto
    rw [setting?_of_mem_leaves he heknown hleaf, setting?_of_mem_leaves hm hmknown hmem]
  · have hlm : l ∉ m.leafNames := leafNames_congr hmname ▸ hle
    rw [setting?_eq_none (fun _ => he) hle, setting?_eq_none (fun _ => hm) hlm]

/-- What a shorthand becomes when a longhand is folded into it. -/
structure Folded (profile : Profile) (e r m : Property) : Prop where
  faithful : Faithful profile m
  known : m.isOpaque = false
  name : m.name = e.name
  important : m.important = e.important
  hack : m.hack = e.hack
  unused : m.unused = e.unused
  settings : ∀ l, m.setting? l = (r.setting? l).or (e.setting? l)

theorem folded_of_folded? (he : Faithful profile e) (hr : Faithful profile r) (hknown : r.isOpaque = false)
    (h : folded? profile e r = some m) : Folded profile e r m := by
  simp only [folded?, Option.bind_eq_bind, Option.bind_eq_some_iff] at h
  obtain ⟨component, hfind, d, -, h⟩ := h
  split at h
  case isFalse => cases h
  simp only [Option.bind_eq_some_iff] at h
  obtain ⟨merged, hmodify, value, -, h⟩ := h
  split at h
  case isFalse => cases h
  next hverifies =>
  have heknown : e.isOpaque = false := isOpaque_of_components_ne_nil (components_ne_nil_of_find? hfind)
  have hereg := he.regular heknown
  have hrreg := hr.regular hknown
  obtain ⟨hmreg, hne, hmerged, c, before, after, hfind', hleaves, hleaves'⟩ :=
    modify?_regular (regular_belongTo e hrreg) (name_belongTo e r) hereg hmodify
  obtain ⟨hcreg, hcname, -⟩ := find?_regular hereg hfind'
  rw [leaves_belongTo] at hleaves'
  have hmbound : merged.Bound := by
    intro leaf hleaf
    rw [hleaves', List.append_assoc, List.mem_append, List.mem_append] at hleaf
    rcases hleaf with hleaf | hleaf | hleaf
    · exact he.bound leaf (by simp [hleaves, hleaf])
    · obtain ⟨q, hq, rfl⟩ := List.mem_map.mp hleaf
      exact hr.bound q hq
    · exact he.bound leaf (by simp [hleaves, hleaf])
  have hmname : merged.name = e.name := by rw [hmerged]
  have hmleaves (p : Property) (hp : p.components = merged.components) :
      p.leaves = before ++ r.leaves.map (adopt e) ++ after := by
    rw [← hleaves', leaves_congr hp.symm hne]
  obtain rfl := Option.some.inj h
  exact {
    faithful := faithful_of_verifies hverifies hmreg hmbound hne rfl rfl
    known := isOpaque_of_components_ne_nil hne
    name := hmname
    important := by rw [hmerged]
    hack := by rw [hmerged]
    unused := by rw [hmerged]
    settings := setting?_of_stretch hereg heknown hrreg hknown
      (regular_congr (p := merged) rfl rfl hmreg) (isOpaque_of_components_ne_nil hne) hcreg hcname hmname
      hleaves (hmleaves _ rfl) }

end Fold

/-- What has been checked of a pair when a verdict is given. -/
inductive Verdict.Grounds (profile : Profile) (e : Property) (mid : List Property) (r : Property) :
    Verdict → Prop
  | keepBoth : Grounds profile e mid r .keepBoth
  | dropEarlier (hhack : e.hack = r.hack) (himportant : e.important = true → r.important = true)
      (hleaf : e.leafNames ⊆ r.leafNames) : Grounds profile e mid r .dropEarlier
  | dropLater (hhack : e.hack = r.hack) (he : e.important = true) (hr : r.important = false)
      (hleaf : r.leafNames ⊆ e.leafNames) : Grounds profile e mid r .dropLater
  | foldInto {m : Property} (hhack : e.hack = r.hack) (himportant : r.important = e.important)
      (hbetween : ∀ p ∈ mid, p.unused = true ∨ ∀ l ∈ r.leafNames, l ∉ p.leafNames)
      (hknown : r.isOpaque = false) (hfolded : folded? profile e r = some m) :
      Grounds profile e mid r (.foldInto m)

section Verdicts

variable {profile : Profile} {e r : Property} {mid : List Property}

theorem judgeDuplicate_grounds (profile : Profile) (e : Property) (mid : List Property) (r : Property) :
    (judgeDuplicate e mid r).Grounds profile e mid r := by
  rw [judgeDuplicate]
  split
  · next h =>
      simp only [Bool.and_eq_true, beq_iff_eq, Bool.or_eq_true, Bool.not_eq_true'] at h
      obtain ⟨⟨⟨hname, -⟩, hhack⟩, himportant⟩ := h
      refine .dropEarlier hhack (fun hi => ?_) (by rw [leafNames_congr hname]; exact fun _ h => h)
      rcases himportant with hr | he
      · exact hr
      · rw [hi] at he
        cases he
  · exact .keepBoth

/-- Of two that set the same, the less important one goes, or else the earlier one. -/
theorem drop_grounds (replaceable : Bool → Bool) (hhack : e.hack = r.hack)
    (hname : e.name = r.name) :
    (if e.important && !r.important then
        if replaceable true then Verdict.dropLater else .keepBoth
      else if replaceable false then .dropEarlier
      else .keepBoth).Grounds profile e mid r := by
  have hleaf := leafNames_congr hname
  split
  · next h =>
      simp only [Bool.and_eq_true, Bool.not_eq_true'] at h
      split
      · exact .dropLater hhack h.1 h.2 (by rw [hleaf]; exact fun _ h => h)
      · exact .keepBoth
  · next h =>
      simp only [Bool.and_eq_true, Bool.not_eq_true', not_and, Bool.not_eq_false] at h
      split
      · exact .dropEarlier hhack h (by rw [hleaf]; exact fun _ h => h)
      · exact .keepBoth

theorem judgeSame_grounds (hhack : e.hack = r.hack) (hname : e.name = r.name) :
    (judgeSame profile e r).Grounds profile e mid r :=
  drop_grounds (fun later =>
    if later then canOverride profile e.name r.value e.value
    else canOverride profile e.name e.value r.value) hhack hname

theorem judgeShorthands_grounds (hhack : e.hack = r.hack) (hname : e.name = r.name) :
    (judgeShorthands profile e r).Grounds profile e mid r := by
  rw [judgeShorthands]
  split
  · exact .keepBoth
  · exact drop_grounds (fun later =>
      if later then leavesReplaceable profile r e else leavesReplaceable profile e r) hhack hname

theorem leafNames_subset_of_covers (h : Registry.builtin.covers r.name e.name = true) :
    e.leafNames ⊆ r.leafNames := by
  rw [Registry.covers] at h
  cases hr : Registry.builtin.find? r.name with
  | none => simp [hr] at h
  | some o =>
      cases he : Registry.builtin.find? e.name with
      | none => simp [hr, he] at h
      | some i =>
          simp only [hr, he, Bool.and_eq_true, List.all_eq_true, List.contains_iff_mem] at h
          rw [leafNames_of_descriptor? (p := e) he, leafNames_of_descriptor? (p := r) hr]
          exact h.2

theorem judgeCovered_grounds (hhack : e.hack = r.hack)
    (hcovers : Registry.builtin.covers r.name e.name = true) :
    (judgeCovered profile e r).Grounds profile e mid r := by
  simp only [judgeCovered]
  split
  · exact .keepBoth
  next himportant =>
  split
  · exact .keepBoth
  split
  · exact .keepBoth
  split
  · refine .dropEarlier hhack (fun hi => ?_) (leafNames_subset_of_covers hcovers)
    simpa [hi] using himportant
  · exact .keepBoth

theorem judgeComponent_grounds (he : Faithful profile e) (hhack : e.hack = r.hack) :
    (judgeComponent profile e mid r).Grounds profile e mid r := by
  rw [judgeComponent]
  split
  · exact .keepBoth
  next hknown =>
  split
  · next himportant =>
      simp only [Bool.and_eq_true, Bool.not_eq_true'] at himportant
      split
      · next component hfind =>
          have hreg := he.regular (isOpaque_of_components_ne_nil (components_ne_nil_of_find? hfind))
          split
          · exact .dropLater hhack himportant.1 himportant.2 (leafNames_subset_of_find? hreg hfind)
          · exact .keepBoth
      · exact .keepBoth
  next himportant =>
  split
  · exact .keepBoth
  next himportant' =>
  split
  · exact .keepBoth
  next hbetween =>
  split
  · next m hfolded =>
      refine .foldInto hhack ?_ (fun p hp => ?_) ?_ hfolded
      · revert himportant himportant'
        cases e.important <;> cases r.important <;> decide
      · simp only [List.any_eq_true, Bool.and_eq_true, Bool.not_eq_true', not_exists, not_and] at hbetween
        cases hunused : p.unused with
        | true => exact .inl rfl
        | false =>
            have happart := hbetween p hp hunused
            simp only [touches, List.any_eq_true, List.contains_iff_mem, not_exists, not_and] at happart
            exact .inr fun l hr hp => happart l hp hr
      · revert hknown
        cases hshort : r.isShorthand <;> simp [isAnalysed, isOpaque, hshort]
  · exact .keepBoth

/-- Every verdict on a pair has its grounds. -/
theorem judgePair_grounds (config : Config) (he : Faithful config.profile e) :
    (judgePair config e mid r).Grounds config.profile e mid r := by
  simp only [judgePair]
  split
  · exact .keepBoth
  next hguard =>
  have hhack : e.hack = r.hack := by
    simp only [Bool.or_eq_true, bne_iff_ne, not_or, ne_eq, not_not] at hguard
    exact hguard.1.1.1
  split
  · next hname =>
      split
      · exact judgeShorthands_grounds hhack (by simpa using hname)
      · exact judgeSame_grounds hhack (by simpa using hname)
  split
  · next hcovers => exact judgeCovered_grounds hhack (by simpa using (Bool.and_eq_true _ _ ▸ hcovers).2)
  split
  · exact judgeComponent_grounds he hhack
  · exact .keepBoth

end Verdicts

/-- The properties that are alive are faithful. -/
def AllFaithful (profile : Profile) (ps : List Property) : Prop :=
  ∀ p ∈ ps, p.unused = false → Faithful profile p

theorem allFaithful_wrapAll (profile : Profile) (ds : List Declaration) :
    AllFaithful profile (wrapAll profile ds) := by
  intro p hp _
  obtain ⟨⟨d, position⟩, -, rfl⟩ := List.mem_map.mp hp
  exact faithful_wrap profile d position

section Run

variable {profile : Profile} {e r : Property} {mid : List Property} {verdict : Verdict}

theorem Verdict.Grounds.faithful (h : verdict.Grounds profile e mid r) (he : Faithful profile e)
    (hr : Faithful profile r) :
    ((verdict.outcome e r).1.unused = false → Faithful profile (verdict.outcome e r).1) ∧
      ((verdict.outcome e r).2.unused = false → Faithful profile (verdict.outcome e r).2) := by
  cases h with
  | keepBoth => exact ⟨fun _ => he, fun _ => hr⟩
  | dropEarlier => exact ⟨(fun hdead => by cases hdead), fun _ => hr⟩
  | dropLater => exact ⟨fun _ => he, fun hdead => by cases hdead⟩
  | foldInto hhack himportant hbetween hknown hfolded =>
      exact ⟨fun _ => (folded_of_folded? he hr hknown hfolded).faithful, fun hdead => by cases hdead⟩

/-- What is read by its hack alone makes every verdict safe that has grounds. -/
theorem Verdict.Grounds.safe (h : verdict.Grounds profile e mid r) (he : Faithful profile e)
    (hr : Faithful profile r) (hlive : e.unused = false) (reads : Hack → Bool) :
    verdict.Safe profile (fun d => reads d.hack) e mid r := by
  cases h with
  | keepBoth => exact .keepBoth
  | dropEarlier hhack himportant hleaf => exact .dropEarlier (by rw [hhack]; exact id) himportant hleaf
  | dropLater hhack hei hri hleaf => exact .dropLater (by rw [hhack]; exact id) hei hri hleaf
  | @foldInto m hhack himportant hbetween hknown hfolded =>
      have hm := folded_of_folded? he hr hknown hfolded
      refine .foldInto (by rw [hhack]) (by rw [hm.hack]) himportant hm.important (by rw [hm.unused, hlive])
        hbetween fun l => ?_
      rw [hm.faithful.settings, hr.settings, he.settings, hm.settings]

theorem AllFaithful.outcome {pre post : List Property} (h : verdict.Grounds profile e mid r)
    (he : e.unused = false) (hr : r.unused = false)
    (hall : AllFaithful profile (pre ++ e :: (mid ++ r :: post))) :
    AllFaithful profile (pre ++ (verdict.outcome e r).1 :: (mid ++ (verdict.outcome e r).2 :: post)) := by
  have hboth := h.faithful (hall e (by simp) he) (hall r (by simp) hr)
  intro p hp
  simp only [List.mem_append, List.mem_cons] at hp
  rcases hp with hp | rfl | hp | rfl | hp
  · exact hall p (by simp [hp])
  · exact hboth.1
  · exact hall p (by simp [hp])
  · exact hboth.2
  · exact hall p (by simp [hp])

/-- Judging all the pairs keeps the winner of every longhand. -/
theorem judgeAll_keeps {judge : Property → List Property → Property → Verdict}
    (hjudge : ∀ e mid r, Faithful profile e → (judge e mid r).Grounds profile e mid r)
    (reads : Hack → Bool) {ps : List Property} (hps : AllFaithful profile ps) :
    AllFaithful profile (judgeAll judge ps) ∧
      ∀ l, Claim.winner ((judgeAll judge ps).map (claim profile (fun d => reads d.hack) l))
        = Claim.winner (ps.map (claim profile (fun d => reads d.hack) l)) := by
  refine judgeAll_induction (P := fun qs => AllFaithful profile qs ∧ ∀ l,
    Claim.winner (qs.map (claim profile (fun d => reads d.hack) l))
      = Claim.winner (ps.map (claim profile (fun d => reads d.hack) l))) ?_ ⟨hps, fun l => rfl⟩
  intro pre e mid r post he hr ⟨hall, hwinner⟩
  have hef := hall e (by simp) he
  have hrf := hall r (by simp) hr
  have hgrounds := hjudge e mid r hef
  refine ⟨hall.outcome hgrounds he hr, fun l => ?_⟩
  rw [winner_outcome (hgrounds.safe hef hrf he reads) he hr, hwinner]

theorem removeDuplicates_keeps (reads : Hack → Bool) {ps : List Property} (hps : AllFaithful profile ps) :
    AllFaithful profile (removeDuplicates ps) ∧
      ∀ l, Claim.winner ((removeDuplicates ps).map (claim profile (fun d => reads d.hack) l))
        = Claim.winner (ps.map (claim profile (fun d => reads d.hack) l)) :=
  judgeAll_keeps (fun e mid r _ => judgeDuplicate_grounds profile e mid r) reads hps

theorem overrideAll_keeps (config : Config) (reads : Hack → Bool) {ps : List Property}
    (hps : AllFaithful config.profile ps) :
    AllFaithful config.profile (overrideAll config ps) ∧
      ∀ l, Claim.winner ((overrideAll config ps).map (claim config.profile (fun d => reads d.hack) l))
        = Claim.winner (ps.map (claim config.profile (fun d => reads d.hack) l)) :=
  judgeAll_keeps (fun _ _ _ he => judgePair_grounds config he) reads hps

end Run

end Property

end CssMinify
