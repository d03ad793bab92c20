import CssMinify.Proofs.Effect.Engine

/-! What engines grant. When one declaration gives way to another, what they have in common is compared; but if
the one that stays sets more than that, or can be split while the other cannot, an engine may honour the one
that goes and not the one that stays. A verdict on two declarations is safe for an engine of which this is not
true. -/

namespace CssMinify

/-- Does `d` set only what `e` sets too, so that it could give way to `e` although `e` sets more, or although
only `e` can be split? -/
def Declaration.isComparedInPart (profile : Profile) (d e : Declaration) : Bool :=
  let p := Property.wrap profile d 0
  let q := Property.wrap profile e 0
  d.hack == e.hack && q.isAnalysed && p.leafNames.all q.leafNames.contains
    && (d.name != e.name || !p.isAnalysed)

namespace Engine

variable {profile : Profile} (engine : Engine profile)

/-- Whatever is honoured among these declarations is not compared with parts only of one that is not. -/
def Trusts (ds : List Declaration) : Prop :=
  ∀ d ∈ ds, ∀ e ∈ ds, d.isComparedInPart profile e = true → engine.honours d = true → engine.honours e = true

/-- What has to hold for a verdict: the one that stays is honoured if the one that goes is. -/
def Grants (e r : Property) : Property.Verdict → Prop
  | .keepBoth => True
  | .dropEarlier => engine.honours e.toDeclaration = true → engine.honours r.toDeclaration = true
  | .dropLater | .foldInto _ => engine.honours r.toDeclaration = true → engine.honours e.toDeclaration = true

end Engine

namespace Property

variable {profile : Profile} {p : Property}

theorem isComparedInPart_iff {q : Property} (hp : Faithful profile p) (hq : Faithful profile q) :
    p.toDeclaration.isComparedInPart profile q.toDeclaration = true ↔
      p.hack = q.hack ∧ q.isAnalysed = true ∧ p.leafNames ⊆ q.leafNames ∧
        (p.name ≠ q.name ∨ p.isAnalysed = false) := by
  have hleaf (r : Property) : (wrap profile r.toDeclaration 0).leafNames = r.leafNames :=
    leafNames_congr (by rw [toDeclaration_wrap])
  simp only [Declaration.isComparedInPart, hp.isAnalysed_wrap, hq.isAnalysed_wrap, hleaf, Bool.and_eq_true,
    beq_iff_eq, List.all_eq_true, List.contains_iff_mem, Bool.or_eq_true, bne_iff_ne, Bool.not_eq_true',
    and_assoc]
  rfl

end Property

namespace Engine

open Property

variable {profile : Profile} (engine : Engine profile) {p q : Property}

/-- Two declarations of one property, not both of which can be split. -/
theorem honours_of_canOverride (hp : Faithful profile p) (hq : Faithful profile q) (hname : p.name = q.name)
    (hhack : p.hack = q.hack) (hover : canOverride profile p.name p.value q.value = true)
    (hboth : (p.isAnalysed && q.isAnalysed) = false)
    (htrust : p.toDeclaration.isComparedInPart profile q.toDeclaration = true →
      engine.honours p.toDeclaration = true → engine.honours q.toDeclaration = true)
    (h : engine.honours p.toDeclaration = true) : engine.honours q.toDeclaration = true := by
  cases hpa : p.isAnalysed with
  | false =>
      cases hqa : q.isAnalysed with
      | false =>
          rw [honours_of_not_isAnalysed engine hp hpa] at h
          rw [honours_of_not_isAnalysed engine hq hqa, ← hname]
          exact engine.closed hover h
      | true =>
          refine htrust ((isComparedInPart_iff hp hq).mpr ⟨hhack, hqa, ?_, .inr hpa⟩) h
          rw [leafNames_congr hname]
          exact fun _ hl => hl
  | true =>
      -- A value that cannot be split does not replace one that can.
      have hqa : q.isAnalysed = false := by simpa [hpa] using hboth
      rw [isAnalysed_eq, Bool.and_eq_true, Bool.not_eq_true'] at hpa
      have hqshort : q.isShorthand = true := by rw [isShorthand, ← hname]; exact hpa.1
      rw [isAnalysed_eq, hqshort, Bool.true_and, Bool.not_eq_false'] at hqa
      have hleft := hp.isNone_longhandsWithin? hpa.1
      have hright := hq.isNone_longhandsWithin? hqshort
      rw [hpa.2] at hleft
      rw [hqa, Option.isNone_iff_eq_none, ← hname] at hright
      rw [canOverride_of_split hpa.1 (by simpa using hleft) hright] at hover
      cases hover

section Verdicts

variable {config : Config} (engine : Engine config.profile) {e r : Property} {mid : List Property}

/-- Of two that set the same, one goes if it may be replaced by the other. -/
theorem grants_drop (replaceable : Bool → Bool)
    (hlater : replaceable true = true → engine.honours r.toDeclaration = true →
      engine.honours e.toDeclaration = true)
    (hearlier : replaceable false = true → engine.honours e.toDeclaration = true →
      engine.honours r.toDeclaration = true) :
    engine.Grants e r (if e.important && !r.important then
        if replaceable true then Verdict.dropLater else .keepBoth
      else if replaceable false then .dropEarlier
      else .keepBoth) := by
  split
  · split
    · next h => exact hlater h
    · trivial
  · split
    · next h => exact hearlier h
    · trivial

theorem grants_judgeShorthands (he : Faithful config.profile e) (hr : Faithful config.profile r)
    (hname : e.name = r.name) (hea : e.isAnalysed = true) (hra : r.isAnalysed = true) :
    engine.Grants e r (judgeShorthands config.profile e r) := by
  rw [isAnalysed_eq, Bool.and_eq_true, Bool.not_eq_true'] at hea hra
  have hereg := he.regular hea.2
  have hrreg := hr.regular hra.2
  rw [judgeShorthands]
  split
  · trivial
  · apply engine.grants_drop fun later =>
      if later then leavesReplaceable config.profile r e else leavesReplaceable config.profile e r
    · intro hover
      rw [honours_iff_leaves engine hr hra.2, honours_iff_leaves engine he hea.2]
      exact engine.understands_of_leavesReplaceable hrreg hereg hname.symm hover
    · intro hover
      rw [honours_iff_leaves engine hr hra.2, honours_iff_leaves engine he hea.2]
      exact engine.understands_of_leavesReplaceable hereg hrreg hname hover

/-- The engine does not honour one of the two without the other where they are compared in part. -/
def TrustsPair (e r : Property) : Prop :=
  (e.toDeclaration.isComparedInPart config.profile r.toDeclaration = true →
      engine.honours e.toDeclaration = true → engine.honours r.toDeclaration = true) ∧
    (r.toDeclaration.isComparedInPart config.profile e.toDeclaration = true →
      engine.honours r.toDeclaration = true → engine.honours e.toDeclaration = true)

theorem grants_judgeSame (he : Faithful config.profile e) (hr : Faithful config.profile r)
    (hname : e.name = r.name) (hhack : e.hack = r.hack) (hboth : (e.isAnalysed && r.isAnalysed) = false)
    (htrust : engine.TrustsPair e r) : engine.Grants e r (judgeSame config.profile e r) := by
  apply engine.grants_drop fun later =>
    if later then canOverride config.profile e.name r.value e.value
    else canOverride config.profile e.name e.value r.value
  · intro hover
    rw [Bool.and_comm] at hboth
    exact engine.honours_of_canOverride hr he hname.symm hhack.symm (hname ▸ hover) hboth htrust.2
  · intro hover
    exact engine.honours_of_canOverride he hr hname hhack hover hboth htrust.1

theorem grants_judgeCovered (h : engine.honours e.toDeclaration = true → engine.honours r.toDeclaration = true) :
    engine.Grants e r (judgeCovered config.profile e r) := by
  simp only [judgeCovered]
  split
  · trivial
  split
  · trivial
  split
  · trivial
  split
  · exact h
  · trivial

theorem grants_judgeComponent
    (h : engine.honours r.toDeclaration = true → engine.honours e.toDeclaration = true) :
    engine.Grants e r (judgeComponent config.profile e mid r) := by
  rw [judgeComponent]
  split
  · trivial
  split
  · split
    · split
      · exact h
      · trivial
    · trivial
  split
  · trivial
  split
  · trivial
  split
  · exact h
  · trivial

/-- An engine that trusts a pair grants what becomes of it. -/
theorem grants_judgePair (he : Faithful config.profile e) (hr : Faithful config.profile r)
    (htrust : engine.TrustsPair e r) : engine.Grants e r (judgePair config e mid r) := by
  simp only [judgePair]
  split
  · trivial
  next hguard =>
  have hhack : e.hack = r.hack := by
    simp only [Bool.or_eq_true, bne_iff_ne, not_or, ne_eq, not_not] at hguard
    exact hguard.1.1.1
  split
  · next hname =>
      rw [beq_iff_eq] at hname
      split
      · next hboth =>
          rw [Bool.and_eq_true] at hboth
          exact engine.grants_judgeShorthands he hr hname hboth.1 hboth.2
      · next hboth => exact engine.grants_judgeSame he hr hname hhack (by simpa using hboth) htrust
  next hname =>
  rw [beq_iff_eq] at hname
  split
  · next hcovers =>
      rw [Bool.and_eq_true] at hcovers
      apply engine.grants_judgeCovered
      apply htrust.1
      exact (isComparedInPart_iff he hr).mpr
        ⟨hhack, hcovers.1, leafNames_subset_of_covers hcovers.2, .inl hname⟩
  split
  · next hcomponent =>
      rw [Bool.and_eq_true] at hcomponent
      obtain ⟨c, hfind⟩ := Option.isSome_iff_exists.mp hcomponent.2
      have hreg := he.regular (isOpaque_of_components_ne_nil (components_ne_nil_of_find? hfind))
      apply engine.grants_judgeComponent
      apply htrust.2
      exact (isComparedInPart_iff hr he).mpr
        ⟨hhack.symm, hcomponent.1, leafNames_subset_of_find? hreg hfind, .inl (Ne.symm hname)⟩
  · trivial

end Verdicts

section Safe

variable {e r m : Property} {mid : List Property} {verdict : Verdict}

/-- A longhand that is folded into a shorthand may replace the component of that name. -/
theorem exists_of_folded? (h : folded? profile e r = some m) :
    ∃ c, e.find? r.name = some c ∧ leavesReplaceable profile c r = true := by
  simp only [folded?, Option.bind_eq_bind, Option.bind_eq_some_iff] at h
  obtain ⟨c, hfind, d, -, h⟩ := h
  split at h
  case isFalse => cases h
  next hguard =>
  rw [Bool.and_eq_true] at hguard
  exact ⟨c, hfind, hguard.2⟩

theorem honours_of_folded? (he : Faithful profile e) (hr : Faithful profile r) (hknown : r.isOpaque = false)
    (h : folded? profile e r = some m) (hhonours : engine.honours e.toDeclaration = true) :
    engine.honours r.toDeclaration = true := by
  obtain ⟨c, hfind, hover⟩ := exists_of_folded? h
  have heknown : e.isOpaque = false := isOpaque_of_components_ne_nil (components_ne_nil_of_find? hfind)
  obtain ⟨hc, hcname, before, after, hleaves⟩ := find?_regular (he.regular heknown) hfind
  rw [honours_iff_leaves engine he heknown] at hhonours
  rw [honours_iff_leaves engine hr hknown]
  apply engine.understands_of_leavesReplaceable hc (hr.regular hknown) hcname hover
  intro leaf hleaf
  apply hhonours
  rw [hleaves]
  simp [hleaf]

/-- What a shorthand becomes is honoured as it was, if the longhand that goes is not honoured without it. -/
theorem honours_merged (he : Faithful profile e) (hr : Faithful profile r) (hknown : r.isOpaque = false)
    (h : folded? profile e r = some m)
    (hgrants : engine.honours r.toDeclaration = true → engine.honours e.toDeclaration = true) :
    engine.honours m.toDeclaration = engine.honours e.toDeclaration := by
  have hm := folded_of_folded? he hr hknown h
  obtain ⟨c, hfind, -⟩ := exists_of_folded? h
  have heknown : e.isOpaque = false := isOpaque_of_components_ne_nil (components_ne_nil_of_find? hfind)
  -- What was put together contains all that the longhand gives, and nothing but what the two give.
  rw [Bool.eq_iff_iff]
  constructor
  · intro hmerged
    apply hgrants
    rw [honours_iff_settings engine hm.faithful hm.known] at hmerged
    rw [honours_iff_settings engine hr hknown]
    intro l v hset
    exact hmerged l v (by rw [hm.settings, hset, Option.some_or])
  · intro hhonours
    have hhonours' := engine.honours_of_folded? he hr hknown h hhonours
    rw [honours_iff_settings engine he heknown] at hhonours
    rw [honours_iff_settings engine hr hknown] at hhonours'
    rw [honours_iff_settings engine hm.faithful hm.known]
    intro l v hset
    rw [hm.settings, Option.or_eq_some_iff] at hset
    rcases hset with hset | ⟨-, hset⟩
    · exact hhonours' l v hset
    · exact hhonours l v hset

/-- A verdict that an engine grants is safe for it, whatever hack it reads. -/
theorem safe_of_grants (h : verdict.Grounds profile e mid r) (he : Faithful profile e)
    (hr : Faithful profile r) (hlive : e.unused = false) (hgrants : engine.Grants e r verdict) (hack : Hack) :
    verdict.Safe profile (engine.reads hack) e mid r := by
  have hreads {d d' : Declaration} (hhack : d.hack = d'.hack)
      (hhonours : engine.honours d = true → engine.honours d' = true) :
      engine.reads hack d = true → engine.reads hack d' = true := by
    rw [reads, reads, hhack, Bool.and_eq_true, Bool.and_eq_true]
    exact And.imp_right hhonours
  cases h with
  | keepBoth => exact .keepBoth
  | dropEarlier hhack himportant hleaf => exact .dropEarlier (hreads hhack hgrants) himportant hleaf
  | dropLater hhack hei hri hleaf => exact .dropLater (hreads hhack.symm hgrants) hei hri hleaf
  | @foldInto m hhack himportant hbetween hknown hfolded =>
      have hm := folded_of_folded? he hr hknown hfolded
      have hback := engine.honours_of_folded? he hr hknown hfolded
      have hmerged := engine.honours_merged he hr hknown hfolded hgrants
      refine .foldInto ?_ ?_ himportant hm.important (by rw [hm.unused, hlive]) hbetween ?_
      · rw [Bool.eq_iff_iff]
        exact ⟨hreads hhack.symm hgrants, hreads hhack hback⟩
      · rw [reads, reads, hm.hack, hmerged]
      · intro l
        rw [hm.faithful.settings, hr.settings, he.settings, hm.settings]

end Safe

end Engine

end CssMinify
