import CssMinify.Proofs.Effect.Granting

/-! Declarations as fallbacks. An earlier declaration may be there for engines that do not honour a later one.
Engines that trust the declarations of a body see no difference when these have been compared with each other;
and of two declarations alone just those see none that grant what becomes of them. -/

namespace CssMinify

namespace Engine

open Property

section Run

variable {config : Config} (engine : Engine config.profile)

/-- Declarations that an engine cannot tell apart where one gives way to another. -/
structure Alike (d d' : Declaration) : Prop where
  name : d.name = d'.name
  hack : d.hack = d'.hack
  analysed : (wrap config.profile d 0).isAnalysed = (wrap config.profile d' 0).isAnalysed
  honours : engine.honours d = engine.honours d'

variable {engine}

theorem Alike.refl (d : Declaration) : engine.Alike d d := ⟨rfl, rfl, rfl, rfl⟩

theorem Trusts.of_alike {ds ds' : List Declaration} (h : engine.Trusts ds)
    (halike : ∀ d' ∈ ds', ∃ d ∈ ds, engine.Alike d' d) : engine.Trusts ds' := by
  intro d' hd' e' he' hpart hhonours
  obtain ⟨d, hd, hdd⟩ := halike d' hd'
  obtain ⟨e, he, hee⟩ := halike e' he'
  have hleaf {a b : Declaration} (hab : a.name = b.name) :
      (wrap config.profile a 0).leafNames = (wrap config.profile b 0).leafNames :=
    leafNames_congr (by rw [toDeclaration_wrap, toDeclaration_wrap, hab])
  have hpart' : d.isComparedInPart config.profile e = true := by
    rw [← hpart]
    simp only [Declaration.isComparedInPart, hdd.name, hdd.hack, hdd.analysed, hee.name, hee.hack, hee.analysed,
      hleaf hdd.name, hleaf hee.name]
  rw [hee.honours]
  exact h d hd e he hpart' (hdd.honours ▸ hhonours)

theorem mem_unwrapAll {ps : List Property} {d : Declaration} :
    d ∈ unwrapAll ps ↔ ∃ p ∈ ps, p.unused = false ∧ p.toDeclaration = d := by
  simp [unwrapAll, and_assoc]

variable {e r : Property} {mid : List Property} {verdict : Verdict}

theorem alike_merged {m : Property} (he : Faithful config.profile e) (hr : Faithful config.profile r)
    (hknown : r.isOpaque = false) (h : folded? config.profile e r = some m)
    (hgrants : engine.honours r.toDeclaration = true → engine.honours e.toDeclaration = true) :
    engine.Alike m.toDeclaration e.toDeclaration := by
  have hm := folded_of_folded? he hr hknown h
  obtain ⟨c, hfind, -⟩ := exists_of_folded? h
  have heknown := isOpaque_of_components_ne_nil (components_ne_nil_of_find? hfind)
  refine ⟨hm.name, hm.hack, ?_, engine.honours_merged he hr hknown h hgrants⟩
  rw [hm.faithful.isAnalysed_wrap, he.isAnalysed_wrap, isAnalysed_eq, isAnalysed_eq, hm.known, heknown,
    isShorthand, isShorthand, hm.name]

/-- What is left after a verdict was there before, as far as an engine can tell that grants it. -/
theorem exists_alike (h : verdict.Grounds config.profile e mid r) (he : Faithful config.profile e)
    (hr : Faithful config.profile r) (hlive : e.unused = false)
    (hgrants : engine.Grants e r verdict) (pre post : List Property) {d : Declaration}
    (hd : d ∈ unwrapAll (pre ++ (verdict.outcome e r).1 :: (mid ++ (verdict.outcome e r).2 :: post))) :
    ∃ d' ∈ unwrapAll (pre ++ e :: (mid ++ r :: post)), engine.Alike d d' := by
  obtain ⟨p, hp, hplive, rfl⟩ := mem_unwrapAll.mp hd
  have hold (hmem : p ∈ pre ++ e :: (mid ++ r :: post)) :
      ∃ d' ∈ unwrapAll (pre ++ e :: (mid ++ r :: post)), engine.Alike p.toDeclaration d' :=
    ⟨_, mem_unwrapAll.mpr ⟨p, hmem, hplive, rfl⟩, .refl _⟩
  simp only [List.mem_append, List.mem_cons] at hp
  rcases hp with hp | rfl | hp | rfl | hp
  · exact hold (by simp [hp])
  · cases h with
    | keepBoth | dropLater => exact hold (by simp [Verdict.outcome])
    | dropEarlier => cases hplive
    | @foldInto m hhack himportant hbetween hknown hfolded =>
        exact ⟨e.toDeclaration, mem_unwrapAll.mpr ⟨e, by simp, hlive, rfl⟩,
          alike_merged he hr hknown hfolded hgrants⟩
  · exact hold (by simp [hp])
  · cases h with
    | keepBoth | dropEarlier => exact hold (by simp [Verdict.outcome])
    | dropLater | foldInto => cases hplive
  · exact hold (by simp [hp])

theorem Trusts.pair {ps : List Property} (h : engine.Trusts (unwrapAll ps)) (he : e ∈ ps) (hr : r ∈ ps)
    (hlive : e.unused = false) (hrlive : r.unused = false) : engine.TrustsPair e r := by
  have hmem {p : Property} (hp : p ∈ ps) (hp' : p.unused = false) : p.toDeclaration ∈ unwrapAll ps :=
    mem_unwrapAll.mpr ⟨p, hp, hp', rfl⟩
  exact ⟨h _ (hmem he hlive) _ (hmem hr hrlive), h _ (hmem hr hrlive) _ (hmem he hlive)⟩

/-- Comparing all the pairs keeps the winner of every longhand for an engine that trusts the body. -/
theorem winner_overrideAll (hack : Hack) {ps : List Property} (hps : AllFaithful config.profile ps)
    (htrusts : engine.Trusts (unwrapAll ps)) (l : String) :
    Claim.winner ((overrideAll config ps).map (claim config.profile (engine.reads hack) l))
      = Claim.winner (ps.map (claim config.profile (engine.reads hack) l)) := by
  let keeps (qs : List Property) : Prop := AllFaithful config.profile qs ∧ engine.Trusts (unwrapAll qs) ∧
    Claim.winner (qs.map (claim config.profile (engine.reads hack) l))
      = Claim.winner (ps.map (claim config.profile (engine.reads hack) l))
  have hrun : keeps (judgeAll (judgePair config) ps) := by
    refine judgeAll_induction ?_ ⟨hps, htrusts, rfl⟩
    intro pre e mid r post he hr ⟨hall, htrusts, hwinner⟩
    have hef := hall e (by simp) he
    have hrf := hall r (by simp) hr
    have hgrounds : (judgePair config e mid r).Grounds config.profile e mid r := judgePair_grounds config hef
    have hgrants : engine.Grants e r (judgePair config e mid r) :=
      engine.grants_judgePair hef hrf (htrusts.pair (by simp) (by simp) he hr)
    -- Nothing new is left for the engine to distrust.
    refine ⟨hall.outcome hgrounds he hr, htrusts.of_alike ?_, ?_⟩
    · intro d hd
      exact exists_alike hgrounds hef hrf he hgrants pre post hd
    · rw [winner_outcome (engine.safe_of_grants hgrounds hef hrf he hgrants hack) he hr, hwinner]
  exact hrun.2.2

end Run

end Engine

namespace Body

/-- A longhand gets something just when something that is read sets it. -/
theorem isSome_effective?_iff {profile : Profile} {reads : Declaration → Bool} {ds : List Declaration}
    {longhand : String} :
    (effective? profile reads ds longhand).isSome = true ↔
      ∃ d ∈ ds, reads d = true ∧ (d.setting? profile longhand).isSome = true := by
  have hlast (es : List Declaration) : (lastSetting? profile es longhand).isSome = true ↔
      ∃ d ∈ es, (d.setting? profile longhand).isSome = true := by
    rw [lastSetting?, List.getLast?_isSome, ← List.isEmpty_eq_false_iff]
    simp [Option.isSome_iff_ne_none]
  simp only [effective?, Option.orElse_eq_orElse, Option.orElse_eq_or, Option.isSome_or, Bool.or_eq_true, hlast,
    List.mem_filter]
  constructor
  · rintro (⟨d, ⟨⟨hd, hread⟩, -⟩, hset⟩ | ⟨d, ⟨⟨hd, hread⟩, -⟩, hset⟩) <;> exact ⟨d, hd, hread, hset⟩
  · rintro ⟨d, hd, hread, hset⟩
    cases himportant : d.important with
    | true => exact .inl ⟨d, ⟨⟨hd, hread⟩, himportant⟩, hset⟩
    | false => exact .inr ⟨d, ⟨⟨hd, hread⟩, by rw [himportant]; rfl⟩, hset⟩

end Body

namespace Property

/-- Two declarations are compared once. -/
theorem overrideAll_pair (config : Config) (d e : Declaration) :
    let p := wrap config.profile d 0
    let q := wrap config.profile e 1
    overrideAll config (wrapAll config.profile [d, e])
      = [((judgePair config p [] q).outcome p q).1, ((judgePair config p [] q).outcome p q).2] := by
  intro p q
  have hp : p.unused = false := unused_wrap config.profile d 0
  have hq : q.unused = false := unused_wrap config.profile e 1
  have hpairs : backwardPairs 2 = [(0, 1)] := by decide
  have hwrap : wrapAll config.profile [d, e] = [p, q] := rfl
  rw [hwrap, overrideAll, judgeAll]
  simp only [List.length_cons, List.length_nil, Nat.reduceAdd, hpairs, List.foldl_cons, List.foldl_nil]
  simp [judgeAt, hp, hq]
  cases judgePair config p [] q <;> rfl

/-- Only what has another name is folded into a shorthand. -/
theorem name_ne_of_foldInto {config : Config} {e r m : Property} {mid : List Property}
    (h : judgePair config e mid r = .foldInto m) : e.name ≠ r.name := by
  intro hname
  have hdrop (important replaceable replaceable' : Bool) :
      (if important then (if replaceable then Verdict.dropLater else .keepBoth)
        else if replaceable' then .dropEarlier else .keepBoth) ≠ .foldInto m := by
    cases important <;> cases replaceable <;> cases replaceable' <;> simp
  simp only [judgePair, beq_iff_eq.mpr hname, if_true, judgeShorthands, judgeSame] at h
  split at h
  · cases h
  split at h
  · split at h
    · cases h
    · exact hdrop _ _ _ h
  · exact hdrop _ _ _ h

/-- A shorthand sets more than any other property that sets only what it sets. -/
theorem not_leafNames_subset {e r : Property} (hshort : e.isShorthand = true) (hname : e.name ≠ r.name)
    (hsub : r.leafNames ⊆ e.leafNames) : ¬e.leafNames ⊆ r.leafNames := by
  intro hback
  cases hr : r.isShorthand with
  | false =>
      rw [leafNames_of_not_isShorthand hr] at hback
      have hle := List.Nodup.length_le_of_subset (nodup_leafNames e) hback
      have htwo := two_le_length_leafNames hshort
      rw [List.length_singleton] at hle
      omega
  | true =>
      obtain ⟨a, ha, had⟩ := Registry.exists_mem_shorthands hshort
      obtain ⟨b, hb, hbd⟩ := Registry.exists_mem_shorthands hr
      rw [leafNames_of_descriptor? (p := e) had, leafNames_of_descriptor? (p := r) hbd] at hsub hback
      have hsame := Registry.name_eq_of_leaves a ha b hb hback hsub
      rw [(Registry.mem_of_find? had).2, (Registry.mem_of_find? hbd).2] at hsame
      exact hname hsame

end Property

/-- A body after its declarations have been compared with each other. -/
def Body.overridden (config : Config) (ds : List Declaration) : List Declaration :=
  Property.unwrapAll (Property.overrideAll config (Property.wrapAll config.profile ds))

namespace Engine

open Property

variable {config : Config} (engine : Engine config.profile)

/-- What an engine gets from a body, with and without the comparison, is the same. -/
def SeesSame (config : Config) (engine : Engine config.profile) (ds : List Declaration) : Prop :=
  ∀ hack l, Body.effective? config.profile (engine.reads hack) (Body.overridden config ds) l
    = Body.effective? config.profile (engine.reads hack) ds l

theorem seesSame_of_winner {ds : List Declaration}
    (h : ∀ hack l, Claim.winner ((overrideAll config (wrapAll config.profile ds)).map
        (claim config.profile (engine.reads hack) l))
      = Claim.winner ((wrapAll config.profile ds).map (claim config.profile (engine.reads hack) l))) :
    engine.SeesSame config ds := by
  intro hack l
  rw [Body.effective?_eq, Body.effective?_eq, Body.overridden, winner_unwrapAll, h hack l, ← winner_unwrapAll,
    unwrapAll_wrapAll]

theorem seesSame_of_trusts {ds : List Declaration} (h : engine.Trusts ds) : engine.SeesSame config ds := by
  apply engine.seesSame_of_winner
  intro hack l
  apply winner_overrideAll hack (allFaithful_wrapAll config.profile ds)
  rw [unwrapAll_wrapAll]
  exact h

/-- What becomes of two declarations alone. -/
def verdictOn (config : Config) (d e : Declaration) : Verdict :=
  judgePair config (wrap config.profile d 0) [] (wrap config.profile e 1)

theorem seesSame_pair {d e : Declaration}
    (h : engine.Grants (wrap config.profile d 0) (wrap config.profile e 1) (verdictOn config d e)) :
    engine.SeesSame config [d, e] := by
  let p := wrap config.profile d 0
  let q := wrap config.profile e 1
  have hp : Faithful config.profile p := faithful_wrap config.profile d 0
  have hq : Faithful config.profile q := faithful_wrap config.profile e 1
  apply engine.seesSame_of_winner
  intro hack l
  have hsafe := engine.safe_of_grants (judgePair_grounds config hp) hp hq (unused_wrap config.profile d 0) h hack
  rw [overrideAll_pair]
  exact winner_outcome hsafe (unused_wrap config.profile d 0) (unused_wrap config.profile e 1) [] [] l

section Exact

variable {engine} {d e : Declaration} {ds : List Declaration} {l : String}

theorem exists_isSome_setting? (profile : Profile) (d : Declaration) :
    ∃ l, (d.setting? profile l).isSome = true := by
  obtain ⟨l, hl⟩ := List.exists_mem_of_ne_nil _ (leafNames_ne_nil (bare d 0))
  exact ⟨l, (Declaration.isSome_setting? profile (bare d 0) l).mpr hl⟩

/-- Where something honoured sets a longhand in one of two lists that an engine cannot tell apart, something
honoured does in the other. -/
theorem exists_honoured {as bs : List Declaration}
    (h : ∀ hack, Body.effective? config.profile (engine.reads hack) as l
      = Body.effective? config.profile (engine.reads hack) bs l)
    {x : Declaration} (hx : x ∈ as) (hhonours : engine.honours x = true)
    (hl : (x.setting? config.profile l).isSome = true) :
    ∃ y ∈ bs, engine.honours y = true ∧ (y.setting? config.profile l).isSome = true := by
  have hread : engine.reads x.hack x = true := by simp [reads, hhonours]
  have hsome := Body.isSome_effective?_iff.mpr ⟨x, hx, hread, hl⟩
  rw [h] at hsome
  obtain ⟨y, hy, hread, hset⟩ := Body.isSome_effective?_iff.mp hsome
  exact ⟨y, hy, ((Bool.and_eq_true _ _).mp hread).2, hset⟩

theorem SeesSame.exists_after (h : engine.SeesSame config ds) {x : Declaration} (hx : x ∈ ds)
    (hhonours : engine.honours x = true) :
    ∃ y ∈ Body.overridden config ds, engine.honours y = true := by
  obtain ⟨l, hl⟩ := exists_isSome_setting? config.profile x
  obtain ⟨y, hy, hhonours, -⟩ := exists_honoured (fun hack => (h hack l).symm) hx hhonours hl
  exact ⟨y, hy, hhonours⟩

/-- Which declarations are left of two. -/
theorem overridden_pair (config : Config) (d e : Declaration) :
    Body.overridden config [d, e] = match verdictOn config d e with
      | .keepBoth => [d, e]
      | .dropEarlier => [e]
      | .dropLater => [d]
      | .foldInto m => if m.unused then [] else [m.toDeclaration] := by
  have hd := unused_wrap config.profile d 0
  have he := unused_wrap config.profile e 1
  rw [Body.overridden, overrideAll_pair, verdictOn]
  cases judgePair config (wrap config.profile d 0) [] (wrap config.profile e 1) with
  | keepBoth | dropEarlier | dropLater => simp [Verdict.outcome, unwrapAll, hd, he]
  | foldInto m => cases hm : m.unused <;> simp [Verdict.outcome, unwrapAll, hm]

/-- A longhand that the shorthand sets and the one that is folded into it does not. -/
theorem exists_left_of_foldInto {m : Property} (h : verdictOn config d e = .foldInto m) :
    m.unused = false ∧ ∃ l, (m.toDeclaration.setting? config.profile l).isSome = true ∧
      (e.setting? config.profile l).isSome = false := by
  let p := wrap config.profile d 0
  let q := wrap config.profile e 1
  have hp : Faithful config.profile p := faithful_wrap config.profile d 0
  have hq : Faithful config.profile q := faithful_wrap config.profile e 1
  have hgrounds : (judgePair config p [] q).Grounds config.profile p [] q := judgePair_grounds config hp
  have hverdict : judgePair config p [] q = .foldInto m := h
  have hne := name_ne_of_foldInto hverdict
  rw [hverdict] at hgrounds
  cases hgrounds with
  | foldInto hhack himportant hbetween hknown hfolded =>
      have hm := folded_of_folded? hp hq hknown hfolded
      obtain ⟨c, hfind, -⟩ := exists_of_folded? hfolded
      have hcomponents := components_ne_nil_of_find? hfind
      have hreg := hp.regular (isOpaque_of_components_ne_nil hcomponents)
      have hshort := (regular_iff.mp hreg).2.2 hcomponents
      refine ⟨hm.unused.trans (unused_wrap config.profile d 0), ?_⟩
      have hmore := not_leafNames_subset hshort hne (leafNames_subset_of_find? hreg hfind)
      simp only [List.subset_def, not_forall] at hmore
      obtain ⟨l, hl, hlq⟩ := hmore
      refine ⟨l, (Declaration.isSome_setting? config.profile m l).mpr (leafNames_congr hm.name ▸ hl), ?_⟩
      rw [← toDeclaration_wrap config.profile e 1, ← Bool.not_eq_true, Declaration.isSome_setting?]
      exact hlq

/-- An engine to which two declarations alone look the same grants what becomes of them. -/
theorem grants_of_seesSame (h : engine.SeesSame config [d, e]) :
    engine.Grants (wrap config.profile d 0) (wrap config.profile e 1) (verdictOn config d e) := by
  have hover := overridden_pair config d e
  cases hverdict : verdictOn config d e with
  | keepBoth => trivial
  | dropEarlier =>
      rw [Grants, toDeclaration_wrap, toDeclaration_wrap]
      intro hhonours
      obtain ⟨y, hy, hhonours⟩ := h.exists_after (by simp) hhonours
      rw [hover, hverdict, List.mem_singleton] at hy
      exact hy ▸ hhonours
  | dropLater =>
      rw [Grants, toDeclaration_wrap, toDeclaration_wrap]
      intro hhonours
      obtain ⟨y, hy, hhonours⟩ := h.exists_after (by simp) hhonours
      rw [hover, hverdict, List.mem_singleton] at hy
      exact hy ▸ hhonours
  | foldInto m =>
      rw [Grants, toDeclaration_wrap, toDeclaration_wrap]
      intro hhonours
      obtain ⟨hlive, l, hl, hunset⟩ := exists_left_of_foldInto hverdict
      rw [hverdict] at hover
      simp only [hlive, Bool.false_eq_true, if_false] at hover
      -- The merged shorthand is honoured, so something honoured set before what only the shorthand sets.
      obtain ⟨y, hy, hhonours⟩ := h.exists_after (by simp) hhonours
      have hym := hy
      rw [hover, List.mem_singleton] at hym
      obtain ⟨x, hx, hhonours, hset⟩ := exists_honoured (h · l) hy hhonours (hym ▸ hl)
      rcases List.mem_pair.mp hx with rfl | rfl
      · exact hhonours
      · rw [hunset] at hset
        cases hset

end Exact

/-- An engine that trusts the declarations of a body sees no difference after they have been compared with
each other. For two declarations alone it sees none just when it grants what becomes of them. -/
theorem seesSame (config : Config) (engine : Engine config.profile) :
    (∀ ds, engine.Trusts ds → engine.SeesSame config ds) ∧
      ∀ d e, engine.SeesSame config [d, e] ↔
        engine.Grants (wrap config.profile d 0) (wrap config.profile e 1) (verdictOn config d e) := by
  constructor
  · intro ds h
    exact engine.seesSame_of_trusts h
  · intro d e
    exact ⟨grants_of_seesSame, engine.seesSame_pair⟩

/-- A longhand that such an engine understands gives way to a shorthand that it does not. -/
theorem seesSame_calc :
    let longhand : Declaration := { name := "margin-top", value := ["1px"] }
    let plain : Declaration := { name := "margin", value := ["2px"] }
    let shorthand : Declaration := { name := "margin", value := ["0", "calc(1px)"] }
    SeesSame {} (basic .modern) [longhand, plain] ∧
      ¬SeesSame {} (basic .modern) [longhand, shorthand] := by
  intro longhand plain shorthand
  have hplain : (basic .modern).honours plain = true := by decide +kernel
  have hlonghand : (basic .modern).honours longhand = true := by decide +kernel
  have hshorthand : (basic .modern).honours shorthand = false := by decide +kernel
  constructor
  · apply (seesSame {} (basic .modern)).1
    intro d hd e he _ _
    rcases List.mem_pair.mp he with rfl | rfl
    · exact hlonghand
    · exact hplain
  · rw [(seesSame {} (basic .modern)).2 longhand shorthand]
    have hverdict : verdictOn {} longhand shorthand = .dropEarlier := by
      have hdrops : (match verdictOn {} longhand shorthand with
          | .dropEarlier => true
          | _ => false) = true := by decide +kernel
      split at hdrops
      · next heq => exact heq
      · cases hdrops
    rw [hverdict, Grants, toDeclaration_wrap, toDeclaration_wrap, hlonghand, hshorthand]
    simp

end Engine

end CssMinify
