import CssMinify.Proofs.Runs.Collapsing
import Mathlib.Logic.Function.Iterate

/-! What a run does to the properties that it was asked to leave alone. No verdict on a pair concerns them, and they
never become part of a shorthand. But repeated declarations are dropped whatever their property is, four sides are
put into their shortest form, and a shorthand that is to be left alone can still be made of longhands that are not.
As long as there is none of these, the declarations of such properties come through as they are; and if only the last
is excluded, what becomes of them is known all the same. -/

namespace CssMinify

/-- A step seen through a view is a step of its own. -/
theorem Body.view_settle {α β : Type} [DecidableEq α] {f : α → α} {v : α → β} {g : β → β} {P : α → Prop}
    (hP : ∀ a, P a → P (f a)) (hview : ∀ a, P a → v (f a) = g (v a)) (rounds : Nat) :
    ∀ a, P a → v (settle f rounds a) = g^[rounds] (v a) := by
  induction rounds with
  | zero => exact fun a _ => rfl
  | succ rounds ih =>
      intro a ha
      rw [settle]
      split
      · next hfixed =>
          have hseen : g (v a) = v a := (hview a ha).symm.trans (congrArg v hfixed)
          rw [Function.iterate_fixed hseen]
      · rw [ih (f a) (hP a ha), hview a ha, Function.iterate_succ_apply]

/-- Whether a run that merges put four sides into their shortest form, which is all that it does to a declaration it
leaves alone. -/
def Declaration.tidy (config : Config) (d : Declaration) : Declaration :=
  if config.options.mergeIntoShorthands then d.collapse config.profile else d

namespace Declaration

variable {config : Config}

theorem tidy_tidy (config : Config) (d : Declaration) : (d.tidy config).tidy config = d.tidy config := by
  cases hmerge : config.options.mergeIntoShorthands with
  | false => simp [tidy, hmerge]
  | true => simp [tidy, hmerge, collapse_collapse]

/-- A declaration is left as it is unless it has fewer tokens to say the same with. -/
theorem tidy_eq_self_iff {d : Declaration} : d.tidy config = d ↔
    (config.options.mergeIntoShorthands = true → ∀ value, ¬ Property.Collapses config.profile d value) := by
  rw [tidy]
  cases config.options.mergeIntoShorthands with
  | false => simp
  | true =>
      rw [if_pos rfl]
      rcases d.collapse_cases config.profile with ⟨hnone, hsame⟩ | ⟨value, hvalue, hcollapse⟩
      · exact ⟨fun _ _ => hnone, fun _ => hsame⟩
      · rw [hcollapse]
        refine ⟨fun hsame => ?_, fun hnone => absurd hvalue (hnone rfl value)⟩
        have hlength : value.length = d.value.length := congrArg (·.value.length) hsame
        exact absurd hlength (Nat.ne_of_lt hvalue.shorter)

theorem map_tidy_eq_self_iff {ds : List Declaration} :
    ds.map (tidy config) = ds ↔ ∀ d ∈ ds, d.tidy config = d := by
  have h := List.map_inj_left (l := ds) (f := tidy config) (g := id)
  rwa [List.map_id] at h

theorem Repeats.tidy {d d' : Declaration} (h : d'.Repeats d) : (d'.tidy config).Repeats (d.tidy config) := by
  rw [Declaration.tidy, Declaration.tidy]
  split
  · exact h.collapse
  · exact h

end Declaration

namespace Body

/-- The names that may occur in a body while it is optimized: those it starts with, and the shorthands whose parts
occur and may all become part of something. -/
inductive Occurs (config : Config) (names : List String) : String → Prop
  | declared {name : String} (h : name ∈ names) : Occurs config names name
  | merged {row : Descriptor} (hrow : row ∈ Property.mergeOrder)
      (hmay : ∀ part ∈ row.components, config.options.skips part = false)
      (hparts : ∀ part ∈ row.components, Occurs config names part) : Occurs config names row.name

/-- The shorthands that merges may make in such a body. -/
def Made (config : Config) (names : List String) (name : String) : Prop :=
  ∃ row ∈ Property.mergeOrder, row.name = name ∧
    ∀ part ∈ row.components, config.options.skips part = false ∧ Occurs config names part

theorem Made.occurs {config : Config} {names : List String} {name : String} (h : Made config names name) :
    Occurs config names name := by
  obtain ⟨row, hrow, rfl, hparts⟩ := h
  exact .merged hrow (fun part hpart => (hparts part hpart).1) fun part hpart => (hparts part hpart).2

/-- Names that are to be left alone and that no merge makes. -/
structure Spared (config : Config) (names : List String) (left : String → Bool) : Prop where
  skipped : ∀ name, left name = true → config.options.skips name = true
  unmade : config.options.mergeIntoShorthands = true → config.profile.properties.merging = true →
    ∀ name, left name = true → ¬ Made config names name

end Body

namespace Property

variable {config : Config} {names : List String} {left : String → Bool}

/-- A living property that is to be left alone. -/
def isLeft (left : String → Bool) (p : Property) : Bool := !p.unused && left p.name

theorem isLeft_of_not_left {p : Property} (h : left p.name = false) : p.isLeft left = false := by
  rw [isLeft, h, Bool.and_false]

theorem filter_isLeft (left : String → Bool) (ps : List Property) :
    ps.filter (isLeft left) = (ps.filter (!·.unused)).filter (left ·.name) := by
  rw [List.filter_filter]
  refine List.filter_congr fun p _ => ?_
  rw [isLeft, Bool.and_comm]

theorem filter_left_unwrapAll (left : String → Bool) (ps : List Property) :
    (unwrapAll ps).filter (left ·.name) = (ps.filter (isLeft left)).map (·.toDeclaration) := by
  rw [unwrapAll, List.filter_map, filter_isLeft]
  rfl

/-- Retiring parts takes nothing away that is to be left alone, if no part is. -/
theorem filter_map_retire {d : Descriptor} {ps : List Property}
    (h : ∀ p ∈ ps, p.isPart d = true → left p.name = false) :
    (ps.map (retire d)).filter (isLeft left) = ps.filter (isLeft left) := by
  induction ps with
  | nil => rfl
  | cons p ps ih =>
      obtain ⟨hp, hps⟩ := List.forall_mem_cons.mp h
      rw [List.map_cons, List.filter_cons, List.filter_cons, ih hps, retire]
      split
      · next hpart =>
          have hdead : ({ p with unused := true } : Property).isLeft left = false := isLeft_of_not_left (hp hpart)
          rw [hdead, isLeft_of_not_left (hp hpart), if_neg Bool.false_ne_true, if_neg Bool.false_ne_true]
      · rfl

/-- No verdict concerns what is to be left alone. -/
theorem judgePair_of_skips {e r : Property} {mid : List Property}
    (h : config.options.skips e.name = true ∨ config.options.skips r.name = true) :
    judgePair config e mid r = .keepBoth := by
  have hskips : (config.options.skips e.name || config.options.skips r.name) = true := by simpa using h
  simp [judgePair, Bool.or_assoc, hskips]

/-- What is made of parts has the name of the shorthand or of a part. -/
theorem name_of_mem_assemble? {profile : Profile} {d : Descriptor} {parts merged : List Property} {important : Bool}
    {position : Nat} (h : assemble? profile d parts important position = some merged) {p : Property}
    (hp : p ∈ merged) : p.name = d.name ∨ ∃ q ∈ parts, p.name = q.name := by
  rcases of_assemble? h with ⟨-, rfl⟩ | ⟨-, components, value, -, -, -, rfl⟩
  · obtain rfl := List.mem_singleton.mp hp
    exact .inl rfl
  · rcases List.mem_cons.mp hp with rfl | hp
    · exact .inl rfl
    · obtain ⟨q, hq, rfl⟩ := List.mem_map.mp hp
      exact .inr ⟨q, (List.mem_filter.mp hq).1, rfl⟩

theorem not_skips_of_mayMerge {important : Bool} {p : Property} (h : p.mayMerge config important = true) :
    config.options.skips p.name = false := by
  rw [mayMerge, Bool.and_eq_true] at h
  simpa using h.2

section Skipped

variable (hskipped : ∀ name, left name = true → config.options.skips name = true)

include hskipped

theorem not_left_of_not_skips {name : String} (h : config.options.skips name = false) : left name = false := by
  cases hleft : left name with
  | false => rfl
  | true => exact absurd (hskipped name hleft) (by simp [h])

theorem filter_overrideAll (ps : List Property) : (overrideAll config ps).filter (isLeft left) = ps.filter (isLeft left) := by
  refine judgeAll_induction (P := fun qs => qs.filter (isLeft left) = ps.filter (isLeft left)) ?_ rfl
  intro pre e mid r post _ _ hqs
  by_cases hskips : config.options.skips e.name = true ∨ config.options.skips r.name = true
  · rw [judgePair_of_skips hskips]
    exact hqs
  rw [not_or, Bool.not_eq_true, Bool.not_eq_true] at hskips
  have he : left e.name = false := not_left_of_not_skips hskipped hskips.1
  have hr : left r.name = false := not_left_of_not_skips hskipped hskips.2
  have houtcome : left ((judgePair config e mid r).outcome e r).1.name = false ∧
      left ((judgePair config e mid r).outcome e r).2.name = false := by
    cases hverdict : judgePair config e mid r with
    | keepBoth => exact ⟨he, hr⟩
    | dropEarlier => exact ⟨he, hr⟩
    | dropLater => exact ⟨he, hr⟩
    | foldInto merged => exact ⟨(congrArg left (name_of_foldInto hverdict)).trans he, hr⟩
  rw [← hqs]
  simp only [List.filter_append, List.filter_cons, isLeft_of_not_left he, isLeft_of_not_left hr,
    isLeft_of_not_left houtcome.1, isLeft_of_not_left houtcome.2, Bool.false_eq_true, if_false]

/-- A merge concerns the shorthand that it makes, and otherwise nothing that is to be left alone. -/
theorem filter_mergeInto? {d : Descriptor} {ps ps' : List Property}
    (hd : Registry.builtin.find? d.name = some d) (hunmade : left d.name = false)
    (h : mergeInto? config ps d = some ps') : ps'.filter (isLeft left) = ps.filter (isLeft left) := by
  obtain ⟨before, after, hstretch, hb, -, hmay, hassemble⟩ := merged_of_mergeInto? hd h
  next stretch parts merged b important position =>
  have hparts (p : Property) (hp : p ∈ parts) : left p.name = false :=
    not_left_of_not_skips hskipped (not_skips_of_mayMerge (hmay p hp))
  have hretire : (stretch.map (retire d)).filter (isLeft left) = stretch.filter (isLeft left) :=
    filter_map_retire fun p hp hpart => hparts p ((hstretch.mem p).mpr ⟨List.mem_append_left _ hp, hpart⟩)
  have hmerged : merged.filter (isLeft left) = [] := by
    refine List.filter_eq_nil_iff.mpr fun p hp => ?_
    rw [Bool.not_eq_true]
    refine isLeft_of_not_left ?_
    rcases name_of_mem_assemble? hassemble hp with hname | ⟨q, hq, hname⟩
    · rw [hname, hunmade]
    · rw [hname, hparts q hq]
  simp only [List.filter_append, List.filter_cons, hretire, hmerged, isLeft_of_not_left (hparts b hb), List.nil_append,
    Bool.false_eq_true, if_false]

end Skipped

end Property

namespace Body

open Property

variable {config : Config} {names : List String} {left : String → Bool}

theorem made_of_mergeOf {d : Descriptor} {ps ps' parts merged : List Property} (hd : d ∈ mergeOrder)
    (h : MergeOf config d ps ps' parts merged) (hparts : ∀ p ∈ parts, Occurs config names p.name) :
    Made config names d.name := by
  obtain ⟨important, hmay⟩ := h.mayMerge
  refine ⟨d, hd, rfl, fun part hpart => ?_⟩
  rw [← h.names] at hpart
  obtain ⟨p, hp, rfl⟩ := List.mem_map.mp hpart
  exact ⟨not_skips_of_mayMerge (hmay p hp), hparts p hp⟩

theorem closed_occurs (config : Config) (names : List String) :
    Closed config fun p => Occurs config names p.name where
  dead _ h := h
  fold e mid r merged _ _ he _ h := by
    rw [name_of_foldInto h]
    exact he
  merge hd hof hparts p hp := by
    obtain ⟨important, position, hassemble⟩ := hof.assembled
    rcases name_of_mem_assemble? hassemble hp with hname | ⟨q, hq, hname⟩
    · rw [hname]
      exact (made_of_mergeOf hd hof hparts).occurs
    · rw [hname]
      exact hparts q hq
  collapse p h := by
    rcases collapse_eq_or config.profile p with hsame | ⟨value, hcollapse, -⟩
    · rwa [hsame]
    · rwa [hcollapse]

theorem Spared.filter_mergeAll (h : Spared config names left) (hmerge : config.options.mergeIntoShorthands = true)
    {ps : List Property} (hps : ∀ p ∈ ps, Occurs config names p.name) :
    (mergeAll config ps).filter (isLeft left) = ps.filter (isLeft left) := by
  cases hmerging : config.profile.properties.merging with
  | false => rw [mergeAll, hmerging, if_neg Bool.false_ne_true]
  | true =>
      have hkeeps : (∀ p ∈ mergeAll config ps, Occurs config names p.name) ∧
          (mergeAll config ps).filter (isLeft left) = ps.filter (isLeft left) := by
        refine mergeAll_keep (P := fun qs => (∀ p ∈ qs, Occurs config names p.name) ∧
          qs.filter (isLeft left) = ps.filter (isLeft left)) ?_ ⟨hps, rfl⟩
        rintro d qs qs' hd hmerged ⟨hqs, hfilter⟩
        have hfind := Registry.find?_of_mem (mem_mergeOrder hd).1
        obtain ⟨parts, merged, hof⟩ := mergeOf_mergeInto? hfind hmerged
        have hparts (p : Property) (hp : p ∈ parts) := hqs p (hof.parts_subset hp)
        have hmade := made_of_mergeOf hd hof hparts
        have hunmade : left d.name = false := by
          rw [← Bool.not_eq_true]
          exact fun hleft => h.unmade hmerge hmerging d.name hleft hmade
        refine ⟨fun p hp => ?_, (filter_mergeInto? h.skipped hfind hunmade hmerged).trans hfilter⟩
        rcases hof.forall_mem p hp with hmem | ⟨q, hq, rfl | rfl⟩
        · exact (closed_occurs config names).merge hd hof hparts p hmem
        · exact hqs p hq
        · exact hqs q hq
      exact hkeeps.2

theorem filter_judged (hskipped : ∀ name, left name = true → config.options.skips name = true)
    (ds : List Declaration) :
    (judged config ds).filter (isLeft left) = ((wrapAll config.profile ds).filter (isLeft left)).pwFilter
      fun p q => ¬ q.toDeclaration.Repeats p.toDeclaration := by
  have hsingle : (removeDuplicates (wrapAll config.profile ds)).filter (isLeft left)
      = ((wrapAll config.profile ds).filter (isLeft left)).pwFilter
        fun p q => ¬ q.toDeclaration.Repeats p.toDeclaration := by
    rw [filter_isLeft, filter_isLeft, filter_removeDuplicates]
    exact (List.pwFilter_filter (fun p q hrepeats => congrArg left (not_not.mp hrepeats).1) _).symm
  rw [judged]
  split
  · rw [filter_overrideAll hskipped, hsingle]
  · exact hsingle

/-- A round as the properties see it that are to be left alone. -/
theorem Spared.filter_round (h : Spared config names left) {ds : List Declaration}
    (hds : ∀ d ∈ ds, Occurs config names d.name) :
    (round config ds).filter (left ·.name)
      = (withoutRepeats (ds.filter (left ·.name))).map (Declaration.tidy config) := by
  have hoccurs : ∀ p ∈ judged config ds, Occurs config names p.name :=
    (closed_occurs config names).judged fun d hd position => by
      rw [toDeclaration_wrap]
      exact hds d hd
  have hjudged : ((judged config ds).filter (isLeft left)).map (·.toDeclaration)
      = withoutRepeats (ds.filter (left ·.name)) := by
    have hds' := filter_left_unwrapAll left (wrapAll config.profile ds)
    rw [unwrapAll_wrapAll] at hds'
    rw [filter_judged h.skipped, withoutRepeats, hds', List.pwFilter_map]
  rw [round_eq, filter_left_unwrapAll]
  cases hmerge : config.options.mergeIntoShorthands with
  | false =>
      have htidy : Declaration.tidy config = id := by
        funext d
        simp [Declaration.tidy, hmerge]
      rw [if_neg Bool.false_ne_true, hjudged, htidy, List.map_id]
  | true =>
      have hkeeps : isLeft left ∘ collapse config.profile = isLeft left := by
        funext p
        rcases collapse_eq_or config.profile p with hsame | ⟨value, hcollapse, -⟩
        · rw [Function.comp_apply, hsame]
        · rw [Function.comp_apply, hcollapse]
          rfl
      rw [if_pos rfl, List.filter_map, hkeeps, h.filter_mergeAll hmerge hoccurs, ← hjudged, List.map_map, List.map_map]
      have htidy : ∀ p ∈ wrapAll config.profile ds,
          (p.collapse config.profile).toDeclaration = p.toDeclaration.tidy config :=
        forall_wrapAll fun d _ position => by
          rw [Declaration.collapse_wrap, toDeclaration_wrap, Declaration.tidy, hmerge, if_pos rfl]
      refine List.map_congr_left fun p hp => htidy p ?_
      rw [filter_judged h.skipped] at hp
      exact List.mem_of_mem_filter (List.pwFilter_subset _ hp)

theorem occurs_round {ds : List Declaration} (hds : ∀ d ∈ ds, Occurs config names d.name) :
    ∀ d ∈ round config ds, Occurs config names d.name := by
  intro d hd
  obtain ⟨p, hp, -, rfl⟩ := (closed_occurs config names).round (fun d hd position => by
    rw [toDeclaration_wrap]
    exact hds d hd) d hd
  exact hp

/-- After two rounds nothing happens any more, for what is repeated stays repeated in its shortest form. -/
theorem iterate_withoutRepeats_tidy (config : Config) (rounds : Nat) (ds : List Declaration) :
    (fun ds => (withoutRepeats ds).map (Declaration.tidy config))^[rounds + 2] ds
      = withoutRepeats (ds.map (Declaration.tidy config)) := by
  have hrepeats (ds : List Declaration) : withoutRepeats ((withoutRepeats ds).map (Declaration.tidy config))
      = withoutRepeats (ds.map (Declaration.tidy config)) :=
    withoutRepeats_map_withoutRepeats (fun h => h.tidy) ds
  have htwice : (withoutRepeats (ds.map (Declaration.tidy config))).map (Declaration.tidy config)
      = withoutRepeats (ds.map (Declaration.tidy config)) := by
    refine Declaration.map_tidy_eq_self_iff.mpr fun d hd => ?_
    obtain ⟨e, -, rfl⟩ := List.mem_map.mp ((withoutRepeats_sublist _).mem hd)
    exact e.tidy_tidy config
  induction rounds with
  | zero =>
      show (withoutRepeats ((withoutRepeats ds).map (Declaration.tidy config))).map (Declaration.tidy config) = _
      rw [hrepeats, htwice]
  | succ rounds ih =>
      rw [Nat.add_right_comm, Function.iterate_succ_apply', ih, withoutRepeats_withoutRepeats, htwice]

/-- The shortened declarations of the properties that are to be left alone. -/
def shortened (config : Config) (left : String → Bool) (ds : List Declaration) : List Declaration :=
  (ds.map (Declaration.minify config.profile)).filter (left ·.name)

/-- Of the declarations that are to be left alone a run drops those that a later one repeats, and puts four sides
into their shortest form, unless it makes such a property out of others. So they come through as they are if and only
if none repeats another and none has a shorter form. -/
theorem filter_optimize {ds : List Declaration} (h : Spared config (ds.map (·.name)) left) :
    (optimize config ds).filter (left ·.name)
        = withoutRepeats ((shortened config left ds).map (Declaration.tidy config)) ∧
      ((optimize config ds).filter (left ·.name) = shortened config left ds ↔
        (shortened config left ds).Pairwise (fun earlier later => ¬ later.Repeats earlier) ∧
          (config.options.mergeIntoShorthands = true →
            ∀ d ∈ shortened config left ds, ∀ value, ¬ Property.Collapses config.profile d value)) := by
  have hstart : ∀ d ∈ ds.map (Declaration.minify config.profile), Occurs config (ds.map (·.name)) d.name := by
    rw [List.forall_mem_map]
    intro d hd
    rw [Declaration.name_minify]
    exact .declared (List.mem_map_of_mem hd)
  have hrun := view_settle (v := fun ds => ds.filter (left ·.name))
    (g := fun ds => (withoutRepeats ds).map (Declaration.tidy config))
    (P := fun ds' => ∀ d ∈ ds', Occurs config (ds.map (·.name)) d.name) (fun _ hds => occurs_round hds)
    (fun _ hds => h.filter_round hds) maxRounds (ds.map (Declaration.minify config.profile)) hstart
  have hleaves : (optimize config ds).filter (left ·.name)
      = withoutRepeats ((shortened config left ds).map (Declaration.tidy config)) :=
    hrun.trans (iterate_withoutRepeats_tidy config 2 _)
  refine ⟨hleaves, ?_⟩
  rw [hleaves]
  constructor
  · intro hsame
    -- Nothing was dropped, so nothing was repeated.
    have hall : withoutRepeats ((shortened config left ds).map (Declaration.tidy config))
        = (shortened config left ds).map (Declaration.tidy config) := by
      refine (withoutRepeats_sublist _).eq_of_length ?_
      rw [hsame, List.length_map]
    have hmap := hall.symm.trans hsame
    rw [hmap, withoutRepeats_eq_self_iff] at hall
    have htidy := Declaration.map_tidy_eq_self_iff.mp hmap
    exact ⟨hall, fun hmerge d hd => Declaration.tidy_eq_self_iff.mp (htidy d hd) hmerge⟩
  · rintro ⟨hrepeats, hshortest⟩
    have htidy : (shortened config left ds).map (Declaration.tidy config) = shortened config left ds :=
      Declaration.map_tidy_eq_self_iff.mpr fun d hd =>
        Declaration.tidy_eq_self_iff.mpr fun hmerge => hshortest hmerge d hd
    rw [htidy, withoutRepeats_eq_self_iff.mpr hrepeats]

/-- A body without a declaration of the top margin does not get a margin, so margins that are to be left alone come
through but for the repeated one. -/
theorem filter_optimize_margin :
    let config : Config := { options := { skipProperties := ["margin"] } }
    let margin : Declaration := { name := "margin", value := ["1px", "2px"] }
    let ds : List Declaration := [margin, { name := "margin-left", value := ["3px"] }, { margin with important := true },
      margin]
    Spared config (ds.map (·.name)) (· == "margin") ∧
      (optimize config ds).filter (·.name == "margin") = [{ margin with important := true }, margin] := by
  intro config margin ds
  have hspared : Spared config (ds.map (·.name)) (· == "margin") := by
    refine ⟨fun name h => by simpa [Options.skips, config] using h, ?_⟩
    rintro - - name h ⟨row, hrow, hname, hparts⟩
    have hrows : ∀ row ∈ Property.mergeOrder,
        (row.name = "margin" → "margin-top" ∈ row.components) ∧ row.name ≠ "margin-top" := by
      decide +kernel
    obtain ⟨-, hoccurs⟩ := hparts _ ((hrows row hrow).1 (hname.trans (beq_iff_eq.mp h)))
    generalize hpart : "margin-top" = part at hoccurs
    cases hoccurs with
    | declared hmem =>
        subst hpart
        revert hmem
        decide
    | merged hrow' => exact (hrows _ hrow').2 hpart.symm
  exact ⟨hspared, (filter_optimize hspared).1.trans (by decide +kernel)⟩

/-- Margins that are to be left alone are put into their shortest form, are dropped if they are repeated, and are made
of longhands. -/
theorem optimize_skipped_margin :
    let config : Config := { options := { skipProperties := ["margin"] } }
    let left := config.options.skips
    let margin (value : Value) : Declaration := { name := "margin", value }
    let sides : List Declaration := ["margin-top", "margin-right", "margin-bottom", "margin-left"].map fun name =>
      { name, value := ["1px"] }
    ∀ ds ∈ [[margin ["1px", "1px", "1px", "1px"]], [margin ["1px"], margin ["1px"]], sides],
      optimize config ds = [margin ["1px"]] ∧ (optimize config ds).filter (left ·.name) ≠ shortened config left ds := by
  decide +kernel

end Body

end CssMinify
