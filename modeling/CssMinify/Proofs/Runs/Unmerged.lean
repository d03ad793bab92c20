import CssMinify.Profile.Flag
import CssMinify.Proofs.Runs.Skipping
import Mathlib.Logic.Relation

/-! Bodies under a profile that does not want longhands in shorthands. Nothing is merged then, but a longhand after
its shorthand is still folded into it. So every declaration that is left has the longhands of a declaration that was
there, or of one into which later ones were folded; and what can be folded into what is known. -/

namespace CssMinify

/-- One of them lists the other as a component. -/
def Registry.Lists (outer inner : String) : Prop := ∃ d, builtin.find? outer = some d ∧ inner ∈ d.components

/-- A component of the other at some depth. -/
abbrev Registry.Above : String → String → Prop := Relation.TransGen Lists

namespace Property

/-- What is found inside is below in the table. -/
def Tabled (p : Property) : Prop := ∀ name, (p.find? name).isSome = true → Registry.Above p.name name

theorem isSome_findAmong?_cons (name : String) (p : Property) (ps : List Property) :
    (findAmong? name (p :: ps)).isSome = (p.name == name || (p.find? name).isSome || (findAmong? name ps).isSome) := by
  rw [findAmong?]
  split
  · next h => simp [h]
  · next h => cases hp : p.find? name <;> simp [h]

theorem isSome_findAmong?_iff {name : String} {ps : List Property} :
    (findAmong? name ps).isSome = true ↔ ∃ p ∈ ps, p.name = name ∨ (p.find? name).isSome = true := by
  induction ps with
  | nil => simp [findAmong?]
  | cons p ps ih => simp [isSome_findAmong?_cons, ih]

theorem tabled_congr {p q : Property} (hname : p.name = q.name) (hcomponents : p.components = q.components)
    (h : p.Tabled) : q.Tabled := by
  intro name hq
  rw [find?_eq, ← hcomponents, ← find?_eq] at hq
  exact hname ▸ h name hq

theorem tabled_of_components {p : Property} {d : Descriptor} (hd : p.descriptor? = some d)
    (hall : ∀ c ∈ p.components, c.name ∈ d.components ∧ c.Tabled) : p.Tabled := by
  intro name h
  rw [find?_eq, isSome_findAmong?_iff] at h
  obtain ⟨c, hc, rfl | hinner⟩ := h
  · exact .single ⟨d, hd, (hall c hc).1⟩
  · exact .head ⟨d, hd, (hall c hc).1⟩ ((hall c hc).2 name hinner)

theorem tabled_of_components_eq_nil {p : Property} (h : p.components = []) : p.Tabled := by
  intro name hfind
  rw [find?_eq, h, findAmong?] at hfind
  cases hfind

theorem tabled_componentsWithin? {profile : Profile} {depth : Nat} {p : Property} {cs : List Property}
    (h : componentsWithin? profile depth p = some cs) : Tabled { p with components := cs } := by
  induction depth generalizing p cs with
  | zero => cases h
  | succ depth ih =>
      rw [componentsWithin?_succ] at h
      obtain ⟨d, hd, h⟩ := Option.bind_eq_some_iff.mp h
      split at h
      · cases h
      obtain ⟨values, -, h⟩ := Option.bind_eq_some_iff.mp h
      refine tabled_of_components hd fun c hc => ?_
      obtain ⟨part, hpart, hc⟩ := exists_of_mem_left (forall₂_of_mapM h).flip hc
      have hmem : part.1 ∈ d.components := (List.of_mem_zip hpart).1
      simp only [componentWithin?] at hc
      split at hc
      · obtain ⟨inner, hinner, rfl⟩ := Option.map_eq_some_iff.mp hc
        exact ⟨hmem, ih hinner⟩
      · cases hc
        exact ⟨hmem, tabled_of_components_eq_nil rfl⟩

theorem tabled_wrap (profile : Profile) (d : Declaration) (position : Nat) : (wrap profile d position).Tabled := by
  cases hd : Registry.builtin.isShorthand d.name with
  | false =>
      rw [wrap_of_not_isShorthand hd]
      exact tabled_of_components_eq_nil rfl
  | true =>
      rw [wrap_of_isShorthand hd]
      cases hc : components? profile (bare d position) with
      | none => exact tabled_of_components_eq_nil rfl
      | some cs => exact tabled_componentsWithin? hc

mutual

/-- What is found after a change was there before, or came with it. -/
theorem isSome_find?_of_modify? {name found : String} {r : Property} : ∀ {p p' : Property},
    p.modify? name (fun _ => r) = some p' → (p'.find? found).isSome = true →
      (p.find? found).isSome = true ∨ r.name = found ∨ (r.find? found).isSome = true
  | .mk d components unused rebuilt layered free dynamic position, p', h, hfound => by
      rw [modify?_eq] at h
      obtain ⟨components', hmodify, rfl⟩ := Option.map_eq_some_iff.mp h
      rw [find?_eq] at hfound ⊢
      exact isSome_findAmong?_of_modifyAmong? hmodify hfound

theorem isSome_findAmong?_of_modifyAmong? {name found : String} {r : Property} : ∀ {ps ps' : List Property},
    modifyAmong? name (fun _ => r) ps = some ps' → (findAmong? found ps').isSome = true →
      (findAmong? found ps).isSome = true ∨ r.name = found ∨ (r.find? found).isSome = true
  | [], ps', h, _ => by simp [modifyAmong?] at h
  | p :: ps, ps', h, hfound => by
      rw [modifyAmong?] at h
      split at h
      · cases h
        simp only [isSome_findAmong?_cons, Bool.or_eq_true, beq_iff_eq] at hfound ⊢
        tauto
      · split at h
        · next p' hmodify =>
            cases h
            obtain ⟨components, rfl⟩ := eq_of_modify? hmodify
            have hinner := @isSome_find?_of_modify? name found r _ _ hmodify
            simp only [isSome_findAmong?_cons, Bool.or_eq_true, beq_iff_eq] at hfound ⊢
            tauto
        · obtain ⟨ps'', hmodify, rfl⟩ := Option.map_eq_some_iff.mp h
          have hrest := @isSome_findAmong?_of_modifyAmong? name found r _ _ hmodify
          simp only [isSome_findAmong?_cons, Bool.or_eq_true, beq_iff_eq] at hfound ⊢
          tauto

end

mutual

theorem isSome_find?_mapComponents (change : Property → Property) (hname : ∀ q, (change q).name = q.name)
    (hcomponents : ∀ q, (change q).components = q.components) (name : String) :
    ∀ p : Property, ((change (p.mapComponents change)).find? name).isSome = (p.find? name).isSome
  | .mk d components unused rebuilt layered free dynamic position => by
      rw [find?_eq, hcomponents, mapComponents_eq, find?_eq]
      exact isSome_findAmong?_mapComponents change hname hcomponents name components

theorem isSome_findAmong?_mapComponents (change : Property → Property) (hname : ∀ q, (change q).name = q.name)
    (hcomponents : ∀ q, (change q).components = q.components) (name : String) : ∀ ps : List Property,
    (findAmong? name (ps.map fun c => change (c.mapComponents change))).isSome = (findAmong? name ps).isSome
  | [] => rfl
  | p :: ps => by
      have hp : (change (p.mapComponents change)).name = p.name := by rw [hname, mapComponents_eq]
      rw [List.map_cons, isSome_findAmong?_cons, isSome_findAmong?_cons, hp,
        isSome_find?_mapComponents change hname hcomponents name p,
        isSome_findAmong?_mapComponents change hname hcomponents name ps]

end

/-- A shorthand with something folded in keeps to the table. -/
theorem tabled_of_folded? {profile : Profile} {e r m : Property} (he : e.Tabled) (hr : r.Tabled)
    (h : folded? profile e r = some m) : Registry.Above e.name r.name ∧ m.Tabled := by
  obtain ⟨-, changed, value, hchanged, -, -, rfl⟩ := of_folded? h
  have habove : Registry.Above e.name r.name := by
    refine he r.name ?_
    rw [← isSome_modify? r.name (fun _ => belongTo e r), hchanged]
    rfl
  refine ⟨habove, ?_⟩
  obtain ⟨components, hsame⟩ := eq_of_modify? hchanged
  refine tabled_congr (p := changed) rfl rfl fun name hname => ?_
  rw [hsame]
  rcases isSome_find?_of_modify? hchanged hname with hbefore | hlonghand | hinner
  · exact he name hbefore
  · rw [name_belongTo] at hlonghand
    exact hlonghand ▸ habove
  · rw [belongTo_eq, isSome_find?_mapComponents (adopt e) (fun _ => rfl) (fun _ => rfl)] at hinner
    exact habove.trans (hr name hinner)

theorem leaves_mayFold {profile : Profile} {e r m : Property} (h : folded? profile e r = some m) :
    ∀ leaf ∈ r.leaves, isKeptOut profile leaf.name = false := by
  simp only [folded?, Option.bind_eq_bind, Option.bind_eq_some_iff] at h
  obtain ⟨component, -, d, -, h⟩ := h
  split at h
  case isFalse => cases h
  next hguard =>
  simp only [Bool.and_eq_true, List.all_eq_true] at hguard
  intro leaf hleaf
  have hfold := hguard.1.2 leaf hleaf
  rw [leafMayFold] at hfold
  split at hfold
  · simp only [Bool.and_eq_true, Bool.not_eq_true'] at hfold
    exact hfold.1.1
  · cases hfold

end Property

/-- A longhand that a run may fold into a shorthand before it, whether longhands are to be merged or not. -/
structure Declaration.MayFold (config : Config) (shorthand longhand : Declaration) : Prop where
  overrides : config.options.overrideProperties = true
  above : Registry.Above shorthand.name longhand.name
  hack : longhand.hack = shorthand.hack
  important : longhand.important = shorthand.important
  shorthand_spared : config.options.skips shorthand.name = false
  longhand_spared : config.options.skips longhand.name = false
  kept : ∀ l ∈ Registry.builtin.leafNames longhand.name, Property.isKeptOut config.profile l = false

theorem Declaration.MayFold.trans {config : Config} {a b c : Declaration} (hab : a.MayFold config b)
    (hbc : b.MayFold config c) : a.MayFold config c where
  overrides := hab.overrides
  above := hab.above.trans hbc.above
  hack := hbc.hack.trans hab.hack
  important := hbc.important.trans hab.important
  shorthand_spared := hab.shorthand_spared
  longhand_spared := hbc.longhand_spared
  kept := hbc.kept

/-- One declaration of a body with others of the body folded into it, the last one first. -/
structure Declaration.FoldedFrom (config : Config) (ds : List Declaration) (start : Declaration)
    (folded : List Declaration) (result : Declaration) : Prop where
  start_mem : start ∈ ds
  name : result.name = start.name
  hack : result.hack = start.hack
  important : result.important = start.important
  mayFold : ∀ d ∈ folded, d ∈ ds ∧ start.MayFold config d
  settings : ∀ l, result.setting? config.profile l = (folded ++ [start]).findSome? (·.setting? config.profile l)

namespace Property

/-- A property that says what it sets, after a declaration of the body with some folded in. -/
structure Traced (config : Config) (ds : List Declaration) (p : Property) : Prop where
  faithful : Faithful config.profile p
  tabled : p.Tabled
  traced : ∃ start folded, Declaration.FoldedFrom config ds start folded p.toDeclaration

variable {config : Config} {ds : List Declaration}

theorem traced_wrap {d start : Declaration} {folded : List Declaration}
    (h : Declaration.FoldedFrom config ds start folded d) (position : Nat) :
    Traced config ds (wrap config.profile d position) where
  faithful := faithful_wrap config.profile d position
  tabled := tabled_wrap config.profile d position
  traced := ⟨start, folded, by rwa [toDeclaration_wrap]⟩

/-- What may be folded by a verdict may be folded at all. -/
theorem mayFold_of_foldInto {e r m : Property} {mid : List Property} (he : Traced config ds e)
    (hr : Traced config ds r) (hoverride : config.options.overrideProperties = true)
    (h : judgePair config e mid r = .foldInto m) : e.MayFold config r.toDeclaration := by
  have hfold := foldOf_judgePair h
  have hspared : config.options.skips e.name = false ∧ config.options.skips r.name = false := by
    rw [← Bool.or_eq_false_iff, Bool.eq_false_iff, ne_eq, Bool.or_eq_true]
    intro hskips
    rw [judgePair_of_skips hskips] at h
    cases h
  have hknown : r.isOpaque = false := by
    have := hfold.known
    revert this
    cases hshort : r.isShorthand <;> simp [isAnalysed, isOpaque, hshort]
  refine ⟨hoverride, (tabled_of_folded? he.tabled hr.tabled hfold.folded).1, hfold.hack.symm, hfold.important.symm,
    hspared.1, hspared.2, fun l hl => ?_⟩
  have hmem : l ∈ r.leafNames := by
    obtain ⟨⟨d, hd⟩, -⟩ := of_folded? hfold.folded
    rw [descriptor?] at hd
    rw [Registry.leafNames, hd] at hl
    rwa [leafNames_of_descriptor? hd]
  obtain ⟨leaf, hleaf, rfl⟩ := (mem_leafNames_iff (hr.faithful.regular hknown)).mp hmem
  exact leaves_mayFold hfold.folded leaf hleaf

theorem Traced.fold {e r m : Property} {mid : List Property} (he : Traced config ds e) (hr : Traced config ds r)
    (hoverride : config.options.overrideProperties = true) (h : judgePair config e mid r = .foldInto m) :
    Traced config ds m := by
  have hmay := mayFold_of_foldInto he hr hoverride h
  have hgrounds : (judgePair config e mid r).Grounds config.profile e mid r := judgePair_grounds config he.faithful
  rw [h] at hgrounds
  cases hgrounds with
  | foldInto hhack himportant hbetween hknown hfolded =>
  have hm := folded_of_folded? he.faithful hr.faithful hknown hfolded
  obtain ⟨start, folded, hstart⟩ := he.traced
  obtain ⟨start', folded', hstart'⟩ := hr.traced
  -- Both histories run on: what was folded into the longhand goes into the shorthand with it.
  have hjoin : start.MayFold config start' := {
    overrides := hoverride
    above := hstart.name ▸ hstart'.name ▸ hmay.above
    hack := by rw [← hstart.hack, ← hstart'.hack, hmay.hack]
    important := by rw [← hstart.important, ← hstart'.important, hmay.important]
    shorthand_spared := hstart.name ▸ hmay.shorthand_spared
    longhand_spared := hstart'.name ▸ hmay.longhand_spared
    kept := hstart'.name ▸ hmay.kept }
  refine ⟨hm.faithful, (tabled_of_folded? he.tabled hr.tabled hfolded).2, start,
    (folded' ++ [start']) ++ folded, ?_⟩
  refine ⟨hstart.start_mem, hm.name.trans hstart.name, hm.hack.trans hstart.hack, hm.important.trans hstart.important,
    ?_, fun l => ?_⟩
  · simp only [List.forall_mem_append, List.forall_mem_singleton]
    exact ⟨⟨fun d hd => ⟨(hstart'.mayFold d hd).1, hjoin.trans (hstart'.mayFold d hd).2⟩,
      hstart'.start_mem, hjoin⟩,
      hstart.mayFold⟩
  · rw [hm.faithful.settings, hm.settings, ← hr.faithful.settings, ← he.faithful.settings, hstart.settings,
      hstart'.settings, List.append_assoc _ folded, @List.findSome?_append _ _ _ (folded' ++ [start'])]

theorem Traced.collapse {p : Property} (hp : Traced config ds p) : Traced config ds (p.collapse config.profile) := by
  rcases collapse_cases config.profile p with hsame | ⟨value, hcollapse, -, hne, hverifies⟩
  · rw [hsame]
    exact hp
  · have hknown : p.isOpaque = false := isOpaque_of_components_ne_nil hne
    let q : Property := { p with value, rebuilt := true }
    have hq : Faithful config.profile q :=
      faithful_of_verifies hverifies (hp.faithful.regular hknown) hp.faithful.bound hne rfl rfl
    -- What is collapsed has the same components, so it sets the same.
    have hsame (l : String) : q.setting? l = p.setting? l := by
      have hleaves : p.leaves = q.leaves := leaves_congr rfl hne
      have hknown' : q.isOpaque = false := isOpaque_of_components_ne_nil hne
      rw [setting?, setting?, hknown, hknown', if_neg Bool.false_ne_true, if_neg Bool.false_ne_true, longhands,
        longhands, hleaves]
    obtain ⟨start, folded, hstart⟩ := hp.traced
    rw [hcollapse]
    refine ⟨hq, tabled_congr (p := p) rfl rfl hp.tabled, start, folded, hstart.start_mem, hstart.name, hstart.hack,
      hstart.important, hstart.mayFold, fun l => ?_⟩
    rw [hq.settings, hsame, ← hp.faithful.settings, hstart.settings]

theorem longhands_wrap_of_isOpaque {profile : Profile} {d : Declaration} {position : Nat}
    (h : (wrap profile d position).isOpaque = true) : (wrap profile d position).longhands = [(d.name, d.value)] := by
  have hnone : (wrap profile d position).components = [] := by
    simp only [isOpaque, Bool.and_eq_true, List.isEmpty_iff] at h
    exact h.2
  rw [longhands_of_components_eq_nil hnone, toDeclaration_wrap]

/-- Pairs are known by their keys and what is found under them. -/
theorem eq_of_lookup {α β : Type} [BEq α] [LawfulBEq α] {ps qs : List (α × β)}
    (hkeys : ps.map Prod.fst = qs.map Prod.fst) (hnodup : (ps.map Prod.fst).Nodup)
    (h : ∀ a ∈ ps.map Prod.fst, ps.lookup a = qs.lookup a) : ps = qs := by
  refine List.ext_getElem (by simpa using congrArg List.length hkeys) fun i hi hi' => ?_
  have hkey : (ps[i]).1 = (qs[i]).1 := by
    rw [← List.getElem_map Prod.fst (h := by simpa using hi), ← List.getElem_map Prod.fst (h := by simpa using hi')]
    exact List.getElem_of_eq hkeys _
  have hp : ps.lookup (ps[i]).1 = some (ps[i]).2 := lookup_eq_some_of_mem hnodup (List.getElem_mem hi)
  have hq : qs.lookup (qs[i]).1 = some (qs[i]).2 := lookup_eq_some_of_mem (hkeys ▸ hnodup) (List.getElem_mem hi')
  rw [h _ (List.mem_map_of_mem (List.getElem_mem hi)), hkey, hq] at hp
  exact Prod.ext hkey (Option.some.inj hp).symm

/-- Declarations of one property that give the same to every longhand have the same longhands. -/
theorem longhands_wrap_congr {profile : Profile} {d e : Declaration} (hname : d.name = e.name)
    (h : ∀ l, d.setting? profile l = e.setting? profile l) :
    (wrap profile d 0).longhands = (wrap profile e 0).longhands := by
  have hleaf : (wrap profile d 0).leafNames = (wrap profile e 0).leafNames :=
    leafNames_congr (by rw [toDeclaration_wrap, toDeclaration_wrap, hname])
  obtain ⟨l, hl⟩ := List.exists_mem_of_ne_nil _ (leafNames_ne_nil (wrap profile d 0))
  have hl' := hleaf ▸ hl
  have hsame := h l
  have hsame' := hsame.symm
  cases hd : (wrap profile d 0).isOpaque <;> cases he : (wrap profile e 0).isOpaque
  · have hkeys := map_fst_longhands (regular_wrap hd)
    refine eq_of_lookup ?_ (hkeys ▸ nodup_leafNames _) fun a _ => ?_
    · rw [hkeys, map_fst_longhands (regular_wrap he), hleaf]
    have hown := h a
    simp only [Declaration.setting?, setting?, hd, he, Bool.false_eq_true, if_false] at hown
    exact Option.map_injective (fun _ _ => Setting.own.inj) hown
  · simp [Declaration.setting?, setting?, hd, he, hl'] at hsame
  · simp [Declaration.setting?, setting?, hd, he, hl] at hsame'
  · simp [Declaration.setting?, setting?, hd, he, hl, hl'] at hsame
    rw [longhands_wrap_of_isOpaque hd, longhands_wrap_of_isOpaque he, hname, hsame.2]

end Property

namespace Body

open Property

variable {config : Config} {ds : List Declaration}

/-- A round starts from what was there and folds. -/
theorem traced_round (hmerging : config.profile.properties.merging = false) {ds' : List Declaration}
    (h : ∀ d ∈ ds', ∃ start folded, Declaration.FoldedFrom config ds start folded d) :
    ∀ d ∈ round config ds', ∃ start folded, Declaration.FoldedFrom config ds start folded d := by
  have hwrapped : ∀ p ∈ wrapAll config.profile ds', p.unused = false → Traced config ds p := by
    refine forall_wrapAll fun d hd position _ => ?_
    obtain ⟨start, folded, hstart⟩ := h d hd
    exact traced_wrap hstart position
  have hdead : ∀ p : Property, (p.unused = false → Traced config ds p) →
      ({ p with unused := true } : Property).unused = false → Traced config ds { p with unused := true } :=
    fun _ _ hlive => by cases hlive
  have hsingle : ∀ p ∈ judgeAll judgeDuplicate (wrapAll config.profile ds'),
      p.unused = false → Traced config ds p := judgeAll_forall hdead
    (fun e mid r merged _ _ _ _ h => absurd h (judgeDuplicate_ne_foldInto e mid r merged)) hwrapped
  have hjudged : ∀ p ∈ judged config ds', p.unused = false → Traced config ds p := by
    rw [judged]
    split
    · next hoverride =>
        exact judgeAll_forall hdead
          (fun e mid r merged he hr hPe hPr hm _ => (hPe he).fold (hPr hr) hoverride hm) hsingle
    · exact hsingle
  intro d hd
  rw [round_eq, mergeAll, hmerging, if_neg Bool.false_ne_true] at hd
  obtain ⟨p, hp, rfl⟩ := List.mem_map.mp hd
  obtain ⟨hp, hlive⟩ := List.mem_filter.mp hp
  rw [Bool.not_eq_true'] at hlive
  split at hp
  · obtain ⟨q, hq, rfl⟩ := List.mem_map.mp hp
    refine ((hjudged q hq ?_).collapse).traced
    rcases collapse_cases config.profile q with hsame | ⟨_, -, hlive, -⟩
    · rwa [hsame] at hlive
    · exact hlive
  · exact (hjudged p hp hlive).traced

theorem traced_settle (hmerging : config.profile.properties.merging = false) (rounds : Nat) {ds' : List Declaration}
    (h : ∀ d ∈ ds', ∃ start folded, Declaration.FoldedFrom config ds start folded d) :
    ∀ d ∈ settle (round config) rounds ds', ∃ start folded, Declaration.FoldedFrom config ds start folded d := by
  induction rounds generalizing ds' with
  | zero => exact h
  | succ rounds ih =>
      rw [settle]
      split
      · exact h
      · exact ih (traced_round hmerging h)

/-- Every declaration that is left has a history in the shortened body. -/
theorem traced_optimize (hmerging : config.profile.properties.merging = false) (ds : List Declaration) :
    ∀ d ∈ optimize config ds, ∃ start folded,
      Declaration.FoldedFrom config (ds.map (Declaration.minify config.profile)) start folded d := by
  refine traced_settle hmerging maxRounds fun d hd => ⟨d, [], hd, rfl, rfl, rfl, by simp, fun l => ?_⟩
  rw [List.nil_append, List.findSome?_singleton]

/-- Where nothing is to be merged, every declaration that is left has the longhands of one that was there, unless
others were folded into that one. -/
theorem longhands_kept_or_folded (hmerging : config.profile.properties.merging = false) (ds : List Declaration) :
    ∀ d ∈ optimize config ds, ∃ start ∈ ds.map (Declaration.minify config.profile), d.name = start.name ∧
      ((wrap config.profile d 0).longhands = (wrap config.profile start 0).longhands ∨
        ∃ folded, folded ≠ [] ∧
          Declaration.FoldedFrom config (ds.map (Declaration.minify config.profile)) start folded d) := by
  intro d hd
  obtain ⟨start, folded, h⟩ := traced_optimize hmerging ds d hd
  refine ⟨start, h.start_mem, h.name, ?_⟩
  rcases eq_or_ne folded [] with rfl | hne
  · refine .inl (longhands_wrap_congr h.name fun l => ?_)
    rw [h.settings, List.nil_append, List.findSome?_singleton]
  · exact .inr ⟨folded, hne, h⟩

/-- A margin that is to be left alone keeps its longhands. -/
theorem longhands_kept_margin :
    let config : Config :=
      { profile := Profile.modern.set .merging false, options := { skipProperties := ["margin"] } }
    let margin : Declaration := { name := "margin", value := ["1px"] }
    let top : Declaration := { name := "margin-top", value := ["2px"] }
    config.profile.properties.merging = false ∧ ∀ d ∈ optimize config [margin, top], d.name = "margin" →
      (wrap config.profile d 0).longhands = (wrap config.profile margin 0).longhands := by
  intro config margin top
  have hstarts : [margin, top].map (Declaration.minify config.profile) = [margin, top] := by decide +kernel
  refine ⟨rfl, fun d hd hname => ?_⟩
  obtain ⟨start, hstart, hsame, hlonghands⟩ := longhands_kept_or_folded rfl [margin, top] d hd
  rw [hstarts] at hstart hlonghands
  rw [hname] at hsame
  have hmargin : start = margin := by
    rcases List.mem_cons.mp hstart with hstart | hstart
    · exact hstart
    · rw [List.mem_singleton.mp hstart] at hsame
      exact absurd hsame (by decide)
  rw [hmargin] at hlonghands
  rcases hlonghands with hkept | ⟨folded, hne, hfolded⟩
  · exact hkept
  · obtain ⟨r, hr⟩ := List.exists_mem_of_ne_nil folded hne
    have hspared := (hfolded.mayFold r hr).2.shorthand_spared
    exact absurd hspared (by decide)

/-- A margin of one side is folded into the margin before it, though nothing is to be merged. -/
theorem optimize_unmerged_margin :
    let config : Config := { profile := Profile.modern.set .merging false }
    let ds : List Declaration := [{ name := "margin", value := ["1px"] }, { name := "margin-top", value := ["2px"] }]
    config.profile.properties.merging = false ∧
      optimize config ds = [{ name := "margin", value := ["2px", "1px", "1px"] }] ∧
      ∀ d ∈ optimize config ds, ∀ start ∈ ds.map (Declaration.minify config.profile), d.name = start.name →
        (wrap config.profile d 0).longhands ≠ (wrap config.profile start 0).longhands := by
  decide +kernel

end Body

end CssMinify
