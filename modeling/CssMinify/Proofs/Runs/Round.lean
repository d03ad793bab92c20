import CssMinify.Proofs.Effect.Body
import CssMinify.Proofs.Size.Measures
import Mathlib.Order.Nat

/-! A round over a body, taken apart. Verdicts on pairs kill a declaration or fold one into another; a merge
puts a shorthand in the place of its parts. So what a fold and a merge take off, the round takes off, whatever
is measured; and what is true of all the properties at first stays true of them if folds, merges and collapses
keep it. -/

namespace CssMinify

/-- Left as it was, or made lighter. -/
def Lightened {α β : Type} [Preorder β] (measure : α → β) (new old : α) : Prop := new = old ∨ measure new < measure old

theorem Lightened.trans {α β : Type} [Preorder β] {measure : α → β} {new middle old : α}
    (h : Lightened measure new middle) (h' : Lightened measure middle old) : Lightened measure new old := by
  rcases h with rfl | h
  · exact h'
  · rcases h' with rfl | h'
    · exact .inr h
    · exact .inr (h.trans h')

namespace Registry

theorem nodup_components {d : Descriptor} (hd : d ∈ builtin.descriptors) : d.components.Nodup := by
  have hrows : ∀ d ∈ builtin.descriptors, d.components.Nodup := by decide +kernel
  exact hrows d hd

end Registry

namespace Property

/-- The total over the properties that are alive. -/
def liveTotal (measure : Property → Nat) (ps : List Property) : Nat := total measure (ps.filter (!·.unused))

section LiveTotal

variable {measure : Property → Nat}

theorem total_unwrapAll (size : Declaration → Nat) (ps : List Property) :
    total size (unwrapAll ps) = liveTotal (fun p => size p.toDeclaration) ps := by
  rw [unwrapAll, total_map]
  rfl

theorem unwrapAll_cons (p : Property) (ps : List Property) :
    unwrapAll (p :: ps) = if p.unused then unwrapAll ps else p.toDeclaration :: unwrapAll ps := by
  cases hp : p.unused <;> simp [unwrapAll, hp]

theorem liveTotal_append (ps qs : List Property) :
    liveTotal measure (ps ++ qs) = liveTotal measure ps + liveTotal measure qs := by
  rw [liveTotal, List.filter_append, total_append]
  rfl

theorem liveTotal_cons (p : Property) (ps : List Property) :
    liveTotal measure (p :: ps) = liveTotal measure [p] + liveTotal measure ps :=
  liveTotal_append [p] ps

theorem liveTotal_live {p : Property} (h : p.unused = false) : liveTotal measure [p] = measure p := by
  simp [liveTotal, h, total]

theorem liveTotal_dead {p : Property} (h : p.unused = true) : liveTotal measure [p] = 0 := by
  simp [liveTotal, h, total]

theorem liveTotal_le (measure : Property → Nat) (ps : List Property) : liveTotal measure ps ≤ total measure ps :=
  total_le_of_sublist _ List.filter_sublist

end LiveTotal

section Judging

variable {judge : Property → List Property → Property → Verdict} {measure : Property → Nat}
  {P : Property → Prop}

/-- A verdict leaves a pair as it is or takes at least one of the two out. -/
theorem outcome_lighter (hpos : ∀ p, 0 < measure p) {e r : Property} {verdict : Verdict}
    (hfold : ∀ merged, verdict = .foldInto merged → measure merged < measure e + measure r)
    (he : e.unused = false) (hr : r.unused = false) :
    Lightened (fun pair : Property × Property => liveTotal measure [pair.1] + liveTotal measure [pair.2])
      (verdict.outcome e r) (e, r) := by
  have he' := hpos e
  have hr' := hpos r
  rw [Lightened, liveTotal_live he, liveTotal_live hr]
  cases verdict with
  | keepBoth => exact .inl rfl
  | dropEarlier =>
      right
      rw [Verdict.outcome, liveTotal_dead rfl, liveTotal_live hr]
      omega
  | dropLater =>
      right
      rw [Verdict.outcome, liveTotal_dead (p := { r with unused := true }) rfl, liveTotal_live he]
      omega
  | foldInto merged =>
      right
      have hle := liveTotal_le measure [merged]
      have hlt := hfold merged rfl
      simp only [total] at hle
      simp only [Verdict.outcome, liveTotal_dead]
      omega

/-- What holds of two properties holds of what a verdict makes of them, if a fold keeps it. -/
theorem outcome_forall (hdead : ∀ p, P p → P { p with unused := true }) {e r : Property} {verdict : Verdict}
    (hfold : ∀ merged, verdict = .foldInto merged → P merged) (he : P e) (hr : P r) :
    P (verdict.outcome e r).1 ∧ P (verdict.outcome e r).2 := by
  cases verdict with
  | keepBoth => exact ⟨he, hr⟩
  | dropEarlier => exact ⟨hdead e he, hr⟩
  | dropLater => exact ⟨he, hdead r hr⟩
  | foldInto merged => exact ⟨hfold merged rfl, hdead r hr⟩

theorem judgeAll_forall (hdead : ∀ p, P p → P { p with unused := true })
    (hfold : ∀ e mid r merged, e.unused = false → r.unused = false → P e → P r →
      judge e mid r = .foldInto merged → P merged) {ps : List Property}
    (hps : ∀ p ∈ ps, P p) : ∀ p ∈ judgeAll judge ps, P p := by
  refine judgeAll_induction (P := fun qs => ∀ p ∈ qs, P p) ?_ hps
  intro pre e mid r post he hr hall
  simp only [List.forall_mem_append, List.forall_mem_cons] at hall ⊢
  obtain ⟨hpre, hPe, hmid, hPr, hpost⟩ := hall
  have hout := outcome_forall hdead (fun merged => hfold e mid r merged he hr hPe hPr) hPe hPr
  exact ⟨hpre, hout.1, hmid, hout.2, hpost⟩

/-- Judging all pairs changes nothing or takes something off, if a fold does. -/
theorem judgeAll_lighter (hpos : ∀ p, 0 < measure p) (hdead : ∀ p, P p → P { p with unused := true })
    (hfold : ∀ e mid r merged, e.unused = false → r.unused = false → P e → P r →
      judge e mid r = .foldInto merged → P merged ∧ measure merged < measure e + measure r)
    {ps : List Property} (hps : ∀ p ∈ ps, P p) :
    Lightened (liveTotal measure) (judgeAll judge ps) ps := by
  suffices h : (∀ p ∈ judgeAll judge ps, P p) ∧ Lightened (liveTotal measure) (judgeAll judge ps) ps from h.2
  refine judgeAll_induction (P := fun qs => (∀ p ∈ qs, P p) ∧ Lightened (liveTotal measure) qs ps) ?_
    ⟨hps, .inl rfl⟩
  intro pre e mid r post he hr ⟨hall, hlight⟩
  simp only [List.forall_mem_append, List.forall_mem_cons] at hall ⊢
  obtain ⟨hpre, hPe, hmid, hPr, hpost⟩ := hall
  have hout := outcome_forall hdead (fun merged hmerged => (hfold e mid r merged he hr hPe hPr hmerged).1) hPe hPr
  refine ⟨⟨hpre, hout.1, hmid, hout.2, hpost⟩, ?_⟩
  rcases outcome_lighter hpos (fun merged hmerged => (hfold e mid r merged he hr hPe hPr hmerged).2) he hr with
    hsame | hlt
  · rw [hsame]
    exact hlight
  · refine Lightened.trans (.inr ?_) hlight
    simp only [liveTotal_append, liveTotal_cons _ (_ ++ _), liveTotal_cons _ post] at hlt ⊢
    omega

/-- A repeated declaration is dropped, never folded. -/
theorem judgeDuplicate_ne_foldInto (e : Property) (mid : List Property) (r merged : Property) :
    judgeDuplicate e mid r ≠ .foldInto merged := by
  rw [judgeDuplicate]
  split <;> simp

/-- What a fold is: the two are read by the same engines and are equally important, the later one is no riddle,
and the shorthand has it in the place of its component. -/
structure FoldOf (config : Config) (e r merged : Property) : Prop where
  hack : e.hack = r.hack
  important : e.important = r.important
  analysed : e.isAnalysed = true
  static : r.dynamic = false
  known : r.isShorthand = true → r.isAnalysed = true
  folded : folded? config.profile e r = some merged

theorem foldOf_judgePair {config : Config} {e r merged : Property} {mid : List Property}
    (h : judgePair config e mid r = .foldInto merged) : FoldOf config e r merged := by
  simp only [judgePair] at h
  split at h
  · cases h
  next hguard =>
  have hhack : e.hack = r.hack := by
    simp only [Bool.or_eq_true, bne_iff_ne, not_or, ne_eq, not_not] at hguard
    exact hguard.1.1.1
  split at h
  · simp only [judgeShorthands, judgeSame] at h
    repeat' split at h
    all_goals cases h
  split at h
  · simp only [judgeCovered] at h
    repeat' split at h
    all_goals cases h
  split at h
  · next hcomponent =>
      rw [Bool.and_eq_true] at hcomponent
      simp only [judgeComponent] at h
      split at h
      · cases h
      next hriddle =>
      simp only [Bool.or_eq_true, Bool.and_eq_true, Bool.not_eq_true', not_or, not_and, Bool.not_eq_true,
        Bool.not_eq_false] at hriddle
      split at h
      · repeat' split at h
        all_goals cases h
      next hmore =>
      split at h
      · cases h
      next hless =>
      split at h
      · cases h
      split at h
      · next hfolded =>
          cases h
          refine ⟨hhack, ?_, hcomponent.1, hriddle.1, hriddle.2, hfolded⟩
          revert hmore hless
          cases e.important <;> cases r.important <;> simp
      · cases h
  · cases h

/-- What a shorthand becomes: its component is replaced, and its value put together anew. -/
theorem of_folded? {profile : Profile} {e r merged : Property} (h : folded? profile e r = some merged) :
    (∃ d, r.descriptor? = some d) ∧
      ∃ changed value, e.modify? r.name (fun _ => belongTo e r) = some changed ∧ changed.restore? = some value ∧
        changed.verifies profile value = true ∧
        merged = { changed with value, layered := value.isLayered, rebuilt := true } := by
  simp only [folded?, Option.bind_eq_bind, Option.bind_eq_some_iff] at h
  obtain ⟨component, -, d, hd, h⟩ := h
  split at h
  case isFalse => cases h
  simp only [Option.bind_eq_some_iff] at h
  obtain ⟨changed, hchanged, value, hvalue, h⟩ := h
  split at h
  case isFalse => cases h
  next hverifies =>
  exact ⟨⟨d, hd⟩, changed, value, hchanged, hvalue, hverifies, (Option.some.inj h).symm⟩

theorem eq_of_modify? {name : String} {change : Property → Property} {p p' : Property}
    (h : p.modify? name change = some p') : ∃ components, p' = { p with components } := by
  rw [modify?_eq] at h
  obtain ⟨components, -, rfl⟩ := Option.map_eq_some_iff.mp h
  exact ⟨components, rfl⟩

theorem name_of_foldInto {config : Config} {e r merged : Property} {mid : List Property}
    (h : judgePair config e mid r = .foldInto merged) : merged.name = e.name := by
  obtain ⟨-, changed, value, hchanged, -, -, rfl⟩ := of_folded? (foldOf_judgePair h).folded
  obtain ⟨components, rfl⟩ := eq_of_modify? hchanged
  rfl

end Judging

section Assemble

variable {profile : Profile} {d : Descriptor} {parts merged : List Property} {important : Bool} {position : Nat}

/-- The shorthand that is made of parts, as long as it has no value. -/
def blank (d : Descriptor) (important : Bool) (position : Nat) (components : List Property) : Property :=
  { name := d.name, value := [], important, components, rebuilt := true, position }

/-- What stands in a shorthand for a part: the part itself, or its initial value if it inherits. -/
def Fills (profile : Profile) (s p c : Property) : Prop :=
  p.inheritsAll = false ∧ c = p ∨
    p.inheritsAll = true ∧ ∃ initial free, withInitial? profile s p = some initial ∧ c = { initial with free }

theorem of_finish? {inheriting : List Property} {s : Property} (h : finish? profile inheriting s = some merged) :
    ∃ value, s.restore? = some value ∧ s.verifies profile value = true ∧
      merged = { s with value } :: inheriting.map fun p => { p with position := s.position } := by
  obtain ⟨value, hvalue, h⟩ := Option.bind_eq_some_iff.mp h
  split at h
  · next hverifies => exact ⟨value, hvalue, hverifies, (Option.some.inj h).symm⟩
  · cases h

/-- What is made of parts: `inherit` if all of them do, or else a shorthand whose value is put together, with
the parts that inherit after it. -/
theorem of_assemble? (h : assemble? profile d parts important position = some merged) :
    (∀ p ∈ parts, p.inheritsAll = true) ∧ merged = [{ blank d important position parts with value := ["inherit"] }] ∨
      (¬ ∀ p ∈ parts, p.inheritsAll = true) ∧ ∃ components value,
        List.Forall₂ (Fills profile (blank d important position parts)) parts components ∧
        (blank d important position components).restore? = some value ∧
        (blank d important position components).verifies profile value = true ∧
        merged = { blank d important position components with value }
          :: (parts.filter inheritsAll).map fun p => { p with position } := by
  have hfinish (components : List Property)
      (hfills : List.Forall₂ (Fills profile (blank d important position parts)) parts components)
      (h : finish? profile (parts.filter inheritsAll) (blank d important position components) = some merged) :
      ∃ components value,
        List.Forall₂ (Fills profile (blank d important position parts)) parts components ∧
        (blank d important position components).restore? = some value ∧
        (blank d important position components).verifies profile value = true ∧
        merged = { blank d important position components with value }
          :: (parts.filter inheritsAll).map fun p => { p with position } := by
    obtain ⟨value, hvalue, hverifies, rfl⟩ := of_finish? h
    exact ⟨components, value, hfills, hvalue, hverifies, rfl⟩
  simp only [assemble?] at h
  split at h
  · next hall =>
      cases h
      exact .inl ⟨List.length_filter_eq_length_iff.mp (by simpa using hall), rfl⟩
  next hall =>
  right
  refine ⟨by rw [← List.length_filter_eq_length_iff]; simpa using hall, ?_⟩
  split at h
  · next hnone =>
      rw [List.isEmpty_iff, List.filter_eq_nil_iff] at hnone
      rw [← List.filter_eq_nil_iff.mpr hnone] at h
      exact hfinish parts (List.forall₂_same.mpr fun p hp => .inl ⟨by simpa using hnone p hp, rfl⟩) h
  next hsome =>
  simp only [Option.bind_eq_bind, Option.bind_eq_some_iff] at h
  obtain ⟨components, hcomponents, h⟩ := h
  have hfills := (forall₂_of_mapM hcomponents).imp
    (S := Fills profile (blank d important position parts)) fun p c hc => by
      split at hc
      · next hinherits => exact .inr ⟨hinherits, c, c.free, hc, by cases c; rfl⟩
      · next hinherits => exact .inl ⟨by simpa using hinherits, (Option.some.inj hc).symm⟩
  have hmem := firstSmallest?_mem h
  rw [List.mem_append, Option.mem_toList, Option.mem_toList] at hmem
  rcases hmem with hmem | hmem
  · exact hfinish components hfills hmem
  · split at hmem
    case isFalse => cases hmem
    refine hfinish _ ?_ hmem
    -- Leaving open what is set again changes nothing else.
    clear hcomponents hmem h hfinish hall hsome
    generalize blank d important position parts = s at hfills ⊢
    induction hfills with
    | nil => exact .nil
    | @cons p c parts components hfill _ ih =>
        refine .cons ?_ ih
        show Fills profile s p (if p.inheritsAll then { c with free := true } else c)
        split
        · next hinherits =>
            rcases hfill with ⟨hnone, -⟩ | ⟨-, initial, free, hinitial, rfl⟩
            · exact absurd hinherits (by simp [hnone])
            · exact .inr ⟨hinherits, initial, true, hinitial, rfl⟩
        · exact hfill

end Assemble

section Merging

variable {config : Config} {ps ps' : List Property} {d : Descriptor}

/-- Killing the parts at their places takes off at least what they measure. -/
theorem liveTotal_marked (measure : Property → Nat) {placed : List Placed} (hnodup : placed.Nodup)
    (hlive : ∀ q ∈ placed, ps[q.2]? = some q.1 ∧ q.1.unused = false) :
    liveTotal measure (ps.zipIdx.map fun (p, i) =>
        if (placed.map Prod.snd).contains i then { p with unused := true } else p)
      + total measure (placed.map Prod.fst) ≤ liveTotal measure ps := by
  let places := placed.map Prod.snd
  let weigh : Placed → Nat := fun q => if q.1.unused then 0 else measure q.1
  have hall (qs : List Placed) : liveTotal measure (qs.map Prod.fst) = total weigh qs := by
    induction qs with
    | nil => rfl
    | cons q qs ih =>
        rw [List.map_cons, liveTotal_cons, ih, total]
        congr 1
        cases hq : q.1.unused with
        | true => simp [liveTotal_dead hq, weigh, hq]
        | false => simp [liveTotal_live hq, weigh, hq]
  have hmarked (qs : List Placed) :
      liveTotal measure (qs.map fun q => if places.contains q.2 then { q.1 with unused := true } else q.1)
        = total weigh (qs.filter fun q => !places.contains q.2) := by
    induction qs with
    | nil => rfl
    | cons q qs ih =>
        rw [List.map_cons, liveTotal_cons, ih]
        cases hq : places.contains q.2 with
        | true => simp only [hq, if_true, liveTotal_dead, Nat.zero_add, List.filter_cons, Bool.not_true,
            Bool.false_eq_true, if_false]
        | false =>
            have hone := hall [q]
            simp only [List.map_cons, List.map_nil, total] at hone
            simp only [hq, Bool.false_eq_true, if_false, List.filter_cons, Bool.not_false, if_true, total]
            omega
  have hplaced : total measure (placed.map Prod.fst) = total weigh placed := by
    rw [total_map]
    refine total_congr _ fun q hq => ?_
    simp [weigh, (hlive q hq).2]
  have hsub : placed ⊆ ps.zipIdx.filter fun q => places.contains q.2 := by
    intro q hq
    refine List.mem_filter.mpr ⟨List.mem_zipIdx_iff_getElem?.mpr (hlive q hq).1, ?_⟩
    exact List.contains_iff_mem.mpr (List.mem_map_of_mem hq)
  have hle := total_le_of_subperm weigh (List.subperm_of_subset hnodup hsub)
  have hsplit := total_filter weigh (fun q => places.contains q.2) ps.zipIdx
  have hfst := hall ps.zipIdx
  rw [List.zipIdx_map_fst] at hfst
  change liveTotal measure (ps.zipIdx.map fun q => if places.contains q.2 then { q.1 with unused := true } else q.1)
    + _ ≤ _
  rw [hmarked, hplaced, hfst]
  omega

/-- What a merge is made of: living parts with the names of the components die, and the shorthand takes their
place, with the parts that inherit after it. -/
structure MergeOf (config : Config) (d : Descriptor) (ps ps' parts merged : List Property) : Prop where
  names : parts.map (·.name) = d.components
  parts_subset : parts ⊆ ps
  live : ∀ p ∈ parts, p.unused = false
  assembled : ∃ important position, assemble? config.profile d parts important position = some merged
  mayMerge : ∃ important, ∀ p ∈ parts, p.mayMerge config important = true
  smaller : totalSize merged < totalSize parts
  forall_mem : ∀ p ∈ ps', p ∈ merged ∨ ∃ q ∈ ps, p = q ∨ p = { q with unused := true }
  lighter : ∀ measure, liveTotal measure ps' + total measure parts ≤ liveTotal measure ps + total measure merged

theorem mergeOf_mergeInto? (hd : Registry.builtin.find? d.name = some d)
    (h : mergeInto? config ps d = some ps') : ∃ parts merged, MergeOf config d ps ps' parts merged := by
  have hrow := (Registry.mem_of_find? hd).1
  simp only [mergeInto?, Option.bind_eq_bind, Option.bind_eq_some_iff] at h
  obtain ⟨placed, hplaced, important, -, first, -, last, hlast, h⟩ := h
  split at h
  case isFalse => cases h
  next hguard =>
  simp only [Option.bind_eq_some_iff] at h
  obtain ⟨position, -, merged, hassemble, h⟩ := h
  split at h
  case isFalse => cases h
  next hsmaller =>
  cases h
  rw [Bool.and_eq_true, List.all_eq_true] at hguard
  have hparts := placedParts_of_mapM hd hplaced
  have hnodup : placed.Nodup := by
    have hnodup := Registry.nodup_components hrow
    rw [← hparts.names] at hnodup
    exact hnodup.of_map
  have hlive (q : Placed) (hq : q ∈ placed) : ps[q.2]? = some q.1 ∧ q.1.unused = false :=
    ⟨hparts.getElem? q hq, (isPart_iff.mp (hparts.isPart q hq)).1⟩
  set dead := ps.zipIdx.map fun (p, i) =>
    if (placed.map Prod.snd).contains i then { p with unused := true } else p with hdead
  have hmem (p : Property) (hp : p ∈ dead) : ∃ q ∈ ps, p = q ∨ p = { q with unused := true } := by
    obtain ⟨⟨q, i⟩, hq, rfl⟩ := List.mem_map.mp hp
    refine ⟨q, List.mem_of_getElem? (List.mem_zipIdx_iff_getElem?.mp hq), ?_⟩
    dsimp only
    split
    · exact .inr rfl
    · exact .inl rfl
  refine ⟨placed.map Prod.fst, merged, ⟨?_, ?_, ?_, ⟨important, position, hassemble⟩, ⟨important, hguard.1⟩, hsmaller,
    ?_, ?_⟩⟩
  · rw [← hparts.names, List.map_map]
    rfl
  · intro p hp
    obtain ⟨q, hq, rfl⟩ := List.mem_map.mp hp
    exact List.mem_of_getElem? (hlive q hq).1
  · intro p hp
    obtain ⟨q, hq, rfl⟩ := List.mem_map.mp hp
    exact (hlive q hq).2
  · intro p hp
    rw [List.mem_append, List.mem_append] at hp
    rcases hp with (hp | hp) | hp
    · exact .inr (hmem p (List.mem_of_mem_take hp))
    · exact .inl hp
    · exact .inr (hmem p (List.mem_of_mem_drop hp))
  · intro measure
    have hle := liveTotal_marked measure hnodup hlive
    have hmerged := liveTotal_le measure merged
    -- What stands at the last place is dead, so leaving it out takes nothing off.
    have hcut : liveTotal measure (dead.take last) + liveTotal measure (dead.drop (last + 1))
        ≤ liveTotal measure dead := by
      have hsub : (dead.take last ++ dead.drop (last + 1)).Sublist dead := by
        conv_rhs => rw [← List.take_append_drop last dead]
        exact (List.Sublist.refl _).append (List.drop_sublist_drop_left dead (Nat.le_succ last))
      rw [← liveTotal_append]
      exact total_le_of_sublist _ (hsub.filter _)
    rw [← hdead] at hle
    simp only [liveTotal_append]
    omega

/-- What every merge keeps, seen as what it is made of, merging into all the shorthands keeps. -/
theorem mergeAll_induction {P : List Property → Prop}
    (hstep : ∀ {d qs qs' parts merged}, d ∈ mergeOrder → MergeOf config d qs qs' parts merged → P qs → P qs')
    (h : P ps) : P (mergeAll config ps) := by
  refine mergeAll_keep (fun hd hmerge hqs => ?_) h
  obtain ⟨parts, merged, hof⟩ := mergeOf_mergeInto? (Registry.find?_of_mem (mem_mergeOrder hd).1) hmerge
  exact hstep hd hof hqs

theorem mergeAll_forall {P : Property → Prop} (hdead : ∀ p, P p → P { p with unused := true })
    (hmerge : ∀ {d qs qs' parts merged}, d ∈ mergeOrder → MergeOf config d qs qs' parts merged →
      (∀ p ∈ parts, P p) → ∀ p ∈ merged, P p) (hps : ∀ p ∈ ps, P p) : ∀ p ∈ mergeAll config ps, P p := by
  refine mergeAll_induction (P := fun qs => ∀ p ∈ qs, P p) ?_ hps
  intro d qs qs' parts merged hd hof hqs p hp
  rcases hof.forall_mem p hp with hmem | ⟨q, hq, rfl | rfl⟩
  · exact hmerge hd hof (fun q hq => hqs q (hof.parts_subset hq)) p hmem
  · exact hqs p hq
  · exact hdead q (hqs q hq)

/-- Merging changes nothing or takes something off, if what takes the place of parts measures less than they
do. -/
theorem mergeAll_lighter {measure : Property → Nat}
    (hmerge : ∀ {d qs qs' parts merged}, d ∈ mergeOrder → MergeOf config d qs qs' parts merged →
      total measure merged < total measure parts) (ps : List Property) :
    Lightened (liveTotal measure) (mergeAll config ps) ps := by
  refine mergeAll_induction (P := fun qs => Lightened (liveTotal measure) qs ps) ?_ (.inl rfl)
  intro d qs qs' parts merged hd hof hqs
  have hlt := hmerge hd hof
  have hle := hof.lighter measure
  exact Lightened.trans (.inr (by omega)) hqs

end Merging

section Collapsing

/-- What collapsing does: it leaves a property alone, or gives four sides the value with fewer tokens that their
components are put together to. -/
theorem collapse_eq_or (profile : Profile) (p : Property) :
    p.collapse profile = p ∨ ∃ value, p.collapse profile = { p with value, rebuilt := true } ∧
      p.descriptor?.any (·.restore == some .fourValues) = true ∧ p.restore? = some value ∧
      value.length < p.value.length ∧ p.verifies profile value = true := by
  simp only [collapse]
  split
  · exact .inl rfl
  next hguard =>
  simp only [Bool.or_eq_true, Bool.not_eq_true', not_or, Bool.not_eq_false] at hguard
  split
  · next value hvalue =>
      split
      · next hshorter =>
          rw [Bool.and_eq_true, decide_eq_true_eq] at hshorter
          exact .inr ⟨value, rfl, hguard.1.1.1.2, hvalue, hshorter⟩
      · exact .inl rfl
  · exact .inl rfl

end Collapsing

end Property

namespace Body

open Property

/-- What is left of a body when overridden declarations are gone. -/
def judged (config : Config) (ds : List Declaration) : List Property :=
  let single := removeDuplicates (wrapAll config.profile ds)
  if config.options.overrideProperties then overrideAll config single else single

theorem round_eq (config : Config) (ds : List Declaration) :
    round config ds = unwrapAll (if config.options.mergeIntoShorthands then
      (mergeAll config (judged config ds)).map (collapse config.profile) else judged config ds) := rfl

/-- What takes something off the living properties takes it off their declarations. -/
theorem lightened_unwrapAll {profile : Profile} {size : Declaration → Nat} {ds : List Declaration}
    {ps : List Property} (h : Lightened (liveTotal fun p => size p.toDeclaration) ps (wrapAll profile ds)) :
    Lightened (total size) (unwrapAll ps) ds := by
  have hds := unwrapAll_wrapAll profile ds
  rcases h with rfl | h
  · exact .inl hds
  · rw [← total_unwrapAll size, ← total_unwrapAll size, hds] at h
    exact .inr h

/-- Properties that come about in rounds never leave `P`. -/
structure Closed (config : Config) (P : Property → Prop) : Prop where
  dead : ∀ p, P p → P { p with unused := true }
  fold : ∀ e mid r merged, e.unused = false → r.unused = false → P e → P r →
    judgePair config e mid r = .foldInto merged → P merged
  merge : ∀ {d qs qs' parts merged}, d ∈ mergeOrder → MergeOf config d qs qs' parts merged →
    (∀ p ∈ parts, P p) → ∀ p ∈ merged, P p
  collapse : ∀ p, P p → P (p.collapse config.profile)

section Closed

variable {config : Config} {P : Property → Prop} {ds : List Declaration}

theorem forall_wrapAll {profile : Profile} (h : ∀ d ∈ ds, ∀ position, P (wrap profile d position)) :
    ∀ p ∈ wrapAll profile ds, P p := by
  intro p hp
  obtain ⟨⟨d, position⟩, hd, rfl⟩ := List.mem_map.mp hp
  exact h d (List.mem_of_getElem? (List.mem_zipIdx_iff_getElem?.mp hd)) position

theorem Closed.removeDuplicates (hP : Closed config P) {ps : List Property} (hps : ∀ p ∈ ps, P p) :
    ∀ p ∈ Property.removeDuplicates ps, P p :=
  judgeAll_forall hP.dead (fun e mid r merged _ _ _ _ h => absurd h (judgeDuplicate_ne_foldInto e mid r merged)) hps

theorem Closed.judged (hP : Closed config P)
    (h : ∀ d ∈ ds, ∀ position, P (wrap config.profile d position)) : ∀ p ∈ judged config ds, P p := by
  have hsingle := hP.removeDuplicates (forall_wrapAll h)
  rw [Body.judged]
  split
  · exact judgeAll_forall hP.dead hP.fold hsingle
  · exact hsingle

theorem Closed.round (hP : Closed config P) (h : ∀ d ∈ ds, ∀ position, P (wrap config.profile d position)) :
    ∀ d ∈ Body.round config ds, ∃ p, P p ∧ p.unused = false ∧ p.toDeclaration = d := by
  have hall : ∀ p ∈ (if config.options.mergeIntoShorthands then
      (mergeAll config (Body.judged config ds)).map (Property.collapse config.profile)
      else Body.judged config ds), P p := by
    split
    · intro p hp
      obtain ⟨q, hq, rfl⟩ := List.mem_map.mp hp
      exact hP.collapse q (mergeAll_forall hP.dead hP.merge (hP.judged h) q hq)
    · exact hP.judged h
  intro d hd
  rw [round_eq] at hd
  obtain ⟨p, hp, rfl⟩ := List.mem_map.mp hd
  obtain ⟨hmem, hlive⟩ := List.mem_filter.mp hp
  exact ⟨p, hall p hmem, by simpa using hlive, rfl⟩

theorem closed_true (config : Config) : Closed config fun _ => True where
  dead _ _ := trivial
  fold _ _ _ _ _ _ _ _ _ := trivial
  merge _ _ _ _ _ := trivial
  collapse _ _ := trivial

/-- Judging a body changes nothing or takes something off, if a fold does. -/
theorem Closed.judged_lighter {measure : Property → Nat} (hP : Closed config P) (hpos : ∀ p, 0 < measure p)
    (hfold : config.options.overrideProperties = true → ∀ e mid r merged, e.unused = false → r.unused = false →
      P e → P r → judgePair config e mid r = .foldInto merged → measure merged < measure e + measure r)
    (h : ∀ d ∈ ds, ∀ position, P (wrap config.profile d position)) :
    Lightened (liveTotal measure) (Body.judged config ds) (wrapAll config.profile ds) := by
  have hwrapped := forall_wrapAll h
  have hsingle : Lightened (liveTotal measure) (Property.removeDuplicates (wrapAll config.profile ds))
      (wrapAll config.profile ds) :=
    judgeAll_lighter hpos hP.dead
      (fun e mid r merged _ _ _ _ h => absurd h (judgeDuplicate_ne_foldInto e mid r merged)) hwrapped
  rw [Body.judged]
  split
  · next hoverride =>
      refine Lightened.trans (judgeAll_lighter hpos hP.dead ?_ (hP.removeDuplicates hwrapped)) hsingle
      intro e mid r merged he hr hPe hPr hmerged
      exact ⟨hP.fold e mid r merged he hr hPe hPr hmerged, hfold hoverride e mid r merged he hr hPe hPr hmerged⟩
  · exact hsingle

end Closed

end Body

end CssMinify
