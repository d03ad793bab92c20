import CssMinify.Proofs.Effect.Assembly
import Mathlib.Data.List.Nodup
import Mathlib.Data.List.Pairwise

/-!
Where a shorthand finds its parts: in a stretch of the body in which nothing else sets what it sets. A
merge retires the parts of the stretch and puts the shorthand at its end.
-/

namespace CssMinify

/-- Different components of a shorthand set different longhands. -/
theorem Registry.component_eq_of_mem_leafNames {d : Descriptor} (hd : d ∈ builtin.descriptors)
    {a b longhand : String} (ha : a ∈ d.components) (hb : b ∈ d.components)
    (hla : longhand ∈ builtin.leafNames a) (hlb : longhand ∈ builtin.leafNames b) : a = b := by
  have hne : d.components ≠ [] := List.ne_nil_of_mem ha
  have hnodup := nodup_leaves hd
  rw [leaves_eq_flatMap hd hne, List.nodup_flatMap] at hnodup
  by_contra hab
  have : Std.Symm (Function.onFun List.Disjoint builtin.leafNames) := ⟨fun _ _ h _ hb ha => h ha hb⟩
  have hdisjoint : List.Disjoint (builtin.leafNames a) (builtin.leafNames b) := hnodup.2.forall ha hb hab
  exact hdisjoint hla hlb

namespace Property

/-- A property that is alive and sets something that the shorthand sets. -/
def isPart (d : Descriptor) (p : Property) : Bool := !p.unused && p.leafNames.any d.leaves.contains

/-- A part is dead once the shorthand stands for it. -/
def retire (d : Descriptor) (p : Property) : Property :=
  if p.isPart d then { p with unused := true } else p

/-- Two properties that set nothing in common of what the shorthand sets. -/
def Apart (d : Descriptor) (p q : Property) : Prop :=
  p.unused = false → q.unused = false → ∀ l ∈ d.leaves, l ∈ p.leafNames → l ∉ q.leafNames

/-- A stretch of a body in which these parts, and nothing else, set what the shorthand sets, each part
something else. -/
structure Stretch (d : Descriptor) (ps parts : List Property) : Prop where
  mem : ∀ p, p ∈ parts ↔ p ∈ ps ∧ p.isPart d = true
  apart : ps.Pairwise (Apart d)

section Places

variable {ps : List Property}

theorem isPart_iff {d : Descriptor} {p : Property} :
    p.isPart d = true ↔ p.unused = false ∧ ∃ l ∈ p.leafNames, l ∈ d.leaves := by
  simp [isPart]

theorem getElem?_of_lastAlive? {name : String} {placed : Placed} (h : lastAlive? ps name = some placed) :
    ps[placed.2]? = some placed.1 ∧ placed.1.unused = false ∧ placed.1.name = name := by
  have hfound := List.find?_some h
  have hmem := List.mem_of_find?_eq_some h
  rw [List.mem_reverse, List.mem_zipIdx_iff_getElem?] at hmem
  simp only [Bool.and_eq_true, Bool.not_eq_true', beq_iff_eq] at hfound
  exact ⟨hmem, hfound.1, hfound.2⟩

theorem leafNames_eq_registry {p : Property} {row : Descriptor}
    (h : Registry.builtin.find? p.name = some row) : p.leafNames = Registry.builtin.leafNames p.name := by
  rw [leafNames_of_descriptor? (p := p) h, Registry.leafNames, h]
  rfl

theorem map_name_of_lastAlive? {names : List String} {placed : List Placed}
    (h : List.Forall₂ (fun name q => lastAlive? ps name = some q) names placed) :
    placed.map (·.1.name) = names := by
  induction h with
  | nil => rfl
  | cons hlast _ ih => rw [List.map_cons, ih, (getElem?_of_lastAlive? hlast).2.2]

/-- What the last living declarations of a shorthand's components look like. -/
structure PlacedParts (d : Descriptor) (ps : List Property) (placed : List Placed) : Prop where
  names : placed.map (·.1.name) = d.components
  getElem? : ∀ q ∈ placed, ps[q.2]? = some q.1
  isPart : ∀ q ∈ placed, q.1.isPart d = true
  unique : ∀ q ∈ placed, ∀ r ∈ placed, ∀ l, l ∈ q.1.leafNames → l ∈ r.1.leafNames → q = r

theorem placedParts_of_mapM {d : Descriptor} {placed : List Placed}
    (hd : Registry.builtin.find? d.name = some d) (h : d.components.mapM (lastAlive? ps) = some placed) :
    PlacedParts d ps placed := by
  have hrow := (Registry.mem_of_find? hd).1
  have hforall := forall₂_of_mapM h
  have hmem : ∀ q ∈ placed, q.1.name ∈ d.components ∧ lastAlive? ps q.1.name = some q := by
    intro q hq
    obtain ⟨name, hname, hlast⟩ := exists_of_mem_left hforall.flip hq
    rw [(getElem?_of_lastAlive? hlast).2.2]
    exact ⟨hname, hlast⟩
  have hleaf : ∀ q ∈ placed, q.1.leafNames = Registry.builtin.leafNames q.1.name := by
    intro q hq
    obtain ⟨row, hrow'⟩ := Registry.exists_find?_of_mem_components hrow (hmem q hq).1
    exact leafNames_eq_registry hrow'
  refine ⟨map_name_of_lastAlive? hforall, fun q hq => (getElem?_of_lastAlive? (hmem q hq).2).1,
    fun q hq => ?_, ?_⟩
  · obtain ⟨hname, hlast⟩ := hmem q hq
    obtain ⟨row', hrow'⟩ := Registry.exists_find?_of_mem_components hrow hname
    obtain ⟨l, hl⟩ := List.exists_mem_of_ne_nil _ (Registry.leaves_ne_nil (Registry.mem_of_find? hrow').1)
    rw [← leafNames_of_descriptor? (p := q.1) hrow'] at hl
    refine isPart_iff.mpr ⟨(getElem?_of_lastAlive? hlast).2.1, l, hl, ?_⟩
    rw [Registry.leaves_eq_flatMap hrow (List.ne_nil_of_mem hname)]
    exact List.mem_flatMap.mpr ⟨q.1.name, hname, hleaf q hq ▸ hl⟩
  · intro q hq r hr l hlq hlr
    rw [hleaf q hq] at hlq
    rw [hleaf r hr] at hlr
    have hname := Registry.component_eq_of_mem_leafNames hrow (hmem q hq).1 (hmem r hr).1 hlq hlr
    have hsame := (hmem q hq).2
    rw [hname, (hmem r hr).2] at hsame
    exact (Option.some.inj hsame).symm

/-- Cutting a body at the first and after the last place of its parts. -/
theorem eq_append_stretch {first last : Nat} {b : Property} (hle : first ≤ last)
    (hlast : ps[last]? = some b) :
    ps = ps.take first ++ ((ps.take last).drop first ++ b :: ps.drop (last + 1)) := by
  obtain ⟨hlt, rfl⟩ := List.getElem?_eq_some_iff.mp hlast
  have hcut : ps.take last = ps.take first ++ (ps.take last).drop first := by
    have h := (List.take_append_drop first (ps.take last)).symm
    rwa [List.take_take, Nat.min_eq_left hle] at h
  calc ps = ps.take last ++ ps.drop last := (List.take_append_drop last ps).symm
    _ = ps.take first ++ (ps.take last).drop first ++ ps[last] :: ps.drop (last + 1) := by
        rw [← hcut, List.drop_eq_getElem_cons hlt]
    _ = _ := by rw [List.append_assoc]

theorem getElem?_stretch {first last : Nat} {b : Property} (hle : first ≤ last) (hlast : ps[last]? = some b)
    (k : Nat) :
    ((ps.take last).drop first ++ [b])[k]? = if first + k ≤ last then ps[first + k]? else none := by
  have hlt := (List.getElem?_eq_some_iff.mp hlast).1
  have hlength : ((ps.take last).drop first).length = last - first := by
    rw [List.length_drop, List.length_take]
    omega
  rcases Nat.lt_trichotomy (first + k) last with hk | hk | hk
  · rw [List.getElem?_append_left (by omega), List.getElem?_drop, List.getElem?_take_of_lt hk,
      if_pos (by omega)]
  · rw [List.getElem?_append_right (by omega), hlength, show k - (last - first) = 0 by omega, hk, hlast,
      if_pos (Nat.le_refl last)]
    rfl
  · rw [if_neg (by omega), List.getElem?_eq_none]
    rw [List.length_append, hlength, List.length_singleton]
    omega

theorem mem_stretch {first last : Nat} {b p : Property} (hle : first ≤ last) (hlast : ps[last]? = some b) :
    p ∈ (ps.take last).drop first ++ [b] ↔ ∃ i, first ≤ i ∧ i ≤ last ∧ ps[i]? = some p := by
  rw [List.mem_iff_getElem?]
  constructor
  · rintro ⟨k, hk⟩
    rw [getElem?_stretch hle hlast] at hk
    split at hk
    · exact ⟨first + k, by omega, by assumption, hk⟩
    · cases hk
  · rintro ⟨i, hfirst, hi, hp⟩
    refine ⟨i - first, ?_⟩
    rw [getElem?_stretch hle hlast, Nat.add_sub_cancel' hfirst, if_pos hi, hp]

/-- The parts of a shorthand between the first and the last of their places. -/
theorem stretch_of_placed {d : Descriptor} {placed : List Placed} {first last : Nat} {b : Property}
    (h : PlacedParts d ps placed) (hle : first ≤ last) (hlast : ps[last]? = some b)
    (hrange : ∀ q ∈ placed, first ≤ q.2 ∧ q.2 ≤ last)
    (honly : ∀ i p, ps[i]? = some p → first ≤ i → i ≤ last → p.isPart d = true → ∃ q ∈ placed, q.2 = i) :
    Stretch d ((ps.take last).drop first ++ [b]) (placed.map Prod.fst) := by
  have hplaced (i : Nat) (p : Property) (hp : ps[i]? = some p) (hfirst : first ≤ i) (hi : i ≤ last)
      (hpart : p.isPart d = true) : (p, i) ∈ placed := by
    obtain ⟨q, hq, rfl⟩ := honly i p hp hfirst hi hpart
    have hsame := h.getElem? q hq
    rw [hp] at hsame
    cases hsame
    exact hq
  refine ⟨fun p => ?_, ?_⟩
  · rw [mem_stretch hle hlast, List.mem_map]
    constructor
    · rintro ⟨q, hq, rfl⟩
      exact ⟨⟨q.2, (hrange q hq).1, (hrange q hq).2, h.getElem? q hq⟩, h.isPart q hq⟩
    · rintro ⟨⟨i, hfirst, hi, hp⟩, hpart⟩
      exact ⟨(p, i), hplaced i p hp hfirst hi hpart, rfl⟩
  · rw [List.pairwise_iff_getElem]
    intro i j hi hj hij hli hlj l hl hlp hlq
    have hgi := List.getElem?_eq_getElem hi
    have hgj := List.getElem?_eq_getElem hj
    rw [getElem?_stretch hle hlast] at hgi hgj
    split at hgi
    case isFalse => cases hgi
    split at hgj
    case isFalse => cases hgj
    have hmi := hplaced _ _ hgi (by omega) (by assumption) (isPart_iff.mpr ⟨hli, l, hlp, hl⟩)
    have hmj := hplaced _ _ hgj (by omega) (by assumption) (isPart_iff.mpr ⟨hlj, l, hlq, hl⟩)
    have hsame := congrArg Prod.snd (h.unique _ hmi _ hmj l hlp hlq)
    simp only at hsame
    omega

/-- Marking what stands at the places of the parts retires the parts of the stretch and nothing else. -/
theorem mark_eq_append {d : Descriptor} {places : List Nat} {first last : Nat} (hle : first ≤ last)
    (hlt : last < ps.length)
    (hplaces : ∀ i p, ps[i]? = some p →
      (places.contains i = true ↔ first ≤ i ∧ i ≤ last ∧ p.isPart d = true)) :
    let marked := ps.zipIdx.map fun (p, i) => if places.contains i then { p with unused := true } else p
    marked.take last = ps.take first ++ ((ps.take last).drop first).map (retire d) ∧
      marked.drop (last + 1) = ps.drop (last + 1) := by
  intro marked
  have hmarked (i : Nat) :
      marked[i]? = ps[i]?.map fun p => if first ≤ i ∧ i ≤ last then retire d p else p := by
    rw [List.getElem?_map, List.getElem?_zipIdx, Option.map_map]
    refine Option.map_congr fun p hp => ?_
    have hiff := hplaces i p hp
    simp only [Function.comp_apply, Nat.zero_add, retire]
    by_cases hrange : first ≤ i ∧ i ≤ last
    · by_cases hpart : p.isPart d = true
      · rw [if_pos (hiff.mpr ⟨hrange.1, hrange.2, hpart⟩), if_pos hrange, if_pos hpart]
      · rw [if_neg fun h => hpart (hiff.mp h).2.2, if_pos hrange, if_neg hpart]
    · rw [if_neg fun h => hrange ⟨(hiff.mp h).1, (hiff.mp h).2.1⟩, if_neg hrange]
  refine ⟨List.ext_getElem? fun i => ?_, List.ext_getElem? fun i => ?_⟩
  · have hfirst : (ps.take first).length = first := by
      rw [List.length_take]
      omega
    rcases Nat.lt_or_ge i first with hi | hi
    · rw [List.getElem?_append_left (by omega), List.getElem?_take_of_lt (by omega), hmarked,
        List.getElem?_take_of_lt hi]
      simp only [Nat.not_le.mpr hi, false_and, if_false, Option.map_id']
    · rw [List.getElem?_append_right (by omega), hfirst, List.getElem?_map, List.getElem?_drop,
        Nat.add_sub_cancel' hi]
      rcases Nat.lt_or_ge i last with hi' | hi'
      · rw [List.getElem?_take_of_lt hi', List.getElem?_take_of_lt hi', hmarked]
        simp only [hi, Nat.le_of_lt hi', and_self, if_true]
      · rw [List.getElem?_take_eq_none hi', List.getElem?_take_eq_none hi', Option.map_none]
  · rw [List.getElem?_drop, List.getElem?_drop, hmarked]
    have hbeyond : ¬last + 1 + i ≤ last := by omega
    simp only [hbeyond, and_false, if_false, Option.map_id']

end Places

/-- A merge seen as what it does to a stretch of the body. -/
inductive Merged (config : Config) (d : Descriptor) : List Property → List Property → Prop
  | intro (before after : List Property) {stretch parts merged : List Property} {b : Property}
      {important : Bool} {position : Nat} (hstretch : Stretch d (stretch ++ [b]) parts) (hb : b ∈ parts)
      (hnames : parts.map (·.name) = d.components) (hmay : ∀ p ∈ parts, p.mayMerge config important = true)
      (hassemble : assemble? config.profile d parts important position = some merged) :
      Merged config d (before ++ (stretch ++ b :: after))
        (before ++ (stretch.map (retire d) ++ (merged ++ after)))

theorem merged_of_mergeInto? {config : Config} {ps ps' : List Property} {d : Descriptor}
    (hd : Registry.builtin.find? d.name = some d) (h : mergeInto? config ps d = some ps') :
    Merged config d ps ps' := by
  simp only [mergeInto?, Option.bind_eq_bind, Option.bind_eq_some_iff] at h
  obtain ⟨placed, hplaced, important, -, first, hfirst, last, hlast, h⟩ := h
  split at h
  case isFalse => cases h
  next hguard =>
  simp only [Option.bind_eq_some_iff] at h
  obtain ⟨position, -, merged, hassemble, h⟩ := h
  split at h
  case isFalse => cases h
  cases h
  simp only [Bool.and_eq_true, Bool.not_eq_true'] at hguard
  obtain ⟨hmay, hinterleaved⟩ := hguard
  have hparts := placedParts_of_mapM hd hplaced
  have hrange (q : Placed) (hq : q ∈ placed) : first ≤ q.2 ∧ q.2 ≤ last := by
    have hmem : q.2 ∈ placed.map Prod.snd := List.mem_map_of_mem hq
    exact ⟨(List.min?_eq_some_iff.mp hfirst).2 _ hmem, (List.max?_eq_some_iff.mp hlast).2 _ hmem⟩
  obtain ⟨q, hq, hqlast⟩ := List.mem_map.mp (List.max?_eq_some_iff.mp hlast).1
  have hb : ps[last]? = some q.1 := hqlast ▸ hparts.getElem? q hq
  have hle : first ≤ last := hqlast ▸ (hrange q hq).1
  have honly (i : Nat) (p : Property) (hp : ps[i]? = some p) (hi : first ≤ i) (hi' : i ≤ last)
      (hpart : p.isPart d = true) : ∃ q ∈ placed, q.2 = i := by
    by_contra hnone
    have hnot : (placed.map Prod.snd).contains i = false := by
      rw [Bool.eq_false_iff, ne_eq, List.contains_iff_mem, List.mem_map]
      exact hnone
    rw [isPart, Bool.and_eq_true] at hpart
    have hany := List.any_eq_false.mp hinterleaved (p, i) (List.mem_zipIdx_iff_getElem?.mpr hp)
    refine hany ?_
    simp only [hi, hi', hnot, hpart.1, hpart.2, decide_true, Bool.not_false, Bool.and_self]
  have hplaces (i : Nat) (p : Property) (hp : ps[i]? = some p) :
      (placed.map Prod.snd).contains i = true ↔ first ≤ i ∧ i ≤ last ∧ p.isPart d = true := by
    rw [List.contains_iff_mem, List.mem_map]
    constructor
    · rintro ⟨r, hr, rfl⟩
      have hsame := hparts.getElem? r hr
      rw [hp] at hsame
      cases hsame
      exact ⟨(hrange r hr).1, (hrange r hr).2, hparts.isPart r hr⟩
    · rintro ⟨hi, hi', hpart⟩
      exact honly i p hp hi hi' hpart
  obtain ⟨htake, hdrop⟩ :=
    mark_eq_append hle (List.getElem?_eq_some_iff.mp hb).1 hplaces
  have hps := eq_append_stretch hle hb
  have hmerged := Merged.intro (ps.take first) (ps.drop (last + 1))
    (stretch_of_placed hparts hle hb hrange honly) (List.mem_map_of_mem hq)
    (by rw [← hparts.names, List.map_map]; rfl) (List.all_eq_true.mp hmay) hassemble
  rw [← hps] at hmerged
  rw [htake, hdrop, List.append_assoc, List.append_assoc]
  exact hmerged

/-- What every merge keeps, merging into one shorthand after the other keeps. -/
theorem mergeAll_keep {config : Config} {P : List Property → Prop}
    (hstep : ∀ {d qs qs'}, d ∈ mergeOrder → mergeInto? config qs d = some qs' → P qs → P qs')
    {ps : List Property} (h : P ps) : P (mergeAll config ps) := by
  have hfold : ∀ (ds : List Descriptor) (qs : List Property), (∀ d ∈ ds, d ∈ mergeOrder) → P qs →
      P (ds.foldl (fun ps d => (mergeInto? config ps d).getD ps) qs) := by
    intro ds
    induction ds with
    | nil => exact fun qs _ hqs => hqs
    | cons d ds ih =>
        intro qs hds hqs
        refine ih _ (fun d' hd' => hds d' (List.mem_cons_of_mem d hd')) ?_
        show P ((mergeInto? config qs d).getD qs)
        cases hmerge : mergeInto? config qs d with
        | none => exact hqs
        | some qs' => exact hstep (hds d List.mem_cons_self) hmerge hqs
  rw [mergeAll]
  split
  · exact hfold mergeOrder ps (fun _ hd => hd) h
  · exact h

end Property

end CssMinify
