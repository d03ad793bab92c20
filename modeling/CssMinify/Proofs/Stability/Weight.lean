import CssMinify.Proofs.Runs.Round
import Mathlib.Data.Prod.Lex

/-!
A round over a body leaves it as it is or makes it lighter. A shorthand weighs less than any of its
components, so dropping, folding and merging all take weight off; collapsing four sides takes off tokens
and keeps the weight. So a body that comes back from a number of rounds was left alone by each of them.
-/

namespace CssMinify

/-- A shorthand weighs less than any of its components; nothing sets more than twelve longhands. -/
def Declaration.weight (d : Declaration) : Nat := 13 - (Registry.builtin.leafNames d.name).length

namespace Body

def weight (ds : List Declaration) : Nat := total Declaration.weight ds

def tokenCount (ds : List Declaration) : Nat := total (·.value.length) ds

/-- What rounds take off a body: weight first, then tokens. -/
def bulk (ds : List Declaration) : Nat ×ₗ Nat := toLex (weight ds, tokenCount ds)

end Body

namespace Registry

theorem length_leafNames_le (name : String) : (builtin.leafNames name).length ≤ 12 := by
  have hrows : ∀ d ∈ builtin.shorthands, d.leaves.length ≤ 12 := by decide +kernel
  rw [leafNames]
  cases hd : builtin.find? name with
  | none => exact Nat.zero_le _
  | some d =>
      have hmem := (mem_of_find? hd).1
      by_cases hne : d.components = []
      · simp [leaves_eq_singleton hmem hne]
      · exact hrows d (by simpa [shorthands, Descriptor.isShorthand] using ⟨hmem, hne⟩)

end Registry

namespace Declaration

theorem weight_pos (d : Declaration) : 0 < d.weight := by
  have hle := Registry.length_leafNames_le d.name
  rw [weight]
  omega

theorem weight_congr {d e : Declaration} (h : d.name = e.name) : d.weight = e.weight := by
  rw [weight, weight, h]

theorem weight_lt_of_mem_components {row : Descriptor} (hrow : row ∈ Registry.builtin.descriptors)
    {s d : Declaration} (hs : s.name = row.name) (hd : d.name ∈ row.components) : s.weight < d.weight := by
  have hlt := Registry.length_leafNames_lt hrow hd
  have hle := Registry.length_leafNames_le row.name
  rw [weight, weight, hs]
  rw [Registry.leafNames, Registry.find?_of_mem hrow, Option.map_some, Option.getD_some] at hle ⊢
  omega

end Declaration

namespace Property

/-- The weight of the properties that are alive. -/
abbrev liveWeight : List Property → Nat := liveTotal (·.weight)

section Merging

variable {d : Descriptor}

/-- The shorthand weighs less than any one of its parts, and only parts that inherit are repeated. -/
theorem assemble?_lighter {profile : Profile} (hd : d ∈ Registry.builtin.descriptors) {parts merged : List Property}
    (hnames : parts.map (·.name) = d.components) (hne : parts ≠ []) {important : Bool} {position : Nat}
    (h : assemble? profile d parts important position = some merged) :
    total (·.weight) merged < total (·.weight) parts := by
  have hweight (s p : Property) (hs : s.name = d.name) (hp : p ∈ parts) : s.weight < p.weight :=
    Declaration.weight_lt_of_mem_components hd hs (hnames ▸ List.mem_map_of_mem hp)
  rcases of_assemble? h with ⟨-, rfl⟩ | ⟨hsome, components, value, -, -, -, rfl⟩
  · obtain ⟨p, hp⟩ := List.exists_mem_of_ne_nil parts hne
    refine Nat.lt_of_lt_of_le ?_ (le_total_of_mem (fun q : Property => q.weight) hp)
    rw [total, total, Nat.add_zero]
    exact hweight _ p rfl hp
  · simp only [not_forall, Bool.not_eq_true] at hsome
    obtain ⟨p, hp, hinherits⟩ := hsome
    have hother : p ∈ parts.filter (!inheritsAll ·) := List.mem_filter.mpr ⟨hp, by simp [hinherits]⟩
    have hle := le_total_of_mem (fun q : Property => q.weight) hother
    have hlt := hweight { blank d important position components with value } p rfl hp
    have hsplit := total_filter (fun q : Property => q.weight) inheritsAll parts
    have hrepeated : total ((fun q : Property => q.weight) ∘ fun q => { q with position })
        (parts.filter inheritsAll) = total (fun q : Property => q.weight) (parts.filter inheritsAll) :=
      total_congr _ fun q _ => Declaration.weight_congr rfl
    rw [total, total_map, hrepeated]
    simp only at hle hlt hsplit ⊢
    omega

theorem mergeAll_lighter_weight (config : Config) (ps : List Property) :
    Lightened liveWeight (mergeAll config ps) ps := by
  refine mergeAll_lighter ?_ ps
  intro d qs qs' parts merged hd hof
  obtain ⟨hrow, hne⟩ := mem_mergeOrder hd
  obtain ⟨important, position, hassemble⟩ := hof.assembled
  refine assemble?_lighter hrow hof.names ?_ hassemble
  rintro rfl
  exact hne hof.names.symm

end Merging

section Collapsing

theorem collapse_shorter (profile : Profile) (p : Property) :
    p.collapse profile = p ∨ (p.collapse profile).unused = p.unused ∧
      (p.collapse profile).name = p.name ∧ (p.collapse profile).value.length < p.value.length := by
  rcases collapse_eq_or profile p with hsame | ⟨value, hvalue, -, -, hshorter, -⟩
  · exact .inl hsame
  · rw [hvalue]
    exact .inr ⟨rfl, rfl, hshorter⟩

/-- Collapsing keeps the weight, and takes tokens off unless it changes nothing. -/
theorem bulk_collapse (profile : Profile) (ps : List Property) :
    Body.weight (unwrapAll (ps.map (collapse profile))) = Body.weight (unwrapAll ps) ∧
      (unwrapAll (ps.map (collapse profile)) = unwrapAll ps ∨
        Body.tokenCount (unwrapAll (ps.map (collapse profile))) < Body.tokenCount (unwrapAll ps)) := by
  induction ps with
  | nil => exact ⟨rfl, .inl rfl⟩
  | cons p ps ih =>
      obtain ⟨hweight, htokens⟩ := ih
      rw [List.map_cons, unwrapAll_cons, unwrapAll_cons]
      rcases collapse_shorter profile p with hsame | ⟨hunused, hname, hshorter⟩
      · rw [hsame]
        cases p.unused with
        | true => exact ⟨hweight, htokens⟩
        | false =>
            simp only [Body.weight, Body.tokenCount, total, Bool.false_eq_true, if_false] at hweight htokens ⊢
            refine ⟨by omega, htokens.imp (fun h => by rw [h]) fun h => by omega⟩
      · rw [hunused]
        cases p.unused with
        | true => exact ⟨hweight, htokens⟩
        | false =>
            have hpweight : (p.collapse profile).weight = p.weight := Declaration.weight_congr hname
            have hle : Body.tokenCount (unwrapAll (ps.map (collapse profile)))
                ≤ Body.tokenCount (unwrapAll ps) := by
              rcases htokens with h | h
              · rw [h]
              · exact Nat.le_of_lt h
            simp only [Body.weight, Body.tokenCount, total, Bool.false_eq_true, if_false] at hweight hle ⊢
            exact ⟨by omega, .inr (by omega)⟩

end Collapsing

end Property

namespace Body

theorem bulk_lt_of_weight_lt {as bs : List Declaration} (h : weight as < weight bs) : bulk as < bulk bs :=
  Prod.Lex.toLex_lt_toLex.mpr (.inl h)

theorem judged_lighter (config : Config) (ds : List Declaration) :
    Lightened Property.liveWeight (judged config ds) (Property.wrapAll config.profile ds) := by
  refine (closed_true config).judged_lighter (fun p => p.weight_pos) ?_ fun _ _ _ => trivial
  intro _ e mid r merged _ _ _ _ h
  have hname : merged.weight = e.weight := Declaration.weight_congr (Property.name_of_foldInto h)
  have hpos := r.weight_pos
  omega

/-- A round leaves a body as it is or takes something off it. -/
theorem round_lighter (config : Config) (ds : List Declaration) : Lightened bulk (round config ds) ds := by
  have hjudged := judged_lighter config ds
  rw [round_eq]
  split
  · have hmerged := (Property.mergeAll_lighter_weight config (judged config ds)).trans hjudged
    obtain ⟨hweight, htokens⟩ :=
      Property.bulk_collapse config.profile (Property.mergeAll config (judged config ds))
    have hlightened : Lightened weight (Property.unwrapAll (Property.mergeAll config (judged config ds))) ds :=
      lightened_unwrapAll hmerged
    rcases hlightened with hsame | hlt
    · rw [hsame] at hweight htokens
      exact htokens.imp id fun h => Prod.Lex.toLex_lt_toLex.mpr (.inr ⟨hweight, h⟩)
    · rw [← hweight] at hlt
      exact .inr (bulk_lt_of_weight_lt hlt)
  · exact (lightened_unwrapAll hjudged).imp id bulk_lt_of_weight_lt

section Settle

variable {α β : Type} [DecidableEq α] [Preorder β] {step : α → α} {measure : α → β}

theorem settle_lighter (h : ∀ a, Lightened measure (step a) a) (rounds : Nat) (a : α) :
    Lightened measure (settle step rounds a) a := by
  induction rounds generalizing a with
  | zero => exact .inl rfl
  | succ rounds ih =>
      rw [settle]
      split
      · exact .inl rfl
      · exact (ih (step a)).trans (h a)

/-- Where every change takes something off, what comes back from some rounds was left alone by the first. -/
theorem settle_eq_self_iff (h : ∀ a, Lightened measure (step a) a) (rounds : Nat) (a : α) :
    settle step (rounds + 1) a = a ↔ step a = a := by
  rw [settle]
  split
  · next hsame => exact iff_of_true rfl hsame
  next hchanged =>
  refine iff_of_false (fun hback => ?_) hchanged
  have hlt := (h a).resolve_left hchanged
  rcases settle_lighter h rounds (step a) with hsame | hlt'
  · exact hchanged (hsame ▸ hback)
  · rw [hback] at hlt'
    exact lt_irrefl _ (hlt'.trans hlt)

end Settle

theorem weight_map_minify (profile : Profile) (ds : List Declaration) :
    weight (ds.map (Declaration.minify profile)) = weight ds := by
  rw [weight, weight, total_map]
  refine total_congr _ fun d _ => Declaration.weight_congr ?_
  rw [Declaration.minify]
  split <;> rfl

theorem weight_optimize_le (config : Config) (ds : List Declaration) :
    weight (optimize config ds) ≤ weight ds := by
  have hle := settle_lighter (round_lighter config) maxRounds (ds.map (Declaration.minify config.profile))
  rw [← weight_map_minify config.profile ds, optimize]
  rcases hle with h | h
  · rw [h]
  · rcases Prod.Lex.toLex_lt_toLex.mp h with h | h
    · exact Nat.le_of_lt h
    · exact Nat.le_of_eq h.1

end Body

end CssMinify
