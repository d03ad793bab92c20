import CssMinify.Proofs.Effect.Coverage
import CssMinify.Property.Body

/-!
Optimizing a body changes nothing that it does: whatever hacks an engine reads, every longhand gets what it
got before.
-/

namespace CssMinify

namespace Property

section Collapse

variable {profile : Profile} {reads : Hack → Bool} {longhand : String}

/-- What is collapsed keeps its components, and its new value splits into them. -/
theorem collapse_cases (profile : Profile) (p : Property) :
    p.collapse profile = p ∨
      ∃ value, p.collapse profile = { p with value, rebuilt := true } ∧ p.unused = false ∧
        p.components ≠ [] ∧ p.verifies profile value = true := by
  simp only [collapse]
  split
  · exact .inl rfl
  next hguard =>
  simp only [Bool.or_eq_true, Bool.not_eq_true', not_or, Bool.not_eq_false] at hguard
  obtain ⟨⟨⟨⟨hlive, -⟩, -⟩, -⟩, hanalysed⟩ := hguard
  split
  · next value _ =>
      split
      · next hvalue =>
          simp only [Bool.and_eq_true] at hvalue
          refine .inr ⟨value, rfl, by simpa using hlive, ?_, hvalue.2⟩
          intro hnil
          simp [isAnalysed, hnil] at hanalysed
      · exact .inl rfl
  · exact .inl rfl

/-- Collapsing keeps what a property claims, unless something that follows sets it again. -/
theorem settledClaim_collapse {p : Property} {ps : List Property} (hp : p.unused = false → Steady profile p)
    (hcovered : Covered (p :: ps)) :
    (p.collapse profile).settledClaim profile reads longhand = p.settledClaim profile reads longhand ∨
      ∃ q ∈ ps, q.Covers p longhand ∧ p.unused = false ∧ longhand ∈ p.leafNames := by
  rcases collapse_cases profile p with hsame | ⟨value, hcollapse, hlive, hne, hverifies⟩
  · exact .inl (by rw [hsame])
  by_cases hmem : longhand ∈ p.leafNames
  · have hsteady := hp hlive
    have hknown : p.isOpaque = false := isOpaque_of_components_ne_nil hne
    obtain ⟨leaf, hleaf, rfl⟩ := (mem_leafNames_iff (hsteady.regular hknown)).mp hmem
    cases hfree : leaf.free with
    | true =>
        obtain ⟨q, hq, hcovers⟩ := hcovered.1 hlive leaf hleaf hfree
        exact .inr ⟨q, hq, hcovers, hlive, hmem⟩
    | false =>
        left
        let p' : Property := { p with value, rebuilt := true }
        have hsteady' : Steady profile p' := steady_of_verifies hverifies (hsteady.regular hknown) hne rfl rfl
        have hleaf' : leaf ∈ p'.leaves := leaves_congr (p := p) (q := p') rfl hne ▸ hleaf
        rw [hcollapse, hsteady.settledClaim_eq hlive hknown hleaf hfree]
        exact hsteady'.settledClaim_eq hlive hknown hleaf' hfree
  · left
    rw [hcollapse, settledClaim_of_not_mem hmem]
    exact settledClaim_of_not_mem hmem

theorem rank_settledClaim_collapse {p : Property} (hlive : p.unused = false) (hmem : longhand ∈ p.leafNames) :
    ((p.collapse profile).settledClaim profile reads longhand).rank
      = (p.settledClaim profile reads longhand).rank := by
  have hself : p.Covers p longhand := ⟨hlive, rfl, rfl, hmem⟩
  have hcollapse : (p.collapse profile).Covers p longhand := by
    rcases collapse_cases profile p with hsame | ⟨_, hcollapse, -⟩
    · rw [hsame]
      exact hself
    · rw [hcollapse]
      exact ⟨hlive, rfl, rfl, hmem⟩
  exact hcollapse.rank_settledClaim profile reads hlive hmem

/-- Collapsing all the properties keeps the winner of every longhand. -/
theorem settledWinner_collapse {ps : List Property} (hps : Sound profile ps) :
    settledWinner profile reads longhand (ps.map (collapse profile))
      = settledWinner profile reads longhand ps := by
  obtain ⟨hsteady, hcovered⟩ := hps
  induction ps with
  | nil => rfl
  | cons p ps ih =>
      rw [List.map_cons, settledWinner_cons, settledWinner_cons,
        ih (fun q hq => hsteady q (List.mem_cons_of_mem p hq)) hcovered.2]
      rcases settledClaim_collapse (hsteady p List.mem_cons_self) hcovered with
        hsame | ⟨q, hq, hcovers, hlive, hmem⟩
      · rw [hsame]
      · have hrank := hcovers.rank_settledClaim profile reads hlive hmem
        have hrank' : ((p.collapse profile).settledClaim profile reads longhand).rank
            = (p.settledClaim profile reads longhand).rank := rank_settledClaim_collapse hlive hmem
        have hle : (q.settledClaim profile reads longhand).rank
            ≤ (settledWinner profile reads longhand ps).rank := rank_le_rank_settledWinner hq
        rw [Claim.andThen_of_rank_le (by omega), Claim.andThen_of_rank_le (by omega)]

end Collapse

theorem settledWinner_eq_mapSetting (profile : Profile) (reads : Hack → Bool) (longhand : String)
    (ps : List Property) :
    settledWinner profile reads longhand ps
      = (Claim.winner (ps.map (claim profile (fun d => reads d.hack) longhand))).mapSetting
          Setting.settled := by
  rw [Claim.mapSetting_winner, List.map_map, settledWinner]
  rfl

end Property

namespace Body

/-- What the declarations of a body come to for a longhand. -/
def settledWinner (profile : Profile) (reads : Hack → Bool) (longhand : String) (ds : List Declaration) :
    Claim :=
  (Claim.winner (ds.map (Declaration.claim profile (fun d => reads d.hack) longhand))).mapSetting
    Setting.settled

theorem settledWinner_unwrapAll (profile : Profile) (reads : Hack → Bool) (longhand : String)
    (ps : List Property) :
    settledWinner profile reads longhand (Property.unwrapAll ps)
      = Property.settledWinner profile reads longhand ps := by
  rw [settledWinner, Property.winner_unwrapAll, Property.settledWinner_eq_mapSetting]

/-- A round over a body keeps the winner of every longhand. -/
theorem settledWinner_round (config : Config) (reads : Hack → Bool) (longhand : String)
    (ds : List Declaration) :
    settledWinner config.profile reads longhand (round config ds)
      = settledWinner config.profile reads longhand ds := by
  let wrapped := Property.wrapAll config.profile ds
  have hwrapped : Property.settledWinner config.profile reads longhand wrapped
      = settledWinner config.profile reads longhand ds := by
    rw [← settledWinner_unwrapAll, Property.unwrapAll_wrapAll]
  obtain ⟨hunique, hunique'⟩ :=
    Property.removeDuplicates_keeps reads (Property.allFaithful_wrapAll config.profile ds)
  have hoverridden : ∃ ps, ps = (if config.options.overrideProperties then
        Property.overrideAll config (Property.removeDuplicates wrapped)
      else Property.removeDuplicates wrapped) ∧ Property.AllFaithful config.profile ps ∧
      Property.settledWinner config.profile reads longhand ps
        = settledWinner config.profile reads longhand ds := by
    refine ⟨_, rfl, ?_⟩
    split
    · obtain ⟨hfaithful, hkeeps⟩ := Property.overrideAll_keeps config reads hunique
      refine ⟨hfaithful, ?_⟩
      rw [Property.settledWinner_eq_mapSetting, hkeeps, hunique', ← Property.settledWinner_eq_mapSetting,
        hwrapped]
    · refine ⟨hunique, ?_⟩
      rw [Property.settledWinner_eq_mapSetting, hunique', ← Property.settledWinner_eq_mapSetting, hwrapped]
  obtain ⟨ps, hps, hfaithful, hkeeps⟩ := hoverridden
  simp only [round]
  rw [settledWinner_unwrapAll, ← hps, ← hkeeps]
  split
  · obtain ⟨hsound, hmerged⟩ := Property.mergeAll_keeps config hfaithful.sound
    rw [Property.settledWinner_collapse hsound, hmerged]
  · rfl

theorem settledWinner_settle (config : Config) (reads : Hack → Bool) (longhand : String) (rounds : Nat)
    (ds : List Declaration) :
    settledWinner config.profile reads longhand (settle (round config) rounds ds)
      = settledWinner config.profile reads longhand ds := by
  induction rounds generalizing ds with
  | zero => rfl
  | succ rounds ih =>
      simp only [settle]
      split
      · rfl
      · rw [ih, settledWinner_round]

theorem settledWinner_optimize (config : Config) (reads : Hack → Bool) (longhand : String)
    (ds : List Declaration) :
    settledWinner config.profile reads longhand (optimize config ds)
      = settledWinner config.profile reads longhand (ds.map (Declaration.minify config.profile)) := by
  rw [optimize, settledWinner_settle]

/-- A body that holds something does something. -/
theorem exists_settledWinner_ne_none (profile : Profile) {ds : List Declaration} (h : ds ≠ []) :
    ∃ longhand, settledWinner profile (fun _ => true) longhand ds ≠ none := by
  obtain ⟨d, hd⟩ := List.exists_mem_of_ne_nil ds h
  let p := Property.wrap profile d 0
  obtain ⟨longhand, hlonghand⟩ := List.exists_mem_of_ne_nil p.leafNames (Property.leafNames_ne_nil p)
  refine ⟨longhand, fun hnone => ?_⟩
  have hmem : d.claim profile (fun _ => true) longhand
      ∈ ds.map (Declaration.claim profile (fun _ => true) longhand) := List.mem_map_of_mem hd
  have hrank := Claim.rank_le_rank_winner hmem
  have hwinner : Claim.winner (ds.map (Declaration.claim profile (fun _ => true) longhand)) = none :=
    Option.map_eq_none_iff.mp hnone
  have hclaim : p.claim profile (fun _ => true) longhand = d.claim profile (fun _ => true) longhand := by
    rw [Property.claim_of_live (Property.unused_wrap profile d 0), Property.toDeclaration_wrap]
  rw [hwinner, ← hclaim, Property.rank_claim (Property.unused_wrap profile d 0) rfl hlonghand] at hrank
  split at hrank <;> cases hrank

/-- Nothing is left of a body just when there was nothing. -/
theorem optimize_eq_nil_iff (config : Config) (ds : List Declaration) : optimize config ds = [] ↔ ds = [] := by
  constructor
  · intro hnil
    by_contra hne
    have hne' : ds.map (Declaration.minify config.profile) ≠ [] := by simpa using hne
    obtain ⟨longhand, hsome⟩ := exists_settledWinner_ne_none config.profile hne'
    rw [← settledWinner_optimize, hnil] at hsome
    exact hsome rfl
  · rintro rfl
    by_contra hne
    obtain ⟨longhand, hsome⟩ := exists_settledWinner_ne_none config.profile hne
    rw [settledWinner_optimize] at hsome
    exact hsome rfl

theorem effective?_settled (profile : Profile) (reads : Hack → Bool) (longhand : String)
    (ds : List Declaration) :
    (effective? profile (fun d => reads d.hack) ds longhand).map Setting.settled
      = (settledWinner profile reads longhand ds).map Prod.snd := by
  rw [effective?_eq, settledWinner, Claim.mapSetting, Option.map_map, Option.map_map]
  rfl

/-- An optimized body gives to every longhand what the body with minified values gives to it, whatever
hacks are read. -/
theorem effective?_optimize (config : Config) (reads : Hack → Bool) (ds : List Declaration)
    (longhand : String) :
    (effective? config.profile (fun d => reads d.hack) (optimize config ds) longhand).map Setting.settled
      = (effective? config.profile (fun d => reads d.hack) (ds.map (Declaration.minify config.profile))
          longhand).map Setting.settled := by
  rw [effective?_settled, effective?_settled, settledWinner_optimize]

end Body

end CssMinify
