import CssMinify.Optimizer
import CssMinify.Proofs.Effect.Body
import CssMinify.Proofs.Size.Tokens

/-!
Frames of animations. Important declarations count for nothing there, but a frame is optimized like any other
body, in which they win. So a longhand keeps what the normal declarations of a frame give to it unless an
important one sets it too.
-/

namespace CssMinify

theorem Declaration.setting?_minify_eq_none_iff (profile : Profile) (d : Declaration) (longhand : String) :
    (d.minify profile).setting? profile longhand = none ↔ d.setting? profile longhand = none := by
  have hleaf : (Property.wrap profile (d.minify profile) 0).leafNames = (Property.wrap profile d 0).leafNames :=
    Property.leafNames_congr (by rw [Property.toDeclaration_wrap, Property.toDeclaration_wrap, name_minify])
  have hset (d : Declaration) := isSome_setting? profile (Property.wrap profile d 0) longhand
  simp only [Property.toDeclaration_wrap] at hset
  rw [← Option.not_isSome_iff_eq_none, ← Option.not_isSome_iff_eq_none, hset, hset, hleaf]

namespace Body

/-- What a longhand gets from a frame: the setting of the last declaration that is read and not important. -/
def inFrame? (profile : Profile) (reads : Hack → Bool) (declarations : List Declaration) (longhand : String) :
    Option Setting :=
  lastSetting? profile ((declarations.filter fun d => reads d.hack).filter (!·.important)) longhand

/-- An important declaration that is read sets the longhand. -/
def IsOutranked (profile : Profile) (reads : Hack → Bool) (declarations : List Declaration) (longhand : String) :
    Prop :=
  ∃ d ∈ declarations, d.important = true ∧ reads d.hack = true ∧ d.setting? profile longhand ≠ none

variable {profile : Profile} {reads : Hack → Bool} {ds ds' : List Declaration} {longhand : String}

theorem lastSetting?_eq_none_iff :
    lastSetting? profile ds longhand = none ↔ ∀ d ∈ ds, d.setting? profile longhand = none := by
  rw [lastSetting?, List.getLast?_eq_none_iff, List.filterMap_eq_nil_iff]

theorem isOutranked_iff : IsOutranked profile reads ds longhand ↔
    lastSetting? profile ((ds.filter fun d => reads d.hack).filter (·.important)) longhand ≠ none := by
  rw [ne_eq, lastSetting?_eq_none_iff]
  simp only [IsOutranked, List.mem_filter, not_forall]
  constructor
  · rintro ⟨d, hd, himportant, hreads, hset⟩
    exact ⟨d, ⟨⟨hd, hreads⟩, himportant⟩, hset⟩
  · rintro ⟨d, ⟨⟨hd, hreads⟩, himportant⟩, hset⟩
    exact ⟨d, hd, himportant, hreads, hset⟩

theorem isOutranked_map_minify : IsOutranked profile reads (ds.map (Declaration.minify profile)) longhand ↔
    IsOutranked profile reads ds longhand := by
  have himportant (d : Declaration) : (d.minify profile).important = d.important := by
    rw [Declaration.minify]
    split <;> rfl
  have hhack (d : Declaration) : (d.minify profile).hack = d.hack := by
    rw [Declaration.minify]
    split <;> rfl
  simp only [IsOutranked, List.mem_map, exists_exists_and_eq_and, himportant, hhack, ne_eq,
    Declaration.setting?_minify_eq_none_iff]

/-- What wins is important just where the longhand is outranked; where it is not, the frame gives it what wins. -/
theorem rank_settledWinner : (settledWinner profile reads longhand ds).rank = 2 ↔
    IsOutranked profile reads ds longhand := by
  rw [settledWinner, Claim.rank_mapSetting, winner_claims, isOutranked_iff]
  cases lastSetting? profile ((ds.filter fun d => reads d.hack).filter (·.important)) longhand with
  | some s => simp [Claim.rank]
  | none =>
      cases lastSetting? profile ((ds.filter fun d => reads d.hack).filter (!·.important)) longhand <;>
        simp [Claim.rank]

theorem inFrame?_settled (h : ¬ IsOutranked profile reads ds longhand) :
    (inFrame? profile reads ds longhand).map Setting.settled
      = (settledWinner profile reads longhand ds).map Prod.snd := by
  rw [isOutranked_iff, not_not] at h
  rw [settledWinner, winner_claims, h, inFrame?, Claim.mapSetting, Option.map_map, Option.map_map]
  rfl

/-- Bodies that come to the same outrank the same, and as frames they give the same to what is not outranked. -/
theorem inFrame?_of_settledWinner
    (h : settledWinner profile reads longhand ds' = settledWinner profile reads longhand ds) :
    (IsOutranked profile reads ds' longhand ↔ IsOutranked profile reads ds longhand) ∧
      (¬ IsOutranked profile reads ds longhand →
        (inFrame? profile reads ds' longhand).map Setting.settled
          = (inFrame? profile reads ds longhand).map Setting.settled) := by
  have houtranked : IsOutranked profile reads ds' longhand ↔ IsOutranked profile reads ds longhand := by
    rw [← rank_settledWinner, h, rank_settledWinner]
  refine ⟨houtranked, fun hds => ?_⟩
  rw [inFrame?_settled hds, inFrame?_settled (houtranked.not.mpr hds), h]

end Body

namespace Node

/-- Frames with the same head: to what no important declaration sets, the second gives what the first gives with its
values minified. -/
inductive SameFrame (config : Config) : Node → Node → Prop
  | rule (r : Rule) (declarations : List Declaration)
      (outranked : ∀ reads longhand, Body.IsOutranked config.profile reads declarations longhand ↔
        Body.IsOutranked config.profile reads r.declarations longhand)
      (same : ∀ reads longhand, ¬ Body.IsOutranked config.profile reads r.declarations longhand →
        (Body.inFrame? config.profile reads declarations longhand).map Setting.settled
          = (Body.inFrame? config.profile reads (r.declarations.map (Declaration.minify config.profile))
              longhand).map Setting.settled) :
      SameFrame config (.rule r) (.rule { r with declarations })
  /-- What is no frame stays as it is. -/
  | other (node : Node) (h : ∀ r, node ≠ .rule r) : SameFrame config node node

theorem sameFrame_optimizeFrame (config : Config) (node : Node) :
    SameFrame config node (node.optimizeFrame config) := by
  cases node with
  | rule r =>
      have hsame (reads : Hack → Bool) (longhand : String) := Body.inFrame?_of_settledWinner
        (Body.settledWinner_optimize config reads longhand r.declarations)
      simp only [Body.isOutranked_map_minify] at hsame
      exact .rule r _ (fun reads longhand => (hsame reads longhand).1) fun reads longhand => (hsame reads longhand).2
  | block head children => exact .other _ (by simp)
  | fields head declarations => exact .other _ (by simp)
  | statement text => exact .other _ (by simp)
  | comment text => exact .other _ (by simp)

/-- Optimizing the frames of an animation keeps what they give to every longhand that no important declaration in them
sets, whatever hacks are read. -/
theorem sameFrame_optimize (config : Config) {head : String} (hhead : isKeyframesHead head = true)
    (frames : List Node) (inner : List Node → Attempt (List Node)) :
    ∃ frames', optimize config inner (.block head frames) = .ok (.block head frames') ∧
      List.Forall₂ (SameFrame config) frames frames' := by
  refine ⟨frames.map (optimizeFrame config), by rw [optimize, if_pos hhead], ?_⟩
  rw [List.forall₂_map_right_iff, List.forall₂_same]
  exact fun frame _ => sameFrame_optimizeFrame config frame

/-- The left side of this frame is not set by an important declaration, so it keeps its last value. -/
theorem sameFrame_optimize_left :
    let config : Config := {}
    let left (value : String) : Declaration := { name := "left", value := [value] }
    let frame : Rule :=
      { selectors := ["from"]
        declarations := [left "1px", { name := "top", value := ["0"], important := true }, left "2px"] }
    isKeyframesHead "@keyframes k" = true ∧
      ∃ r, optimize config .ok (.block "@keyframes k" [.rule frame]) = .ok (.block "@keyframes k" [.rule r]) ∧
        (Body.inFrame? config.profile (fun _ => true) r.declarations "left").map Setting.settled
          = some (.own ["2px"]) := by
  intro config left frame
  refine ⟨by decide +kernel, ?_⟩
  obtain ⟨frames, hframes, hsame⟩ :=
    sameFrame_optimize config (by decide +kernel : isKeyframesHead "@keyframes k" = true) [.rule frame] .ok
  obtain ⟨node, rest, hnode, hrest, rfl⟩ := List.forall₂_cons_left_iff.mp hsame
  rw [List.forall₂_nil_left_iff.mp hrest] at hframes
  cases hnode with
  | other _ h => exact absurd rfl (h frame)
  | rule _ declarations _ hkept =>
      refine ⟨_, hframes, (hkept (fun _ => true) "left" ?_).trans (by decide +kernel)⟩
      rw [Body.isOutranked_iff, not_not]
      decide +kernel

/-- The important declaration of a frame drops the normal one before it, which is the one that counts. -/
theorem optimizeFrame_outranked :
    let config : Config := {}
    let top : Declaration := { name := "top", value := ["0"] }
    let frame : Rule := { selectors := ["from"], declarations := [top, { top with important := true }] }
    optimizeFrame config (.rule frame) = .rule { frame with declarations := [{ top with important := true }] } ∧
      Body.inFrame? config.profile (fun _ => true) (frame.declarations.map (Declaration.minify config.profile)) "top"
        = some (.own ["0"]) ∧
      Body.inFrame? config.profile (fun _ => true) [{ top with important := true }] "top" = none := by
  decide +kernel

end Node

end CssMinify
