import CssMinify.Proofs.Size.Sheets
import CssMinify.Proofs.Stability.Weight
import Mathlib.Data.Prod.Lex
import Mathlib.Order.WellFounded

/-! Rounds over a body cannot go in circles. A fold may take more bytes than the two declarations it is made
of, and a merge may leave as many declarations as it takes; but the one leaves fewer declarations, and the
other takes fewer bytes. So a round goes down in the number of declarations first and in bytes second, and
rounds without a limit on their number come to rest. -/

namespace CssMinify

theorem total_one {α : Type} (as : List α) : total (fun _ => 1) as = as.length := by
  induction as with
  | nil => rfl
  | cons a as ih => rw [total, ih, List.length_cons, Nat.add_comm]

namespace Property

theorem length_unwrapAll (ps : List Property) : (unwrapAll ps).length = liveTotal (fun _ => 1) ps := by
  rw [← total_one, total_unwrapAll]

theorem bodySize_unwrapAll (ps : List Property) :
    Hoist.bodySize (unwrapAll ps) = liveTotal (fun p => p.size + 1) ps :=
  total_unwrapAll _ ps

/-- Merging changes nothing, or leaves no more declarations and fewer bytes. -/
theorem mergeAll_shorter (config : Config) (ps : List Property) :
    mergeAll config ps = ps ∨ (unwrapAll (mergeAll config ps)).length ≤ (unwrapAll ps).length ∧
      Hoist.bodySize (unwrapAll (mergeAll config ps)) < Hoist.bodySize (unwrapAll ps) := by
  refine mergeAll_induction (P := fun qs => qs = ps ∨ (unwrapAll qs).length ≤ (unwrapAll ps).length ∧
    Hoist.bodySize (unwrapAll qs) < Hoist.bodySize (unwrapAll ps)) ?_ (.inl rfl)
  intro d qs qs' parts merged _ hof hqs
  have hcount := hof.lighter fun _ => 1
  have hbytes := hof.lighter fun p => p.size + 1
  have hlength := hof.length_le
  have hsize := total_merged_lt hof
  rw [total_one, total_one] at hcount
  simp only [length_unwrapAll, bodySize_unwrapAll] at hqs ⊢
  right
  rcases hqs with rfl | ⟨hcount', hbytes'⟩
  · exact ⟨by omega, by omega⟩
  · exact ⟨by omega, by omega⟩

end Property

namespace Body

open Property

/-- How many declarations a body has, and how many bytes its text. -/
def tally (ds : List Declaration) : Nat ×ₗ Nat :=
  toLex (ds.length, Text.byteLength (Declaration.printBody ds))

section Tally

variable {as bs : List Declaration}

theorem tally_lt_of_length_lt (h : as.length < bs.length) : tally as < tally bs :=
  Prod.Lex.toLex_lt_toLex.mpr (.inl h)

/-- The semicolon that the last declaration lacks makes no difference. -/
theorem tally_lt_of_bodySize_lt (hlength : as.length ≤ bs.length) (h : Hoist.bodySize as < Hoist.bodySize bs) :
    tally as < tally bs := by
  rcases Nat.lt_or_eq_of_le hlength with hless | hsame
  · exact tally_lt_of_length_lt hless
  · apply Prod.Lex.toLex_lt_toLex.mpr
    refine .inr ⟨hsame, ?_⟩
    have hne : as ≠ [] := by
      rintro rfl
      rw [List.length_nil, eq_comm, List.length_eq_zero_iff] at hsame
      rw [hsame] at h
      exact Nat.lt_irrefl _ h
    have hpos := Hoist.bodySize_pos hne
    rw [Declaration.byteLength_printBody, Declaration.byteLength_printBody]
    omega

end Tally

/-- Judging a body leaves it as it is or takes declarations out of it. -/
theorem tally_judged (config : Config) (ds : List Declaration) :
    Lightened tally (unwrapAll (judged config ds)) ds := by
  have hlighter : Lightened (liveTotal fun _ => 1) (judged config ds) (wrapAll config.profile ds) := by
    apply (closed_true config).judged_lighter (fun _ => Nat.one_pos)
    · intro _ e mid r merged _ _ _ _ _
      exact Nat.one_lt_two
    · exact fun _ _ _ => trivial
  have hcount : Lightened (total fun _ => 1) (unwrapAll (judged config ds)) ds := lightened_unwrapAll hlighter
  rcases hcount with hsame | hless
  · exact .inl hsame
  · rw [total_one, total_one] at hless
    exact .inr (tally_lt_of_length_lt hless)

/-- A round leaves a body as it is or brings it down. -/
theorem tally_round (config : Config) (ds : List Declaration) : Lightened tally (round config ds) ds := by
  have hjudged := tally_judged config ds
  rw [round_eq]
  split
  · have hmerged : Lightened tally (unwrapAll (mergeAll config (judged config ds)))
        (unwrapAll (judged config ds)) := by
      rcases mergeAll_shorter config (judged config ds) with hsame | ⟨hlength, hbytes⟩
      · exact .inl (by rw [hsame])
      · exact .inr (tally_lt_of_bodySize_lt hlength hbytes)
    obtain ⟨hlength, hbytes⟩ := collapse_lighter (tight_mergeAll config ds) config.profile
    have hcollapsed := hbytes.imp id (tally_lt_of_bodySize_lt hlength.le)
    exact Lightened.trans hcollapsed (hmerged.trans hjudged)
  · exact hjudged

theorem length_optimize_le (config : Config) (ds : List Declaration) : (optimize config ds).length ≤ ds.length := by
  have hle : (optimize config ds).length ≤ (ds.map (Declaration.minify config.profile)).length := by
    rw [optimize]
    rcases settle_lighter (tally_round config) maxRounds (ds.map (Declaration.minify config.profile)) with
      hsame | hless
    · rw [hsame]
    · rcases Prod.Lex.toLex_lt_toLex.mp hless with hlength | ⟨hlength, -⟩
      · exact hlength.le
      · exact hlength.le
  rwa [List.length_map] at hle

/-- A round either gives back the body it got, or one with fewer declarations, or one with as many of them and
with a shorter text; so rounds that are made one after the other, however many it takes, come to a body that a
further round leaves as it is. -/
theorem round_descends (config : Config) :
    (∀ ds, round config ds = ds ∨
      toLex ((round config ds).length, Text.byteLength (Declaration.printBody (round config ds)))
        < toLex (ds.length, Text.byteLength (Declaration.printBody ds))) ∧
      ∀ ds, ∃ n, round config ((round config)^[n] ds) = (round config)^[n] ds := by
  refine ⟨tally_round config, fun ds => ?_⟩
  -- The tallies of the bodies that come one after the other cannot go down forever.
  obtain ⟨n, hn⟩ := WellFounded.not_rel_apply_succ (r := (· < ·)) fun n => tally ((round config)^[n] ds)
  rw [Function.iterate_succ_apply'] at hn
  exact ⟨n, (tally_round config _).resolve_right hn⟩

end Body

end CssMinify
