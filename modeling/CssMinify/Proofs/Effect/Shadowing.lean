import CssMinify.Proofs.Effect.Longhands

/-!
Comparing the declarations of a body in pairs changes nothing that the body does. A verdict on a pair is
safe when what goes is overridden anyway, or is handed to a declaration before which nothing else sets it;
safe verdicts keep the winner of every longhand, one after the other.
-/

namespace CssMinify

namespace Property

/-- What a property claims for a longhand. A dead one claims nothing. -/
def claim (profile : Profile) (reads : Declaration → Bool) (longhand : String) (p : Property) : Claim :=
  if p.unused then none else p.toDeclaration.claim profile reads longhand

section Claims

variable {profile : Profile} {reads : Declaration → Bool} {longhand : String}

theorem claim_of_unused {p : Property} (h : p.unused = true) : p.claim profile reads longhand = none := by
  rw [claim, if_pos h]

theorem claim_of_live {p : Property} (h : p.unused = false) :
    p.claim profile reads longhand = p.toDeclaration.claim profile reads longhand := by
  rw [claim, if_neg (by simp [h])]

theorem claim_eq_none_of_not_mem {p : Property} (h : longhand ∉ p.leafNames) :
    p.claim profile reads longhand = none := by
  rw [claim, Declaration.claim, Declaration.setting?_eq_none profile h]
  split
  · rfl
  · split <;> rfl

/-- A claim is as high as its importance. -/
theorem rank_claim {p : Property} (hlive : p.unused = false) (hreads : reads p.toDeclaration = true)
    (hmem : longhand ∈ p.leafNames) :
    (p.claim profile reads longhand).rank = if p.important then 2 else 1 := by
  obtain ⟨s, hs⟩ := Option.isSome_iff_exists.mp ((Declaration.isSome_setting? profile p longhand).mpr hmem)
  rw [claim_of_live hlive, Declaration.claim, if_pos hreads, hs, Option.map_some]
  cases p.important <;> rfl

/-- A property that is read whenever another is, is important whenever that one is and sets what that one
sets claims at least as much. -/
theorem rank_claim_le {p q : Property} (hlive : q.unused = false)
    (hreads : reads p.toDeclaration = true → reads q.toDeclaration = true)
    (himportant : p.important = true → q.important = true) (hleaf : p.leafNames ⊆ q.leafNames) :
    (p.claim profile reads longhand).rank ≤ (q.claim profile reads longhand).rank := by
  by_cases hp : p.unused = false ∧ reads p.toDeclaration = true ∧ longhand ∈ p.leafNames
  · rw [rank_claim hp.1 hp.2.1 hp.2.2, rank_claim hlive (hreads hp.2.1) (hleaf hp.2.2)]
    cases hi : p.important with
    | false => cases q.important <;> decide
    | true => simp [himportant hi]
  · have hnone : p.claim profile reads longhand = none := by
      by_cases hunused : p.unused = true
      · exact claim_of_unused hunused
      by_cases hmem : longhand ∈ p.leafNames
      · have hunread : ¬reads p.toDeclaration = true := fun h => hp ⟨by simpa using hunused, h, hmem⟩
        rw [claim_of_live (by simpa using hunused), Declaration.claim, if_neg hunread]
      · exact claim_eq_none_of_not_mem hmem
    rw [hnone]
    exact Nat.zero_le _

theorem unwrapAll_wrapAll (profile : Profile) (ds : List Declaration) :
    unwrapAll (wrapAll profile ds) = ds := by
  have hlive : ∀ p ∈ wrapAll profile ds, (!p.unused) = true := by
    intro p hp
    obtain ⟨⟨d, position⟩, -, rfl⟩ := List.mem_map.mp hp
    rw [unused_wrap]
    rfl
  have hdeclaration : ∀ q : Declaration × Nat, (wrap profile q.1 q.2).toDeclaration = q.1 :=
    fun q => toDeclaration_wrap profile q.1 q.2
  rw [unwrapAll, List.filter_eq_self.mpr hlive, wrapAll, List.map_map]
  exact (List.map_congr_left fun q _ => hdeclaration q).trans (List.zipIdx_map_fst 0 ds)

theorem winner_unwrapAll (profile : Profile) (reads : Declaration → Bool) (longhand : String)
    (ps : List Property) :
    Claim.winner ((unwrapAll ps).map (Declaration.claim profile reads longhand))
      = Claim.winner (ps.map (claim profile reads longhand)) := by
  induction ps with
  | nil => rfl
  | cons p ps ih =>
      rw [List.map_cons, Claim.winner_cons, ← ih]
      cases h : p.unused with
      | true => simp [unwrapAll, h, claim_of_unused h]
      | false => simp [unwrapAll, h, claim_of_live h]

end Claims

/-- What the two properties of a pair become. -/
def Verdict.outcome (earlier later : Property) : Verdict → Property × Property
  | keepBoth => (earlier, later)
  | dropEarlier => ({ earlier with unused := true }, later)
  | dropLater => (earlier, { later with unused := true })
  | foldInto merged => (merged, { later with unused := true })

theorem eq_append_of_getElem? {ps : List Property} {i j : Nat} {e r : Property} (hij : i < j)
    (he : ps[i]? = some e) (hr : ps[j]? = some r) :
    ps = ps.take i ++ e :: ((ps.take j).drop (i + 1) ++ r :: ps.drop (j + 1)) := by
  obtain ⟨hj, rfl⟩ := List.getElem?_eq_some_iff.mp hr
  obtain ⟨hi, rfl⟩ := List.getElem?_eq_some_iff.mp he
  have hcut : ps.take j = ps.take i ++ ps[i] :: (ps.take j).drop (i + 1) := by
    have hlength : i < (ps.take j).length := by
      rw [List.length_take]
      omega
    have h := (List.take_append_drop i (ps.take j)).symm
    rwa [List.take_take, Nat.min_eq_left (by omega), List.drop_eq_getElem_cons hlength,
      List.getElem_take] at h
  calc ps = ps.take j ++ ps.drop j := (List.take_append_drop j ps).symm
    _ = (ps.take i ++ ps[i] :: (ps.take j).drop (i + 1)) ++ ps[j] :: ps.drop (j + 1) := by
        rw [← hcut, List.drop_eq_getElem_cons hj]
    _ = _ := by simp

theorem set_of_getElem? {ps : List Property} {i : Nat} {p : Property} (h : ps[i]? = some p) :
    ps.set i p = ps := by
  obtain ⟨hi, rfl⟩ := List.getElem?_eq_some_iff.mp h
  exact List.set_getElem_self hi

/-- Changing the two properties of a pair leaves what stands before, between and after. -/
theorem set_set_eq_append {ps : List Property} {i j : Nat} {e r : Property} (hij : i < j)
    (he : ps[i]? = some e) (hr : ps[j]? = some r) (a b : Property) :
    (ps.set i a).set j b = ps.take i ++ a :: ((ps.take j).drop (i + 1) ++ b :: ps.drop (j + 1)) := by
  have hi := (List.getElem?_eq_some_iff.mp he).1
  have hj := (List.getElem?_eq_some_iff.mp hr).1
  have hpre : (ps.take i).length = i := by
    rw [List.length_take]
    omega
  have hmid : ((ps.take j).drop (i + 1)).length = j - i - 1 := by
    rw [List.length_drop, List.length_take]
    omega
  obtain ⟨k, hk⟩ : ∃ k, j - i = k + 1 := ⟨j - i - 1, by omega⟩
  conv_lhs => rw [eq_append_of_getElem? hij he hr]
  rw [List.set_append_right _ _ (by omega), List.set_append_right _ _ (by omega), hpre, Nat.sub_self,
    List.set_cons_zero, hk, List.set_cons_succ, List.set_append_right _ _ (by omega), hmid,
    show k - (j - i - 1) = 0 by omega, List.set_cons_zero]

/-- A pair and what a verdict makes of it, with what stands before, between and after. -/
theorem judgeAt_eq (judge : Property → List Property → Property → Verdict) (ps : List Property) {i j : Nat}
    (hij : i < j) :
    judgeAt judge ps (i, j) = ps ∨
      ∃ pre e mid r post, ps = pre ++ e :: (mid ++ r :: post) ∧ e.unused = false ∧ r.unused = false ∧
        judgeAt judge ps (i, j)
          = pre ++ ((judge e mid r).outcome e r).1 :: (mid ++ ((judge e mid r).outcome e r).2 :: post) := by
  cases he : ps[i]? with
  | none =>
      left
      simp [judgeAt, he]
  | some e =>
      cases hr : ps[j]? with
      | none =>
          left
          simp [judgeAt, he, hr]
      | some r =>
          by_cases hdead : (e.unused || r.unused) = true
          · left
            simp [judgeAt, he, hr, hdead]
          · right
            have hlive : e.unused = false ∧ r.unused = false := by simpa using hdead
            refine ⟨_, e, _, r, _, eq_append_of_getElem? hij he hr, hlive.1, hlive.2, ?_⟩
            rw [← set_set_eq_append hij he hr]
            simp only [judgeAt, he, hr, hdead, Bool.false_eq_true, if_false]
            cases judge e ((ps.take j).drop (i + 1)) r with
            | keepBoth => simp only [Verdict.outcome, set_of_getElem? he, set_of_getElem? hr]
            | dropEarlier =>
                have hr' : (ps.set i { e with unused := true })[j]? = some r := by
                  rw [List.getElem?_set_ne (by omega), hr]
                simp only [Verdict.outcome, set_of_getElem? hr']
            | dropLater => simp only [Verdict.outcome, set_of_getElem? he]
            | foldInto merged => rfl

theorem lt_of_mem_backwardPairs {count : Nat} {places : Nat × Nat} (h : places ∈ backwardPairs count) :
    places.1 < places.2 := by
  simp only [backwardPairs, List.mem_flatMap, List.mem_reverse, List.mem_range, List.mem_map] at h
  obtain ⟨later, -, earlier, hlt, rfl⟩ := h
  exact hlt

/-- What every verdict on a pair keeps, judging all the pairs keeps. -/
theorem judgeAll_induction {judge : Property → List Property → Property → Verdict}
    {P : List Property → Prop}
    (hstep : ∀ pre e mid r post, e.unused = false → r.unused = false →
      P (pre ++ e :: (mid ++ r :: post)) →
      P (pre ++ ((judge e mid r).outcome e r).1 :: (mid ++ ((judge e mid r).outcome e r).2 :: post)))
    {ps : List Property} (h : P ps) : P (judgeAll judge ps) := by
  have hfold : ∀ (pairs : List (Nat × Nat)) (qs : List Property), (∀ places ∈ pairs, places.1 < places.2) →
      P qs → P (pairs.foldl (judgeAt judge) qs) := by
    intro pairs
    induction pairs with
    | nil => exact fun qs _ hqs => hqs
    | cons places pairs ih =>
        intro qs hlt hqs
        refine ih _ (fun q hq => hlt q (List.mem_cons_of_mem _ hq)) ?_
        rcases judgeAt_eq judge qs (hlt places List.mem_cons_self) with
          hsame | ⟨pre, e, mid, r, post, rfl, he, hr, hjudged⟩
        · rw [hsame]
          exact hqs
        · rw [hjudged]
          exact hstep pre e mid r post he hr hqs
  exact hfold _ ps (fun places hplaces => lt_of_mem_backwardPairs hplaces) h

section Safe

variable {profile : Profile} {reads : Declaration → Bool}

/-- A verdict that leaves what a body does to those that read its declarations in this way. -/
inductive Verdict.Safe (profile : Profile) (reads : Declaration → Bool) (e : Property)
    (mid : List Property) (r : Property) : Verdict → Prop
  | keepBoth : Safe profile reads e mid r .keepBoth
  | dropEarlier (hreads : reads e.toDeclaration = true → reads r.toDeclaration = true)
      (himportant : e.important = true → r.important = true) (hleaf : e.leafNames ⊆ r.leafNames) :
      Safe profile reads e mid r .dropEarlier
  | dropLater (hreads : reads r.toDeclaration = true → reads e.toDeclaration = true)
      (he : e.important = true) (hr : r.important = false) (hleaf : r.leafNames ⊆ e.leafNames) :
      Safe profile reads e mid r .dropLater
  | foldInto {m : Property} (hreads : reads r.toDeclaration = reads e.toDeclaration)
      (hreads' : reads m.toDeclaration = reads e.toDeclaration) (himportant : r.important = e.important)
      (himportant' : m.important = e.important) (hlive : m.unused = false)
      (hbetween : ∀ p ∈ mid, p.unused = true ∨ ∀ l ∈ r.leafNames, l ∉ p.leafNames)
      (hsetting : ∀ l, m.toDeclaration.setting? profile l
        = (r.toDeclaration.setting? profile l).or (e.toDeclaration.setting? profile l)) :
      Safe profile reads e mid r (.foldInto m)

/-- A longhand that the later property sets goes to the merged one past all that stands between. -/
theorem winner_fold {e r m : Property} {mid : List Property} (he : e.unused = false)
    (hr : r.unused = false) (hreads : reads r.toDeclaration = reads e.toDeclaration)
    (hreads' : reads m.toDeclaration = reads e.toDeclaration) (himportant : r.important = e.important)
    (himportant' : m.important = e.important) (hlive : m.unused = false)
    (hbetween : ∀ p ∈ mid, p.unused = true ∨ ∀ l ∈ r.leafNames, l ∉ p.leafNames)
    (hsetting : ∀ l, m.toDeclaration.setting? profile l
      = (r.toDeclaration.setting? profile l).or (e.toDeclaration.setting? profile l))
    (longhand : String) :
    (m.claim profile reads longhand).andThen (Claim.winner (mid.map (claim profile reads longhand)))
      = ((e.claim profile reads longhand).andThen
          (Claim.winner (mid.map (claim profile reads longhand)))).andThen
            (r.claim profile reads longhand) := by
  have hm : m.claim profile reads longhand
      = (if reads e.toDeclaration then
          ((r.toDeclaration.setting? profile longhand).or
            (e.toDeclaration.setting? profile longhand)).map fun s => (e.important, s)
        else none) := by
    rw [claim_of_live hlive, Declaration.claim, hreads', hsetting, himportant']
  by_cases hmem : longhand ∈ r.leafNames
  · have hnone : Claim.winner (mid.map (claim profile reads longhand)) = none := by
      refine Claim.winner_eq_none fun a ha => ?_
      obtain ⟨p, hp, rfl⟩ := List.mem_map.mp ha
      rcases hbetween p hp with hunused | hapart
      · exact claim_of_unused hunused
      · exact claim_eq_none_of_not_mem (hapart longhand hmem)
    obtain ⟨s, hs⟩ :=
      Option.isSome_iff_exists.mp ((Declaration.isSome_setting? profile r longhand).mpr hmem)
    have hrm : m.claim profile reads longhand = r.claim profile reads longhand := by
      rw [hm, claim_of_live hr, Declaration.claim, hreads, hs, himportant]
      rfl
    rw [hnone, Claim.andThen_none, Claim.andThen_none, hrm]
    refine (Claim.andThen_of_rank_le ?_).symm
    by_cases hread : reads e.toDeclaration = true
    · by_cases hmem' : longhand ∈ e.leafNames
      · apply Nat.le_of_eq
        rw [rank_claim he hread hmem', rank_claim hr (hreads ▸ hread) hmem, himportant]
      · rw [claim_eq_none_of_not_mem hmem']
        exact Nat.zero_le _
    · rw [claim_of_live he, Declaration.claim, if_neg hread]
      exact Nat.zero_le _
  · have hem : m.claim profile reads longhand = e.claim profile reads longhand := by
      rw [hm, Declaration.setting?_eq_none profile hmem, Option.none_or, claim_of_live he,
        Declaration.claim]
    rw [claim_eq_none_of_not_mem (p := r) hmem, Claim.andThen_none, hem]

/-- A safe verdict keeps the winner of every longhand. -/
theorem winner_outcome {e r : Property} {mid : List Property} {verdict : Verdict}
    (h : verdict.Safe profile reads e mid r) (he : e.unused = false) (hr : r.unused = false)
    (pre post : List Property) (longhand : String) :
    Claim.winner ((pre ++ (verdict.outcome e r).1 :: (mid ++ (verdict.outcome e r).2 :: post)).map
        (claim profile reads longhand))
      = Claim.winner ((pre ++ e :: (mid ++ r :: post)).map (claim profile reads longhand)) := by
  simp only [List.map_append, List.map_cons]
  cases h with
  | keepBoth => rfl
  | dropEarlier hreads himportant hleaf =>
      rw [Claim.winner_absorb_earlier (a := e.claim profile reads longhand) _ _ _
        (rank_claim_le hr hreads himportant hleaf)]
      rfl
  | dropLater hreads hei hri hleaf =>
      have hrank : r.claim profile reads longhand = none
          ∨ (r.claim profile reads longhand).rank < (e.claim profile reads longhand).rank := by
        by_cases hmem : longhand ∈ r.leafNames
        · by_cases hread : reads r.toDeclaration = true
          · right
            rw [rank_claim hr hread hmem, rank_claim he (hreads hread) (hleaf hmem), hei, hri]
            decide
          · left
            rw [claim_of_live hr, Declaration.claim, if_neg hread]
        · exact .inl (claim_eq_none_of_not_mem hmem)
      rw [Claim.winner_absorb_later (b := r.claim profile reads longhand) _ _ _ hrank]
      rfl
  | @foldInto m hreads hreads' himportant himportant' hlive hbetween hsetting =>
      have hfold := winner_fold he hr hreads hreads' himportant himportant' hlive hbetween hsetting longhand
      simp only [Claim.winner_append, Claim.winner_cons, Verdict.outcome]
      rw [claim_of_unused (p := { r with unused := true }) rfl, Claim.none_andThen,
        ← Claim.andThen_assoc (m.claim profile reads longhand), hfold, Claim.andThen_assoc,
        Claim.andThen_assoc]

end Safe

end Property

end CssMinify
