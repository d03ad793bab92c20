import CssMinify.Property.Split

/-!
What a body does: for each longhand, the setting that wins among those that its declarations give. Every
declaration that is read claims the longhands that it sets; of two claims the later one wins, unless the
earlier one is important and the later one is not. Claims combine associatively, so what a list of them
comes to can be computed piece by piece, and a pass over a body can be judged where it acts.
-/

namespace CssMinify

/-- What a declaration gives to a longhand. -/
inductive Setting where
  /-- A value of its own. -/
  | own (value : Value)
  /-- The whole value of a shorthand that cannot be split. -/
  | whole (name : String) (value : Value)
  deriving DecidableEq, Repr

/-- A single `inherit` in whatever case is the same value. -/
def Value.settled (value : Value) : Value :=
  match value with
  | [token] => if Word.isInherit token then ["inherit"] else value
  | _ => value

def Setting.settled : Setting → Setting
  | own value => own value.settled
  | whole name value => whole name value.settled

namespace Property

/-- The longhands among the components, each with its value. -/
def longhands (p : Property) : List (String × Value) := p.leaves.map fun q => (q.name, q.value)

/-- A shorthand whose components are not known. -/
def isOpaque (p : Property) : Bool := p.isShorthand && p.components.isEmpty

/-- What a property gives to a longhand. An opaque shorthand gives its whole value to all its longhands. -/
def setting? (p : Property) (longhand : String) : Option Setting :=
  if p.isOpaque then
    if p.leafNames.contains longhand then some (.whole p.name p.value) else none
  else (p.longhands.lookup longhand).map .own

end Property

/-- What a declaration gives to a longhand. -/
def Declaration.setting? (profile : Profile) (d : Declaration) (longhand : String) : Option Setting :=
  (Property.wrap profile d 0).setting? longhand

namespace Body

/-- What the last declaration that sets a longhand gives to it. -/
def lastSetting? (profile : Profile) (declarations : List Declaration) (longhand : String) :
    Option Setting :=
  (declarations.filterMap fun d => d.setting? profile longhand).getLast?

/-- What a longhand gets from a body of which the declarations that satisfy `reads` are read: the setting
of the last important one, or else of the last one. -/
def effective? (profile : Profile) (reads : Declaration → Bool) (declarations : List Declaration)
    (longhand : String) : Option Setting :=
  let read := declarations.filter reads
  lastSetting? profile (read.filter (·.important)) longhand
    <|> lastSetting? profile (read.filter (!·.important)) longhand

end Body

/-- The importance of a declaration and what it gives to a longhand, if it is read and sets it. -/
abbrev Claim := Option (Bool × Setting)

namespace Claim

/-- No claim, a claim, an important claim. -/
def rank : Claim → Nat
  | none => 0
  | some (false, _) => 1
  | some (true, _) => 2

/-- What an earlier and a later claim come to. -/
def andThen (earlier later : Claim) : Claim := if later.rank < earlier.rank then earlier else later

theorem eq_none_of_rank_eq_zero {a : Claim} (h : a.rank = 0) : a = none := by
  match a with
  | none => rfl
  | some (false, _) => cases h
  | some (true, _) => cases h

@[simp] theorem none_andThen (a : Claim) : andThen none a = a := by
  simp [andThen, rank]

@[simp] theorem andThen_none (a : Claim) : a.andThen none = a := by
  by_cases h : a.rank = 0
  · rw [eq_none_of_rank_eq_zero h, none_andThen]
  · have hpos : rank none < a.rank := Nat.pos_of_ne_zero h
    rw [andThen, if_pos hpos]

theorem rank_andThen (a b : Claim) : (a.andThen b).rank = max a.rank b.rank := by
  rw [andThen]
  split <;> omega

theorem andThen_of_rank_le {a b : Claim} (h : a.rank ≤ b.rank) : a.andThen b = b := by
  rw [andThen, if_neg (by omega)]

theorem andThen_of_rank_lt {a b : Claim} (h : b.rank < a.rank) : a.andThen b = a := by
  rw [andThen, if_pos h]

theorem andThen_assoc (a b c : Claim) : (a.andThen b).andThen c = a.andThen (b.andThen c) := by
  by_cases hab : b.rank < a.rank <;> by_cases hbc : c.rank < b.rank
  · rw [andThen_of_rank_lt hab, andThen_of_rank_lt hbc, andThen_of_rank_lt hab,
      andThen_of_rank_lt (by omega)]
  · rw [andThen_of_rank_lt hab, andThen_of_rank_le (by omega : b.rank ≤ c.rank)]
  · rw [andThen_of_rank_le (by omega : a.rank ≤ b.rank), andThen_of_rank_lt hbc,
      andThen_of_rank_le (by omega)]
  · rw [andThen_of_rank_le (by omega : a.rank ≤ b.rank), andThen_of_rank_le (by omega : b.rank ≤ c.rank),
      andThen_of_rank_le (by omega)]

/-- What a list of claims comes to. -/
def winner : List Claim → Claim
  | [] => none
  | a :: rest => andThen a (winner rest)

@[simp] theorem winner_nil : winner [] = none := rfl

@[simp] theorem winner_cons (a : Claim) (rest : List Claim) :
    winner (a :: rest) = a.andThen (winner rest) := rfl

@[simp] theorem winner_append (as bs : List Claim) :
    winner (as ++ bs) = (winner as).andThen (winner bs) := by
  induction as with
  | nil => simp
  | cons a as ih => rw [List.cons_append, winner_cons, winner_cons, ih, andThen_assoc]

theorem winner_eq_none {as : List Claim} (h : ∀ a ∈ as, a = none) : winner as = none := by
  induction as with
  | nil => rfl
  | cons a as ih =>
      rw [winner_cons, h a List.mem_cons_self, none_andThen]
      exact ih fun b hb => h b (List.mem_cons_of_mem a hb)

theorem rank_le_rank_winner {as : List Claim} {a : Claim} (h : a ∈ as) : a.rank ≤ (winner as).rank := by
  induction as with
  | nil => cases h
  | cons b bs ih =>
      rw [winner_cons, rank_andThen]
      rcases List.mem_cons.mp h with rfl | h
      · omega
      · have := ih h
        omega

/-- Where all that claim anything claim the same, that is what they come to. -/
theorem winner_eq_of_forall {as : List Claim} {c : Claim} (h : ∀ a ∈ as, a = none ∨ a = c) (hc : c ∈ as) :
    winner as = c := by
  have hwinner : winner as = none ∨ winner as = c := by
    clear hc
    induction as with
    | nil => exact .inl rfl
    | cons a as ih =>
        have hrest := ih fun b hb => h b (List.mem_cons_of_mem a hb)
        rw [winner_cons]
        rcases h a List.mem_cons_self with rfl | rfl
        · rw [none_andThen]
          exact hrest
        · rcases hrest with hrest | hrest
          · exact .inr (by rw [hrest, andThen_none])
          · exact .inr (by rw [hrest, andThen_of_rank_le (Nat.le_refl _)])
  rcases hwinner with hnone | hsome
  · have hrank := rank_le_rank_winner hc
    rw [hnone] at hrank ⊢
    exact (eq_none_of_rank_eq_zero (Nat.le_zero.mp hrank)).symm
  · exact hsome

/-- A claim that a later one of no lower rank follows makes no difference. -/
theorem winner_absorb_earlier {a b : Claim} (as ms bs : List Claim) (h : a.rank ≤ b.rank) :
    winner (as ++ a :: (ms ++ b :: bs)) = winner (as ++ none :: (ms ++ b :: bs)) := by
  have hb : b.rank ≤ (winner (ms ++ b :: bs)).rank := rank_le_rank_winner (by simp)
  simp only [winner_append as, winner_cons _ (ms ++ b :: bs), none_andThen]
  rw [andThen_of_rank_le (by omega : a.rank ≤ (winner (ms ++ b :: bs)).rank)]

/-- A claim that follows one of higher rank makes no difference. -/
theorem winner_absorb_later {a b : Claim} (as ms bs : List Claim) (h : b = none ∨ b.rank < a.rank) :
    winner (as ++ a :: (ms ++ b :: bs)) = winner (as ++ a :: (ms ++ none :: bs)) := by
  rcases h with rfl | h
  · rfl
  · have hm : b.rank < (a.andThen (winner ms)).rank := by
      rw [rank_andThen]
      omega
    simp only [winner_append, winner_cons, none_andThen]
    rw [← andThen_assoc a, ← andThen_assoc a, ← andThen_assoc _ b, andThen_of_rank_lt hm]

/-- Changes what a claim gives. -/
def mapSetting (f : Setting → Setting) (a : Claim) : Claim := a.map (Prod.map id f)

@[simp] theorem rank_mapSetting (f : Setting → Setting) (a : Claim) : (a.mapSetting f).rank = a.rank := by
  match a with
  | none => rfl
  | some (false, _) => rfl
  | some (true, _) => rfl

theorem mapSetting_winner (f : Setting → Setting) (as : List Claim) :
    (winner as).mapSetting f = winner (as.map (mapSetting f)) := by
  induction as with
  | nil => rfl
  | cons a as ih =>
      rw [List.map_cons, winner_cons, winner_cons, ← ih, andThen, andThen, rank_mapSetting, rank_mapSetting]
      split <;> rfl

end Claim

/-- What a declaration claims for a longhand. -/
def Declaration.claim (profile : Profile) (reads : Declaration → Bool) (longhand : String)
    (d : Declaration) : Claim :=
  if reads d then (d.setting? profile longhand).map fun s => (d.important, s) else none

namespace Body

theorem lastSetting?_cons (profile : Profile) (d : Declaration) (ds : List Declaration) (longhand : String) :
    lastSetting? profile (d :: ds) longhand
      = (lastSetting? profile ds longhand).or (d.setting? profile longhand) := by
  rw [lastSetting?, List.filterMap_cons]
  cases h : d.setting? profile longhand with
  | none => simp [lastSetting?]
  | some s =>
      simp only [lastSetting?, List.getLast?_cons]
      cases (ds.filterMap fun d => d.setting? profile longhand).getLast? <;> rfl

/-- The claims of a body come to the important setting that is given last, or else to the last one. -/
theorem winner_claims (profile : Profile) (reads : Declaration → Bool) (longhand : String)
    (ds : List Declaration) :
    Claim.winner (ds.map (Declaration.claim profile reads longhand))
      = match lastSetting? profile ((ds.filter reads).filter (·.important)) longhand with
        | some s => some (true, s)
        | none =>
          (lastSetting? profile ((ds.filter reads).filter (!·.important)) longhand).map fun s =>
            (false, s) := by
  induction ds with
  | nil => rfl
  | cons d ds ih =>
      rw [List.map_cons, Claim.winner_cons, ih, Declaration.claim]
      cases hr : reads d with
      | false => simp [hr]
      | true =>
          cases hi : d.important <;> cases hs : d.setting? profile longhand <;>
            simp only [hr, hi, hs, if_true, Option.map_none, Option.map_some, Claim.none_andThen,
              List.filter_cons, lastSetting?_cons, Bool.not_true, Bool.not_false, Bool.false_eq_true,
              if_false, Option.or_none] <;>
            cases lastSetting? profile ((ds.filter reads).filter (·.important)) longhand <;>
            cases lastSetting? profile ((ds.filter reads).filter (!·.important)) longhand <;> rfl

theorem effective?_eq (profile : Profile) (reads : Declaration → Bool) (ds : List Declaration)
    (longhand : String) :
    effective? profile reads ds longhand
      = (Claim.winner (ds.map (Declaration.claim profile reads longhand))).map Prod.snd := by
  rw [winner_claims, effective?]
  cases lastSetting? profile ((ds.filter reads).filter (·.important)) longhand <;>
    cases lastSetting? profile ((ds.filter reads).filter (!·.important)) longhand <;> rfl

end Body

end CssMinify
