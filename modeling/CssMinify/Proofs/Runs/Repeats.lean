import CssMinify.Proofs.Effect.Shadowing
import Mathlib.Data.List.Pairwise

/-! What dropping repeated declarations leaves. The last property is compared with all the others first, and with
none again; so of a body exactly those declarations go that a later one repeats. -/

namespace List

variable {α : Type} {R : α → α → Prop} [DecidableRel R]

theorem pwFilter_concat (as : List α) (a : α) :
    (as ++ [a]).pwFilter R = (as.filter fun b => R b a).pwFilter R ++ [a] := by
  induction as with
  | nil => rfl
  | cons b as ih =>
      rw [List.cons_append]
      by_cases hlast : R b a
      · rw [List.filter_cons_of_pos (by simpa using hlast)]
        by_cases hothers : ∀ c ∈ (as.filter fun b => R b a).pwFilter R, R b c
        · have hall : ∀ c ∈ (as ++ [a]).pwFilter R, R b c := by
            rw [ih, List.forall_mem_append]
            exact ⟨hothers, by simpa using hlast⟩
          rw [pwFilter_cons_of_pos hall, pwFilter_cons_of_pos hothers, ih, List.cons_append]
        · have hall : ¬ ∀ c ∈ (as ++ [a]).pwFilter R, R b c := by
            rw [ih, List.forall_mem_append]
            exact fun h => hothers h.1
          rw [pwFilter_cons_of_neg hall, pwFilter_cons_of_neg hothers, ih]
      · have hall : ¬ ∀ c ∈ (as ++ [a]).pwFilter R, R b c := by
          rw [ih, List.forall_mem_append]
          exact fun h => hlast (h.2 a (by simp))
        rw [pwFilter_cons_of_neg hall, List.filter_cons_of_neg (by simpa using hlast), ih]

/-- What is left of a part of a list on which nothing from outside bears. -/
theorem pwFilter_filter {p : α → Bool} (h : ∀ a b, ¬ R a b → p a = p b) (as : List α) :
    (as.filter p).pwFilter R = (as.pwFilter R).filter p := by
  induction as with
  | nil => rfl
  | cons a as ih =>
      by_cases hall : ∀ b ∈ as.pwFilter R, R a b
      · rw [pwFilter_cons_of_pos hall]
        by_cases hp : p a = true
        · have hsome : ∀ b ∈ (as.filter p).pwFilter R, R a b := by
            rw [ih]
            exact fun b hb => hall b (List.mem_of_mem_filter hb)
          rw [List.filter_cons_of_pos hp, List.filter_cons_of_pos hp, pwFilter_cons_of_pos hsome, ih]
        · rw [List.filter_cons_of_neg hp, List.filter_cons_of_neg hp, ih]
      · rw [pwFilter_cons_of_neg hall, ← ih]
        by_cases hp : p a = true
        · have hsome : ¬ ∀ b ∈ (as.filter p).pwFilter R, R a b := by
            rw [ih]
            intro hsome
            refine hall fun b hb => ?_
            by_contra hnot
            exact hnot (hsome b (List.mem_filter.mpr ⟨hb, (h a b hnot).symm.trans hp⟩))
          rw [List.filter_cons_of_pos hp, pwFilter_cons_of_neg hsome]
        · rw [List.filter_cons_of_neg hp]

theorem pwFilter_cons_congr {as bs : List α} (h : as.pwFilter R = bs.pwFilter R) (a : α) :
    (a :: as).pwFilter R = (a :: bs).pwFilter R := by
  by_cases hall : ∀ b ∈ as.pwFilter R, R a b
  · rw [pwFilter_cons_of_pos hall, pwFilter_cons_of_pos (h ▸ hall), h]
  · rw [pwFilter_cons_of_neg hall, pwFilter_cons_of_neg (h ▸ hall), h]

/-- What would go from a list may go before its members are changed. -/
theorem pwFilter_map_pwFilter {f : α → α} (htrans : ∀ {a b c}, R a c → R a b ∨ R b c)
    (hf : ∀ {a b}, R (f a) (f b) → R a b) (as : List α) :
    ((as.pwFilter R).map f).pwFilter R = (as.map f).pwFilter R := by
  induction as with
  | nil => rfl
  | cons a as ih =>
      by_cases hall : ∀ b ∈ as.pwFilter R, R a b
      · rw [pwFilter_cons_of_pos hall, List.map_cons, List.map_cons, pwFilter_cons_congr ih]
      · rw [pwFilter_cons_of_neg hall, ih, List.map_cons, pwFilter_cons_of_neg]
        intro hsome
        have hsome := (forall_mem_pwFilter (R := R) htrans (f a) (as.map f)).mp hsome
        exact hall fun b hb => hf (hsome (f b) (List.mem_map_of_mem (pwFilter_subset as hb)))

end List

namespace CssMinify

/-- The later declaration says what the earlier one says, with the same hack, and is as important at least. -/
def Declaration.Repeats (later earlier : Declaration) : Prop :=
  earlier.name = later.name ∧ earlier.value = later.value ∧ earlier.hack = later.hack ∧
    (earlier.important = true → later.important = true)

instance (later earlier : Declaration) : Decidable (later.Repeats earlier) :=
  inferInstanceAs (Decidable (_ ∧ _ ∧ _ ∧ _))

theorem Declaration.Repeats.trans {a b c : Declaration} (h : a.Repeats b) (h' : b.Repeats c) : a.Repeats c :=
  ⟨h'.1.trans h.1, h'.2.1.trans h.2.1, h'.2.2.1.trans h.2.2.1, h.2.2.2 ∘ h'.2.2.2⟩

namespace Body

/-- The declarations that no later one repeats. -/
def withoutRepeats (ds : List Declaration) : List Declaration :=
  ds.pwFilter fun earlier later => ¬ later.Repeats earlier

theorem withoutRepeats_sublist (ds : List Declaration) : (withoutRepeats ds).Sublist ds := List.pwFilter_sublist ds

theorem withoutRepeats_eq_self_iff {ds : List Declaration} :
    withoutRepeats ds = ds ↔ ds.Pairwise fun earlier later => ¬ later.Repeats earlier := List.pwFilter_eq_self

theorem withoutRepeats_withoutRepeats (ds : List Declaration) : withoutRepeats (withoutRepeats ds) = withoutRepeats ds :=
  List.pwFilter_idem

/-- Repeated declarations may be dropped before or after a change that leaves them repeated. -/
theorem withoutRepeats_map_withoutRepeats {change : Declaration → Declaration}
    (h : ∀ {d d' : Declaration}, d'.Repeats d → (change d').Repeats (change d)) (ds : List Declaration) :
    withoutRepeats ((withoutRepeats ds).map change) = withoutRepeats (ds.map change) := by
  refine List.pwFilter_map_pwFilter (fun {a b c} hac => ?_) (fun hnot hrepeats => hnot (h hrepeats)) ds
  by_contra hboth
  rw [not_or, not_not, not_not] at hboth
  exact hac (hboth.2.trans hboth.1)

end Body

namespace Property

section Judging

variable {judge : Property → List Property → Property → Verdict}

theorem backwardPairs_succ (count : Nat) :
    backwardPairs (count + 1) = (List.range count).reverse.map (·, count) ++ backwardPairs count := by
  rw [backwardPairs, List.range_succ, List.reverse_append, List.reverse_singleton, List.singleton_append,
    List.flatMap_cons]
  rfl

theorem length_judgeAt (ps : List Property) (places : Nat × Nat) : (judgeAt judge ps places).length = ps.length := by
  rw [judgeAt]
  split
  · split
    · rfl
    · split <;> simp
  · rfl

/-- What stands behind a pair is not looked at. -/
theorem judgeAt_append {ps : List Property} {places : Nat × Nat} (hi : places.1 < ps.length)
    (hj : places.2 < ps.length) (post : List Property) :
    judgeAt judge (ps ++ post) places = judgeAt judge ps places ++ post := by
  obtain ⟨i, j⟩ := places
  have hbetween : (ps ++ post).take j = ps.take j := List.take_append_of_le_length (Nat.le_of_lt hj)
  simp only [judgeAt, List.getElem?_append_left hi, List.getElem?_append_left hj, hbetween,
    List.getElem?_eq_getElem hi, List.getElem?_eq_getElem hj]
  split
  · rfl
  cases judge ps[i] ((ps.take j).drop (i + 1)) ps[j] with
  | keepBoth => rfl
  | dropEarlier => exact List.set_append_left _ _ hi
  | dropLater => exact List.set_append_left _ _ hj
  | foldInto merged =>
      simp only
      rw [List.set_append_left _ _ hi, List.set_append_left _ _ (by rwa [List.length_set])]

/-- Judging all the pairs of a body, those with its last property first. -/
theorem judgeAll_concat (ps : List Property) (p : Property) {qs : List Property} (hlength : qs.length = ps.length)
    (h : ((List.range ps.length).reverse.map (·, ps.length)).foldl (judgeAt judge) (ps ++ [p]) = qs ++ [p]) :
    judgeAll judge (ps ++ [p]) = judgeAll judge qs ++ [p] := by
  have hfold (pairs : List (Nat × Nat)) (hpairs : ∀ places ∈ pairs, places.1 < places.2 ∧ places.2 < ps.length) :
      ∀ qs : List Property, qs.length = ps.length →
        pairs.foldl (judgeAt judge) (qs ++ [p]) = pairs.foldl (judgeAt judge) qs ++ [p] := by
    induction pairs with
    | nil => exact fun qs _ => rfl
    | cons places pairs ih =>
        intro qs hqs
        obtain ⟨hlt, hlast⟩ := hpairs places List.mem_cons_self
        rw [List.foldl_cons, List.foldl_cons, judgeAt_append (by omega) (by omega)]
        exact ih (fun q hq => hpairs q (List.mem_cons_of_mem _ hq)) _ ((length_judgeAt qs places).trans hqs)
  rw [judgeAll, List.length_append, List.length_singleton, backwardPairs_succ, List.foldl_append, h, judgeAll, hlength]
  refine hfold _ (fun places hplaces => ⟨lt_of_mem_backwardPairs hplaces, ?_⟩) qs hlength
  simp only [backwardPairs, List.mem_flatMap, List.mem_reverse, List.mem_range, List.mem_map] at hplaces
  obtain ⟨later, hlater, earlier, -, rfl⟩ := hplaces
  exact hlater

end Judging

section Duplicates

theorem judgeDuplicate_eq (earlier : Property) (between : List Property) (later : Property) :
    judgeDuplicate earlier between later
      = if later.toDeclaration.Repeats earlier.toDeclaration then .dropEarlier else .keepBoth := by
  have hiff : (earlier.name == later.name && earlier.value == later.value && earlier.hack == later.hack
      && (later.important || !earlier.important)) = true ↔ later.toDeclaration.Repeats earlier.toDeclaration := by
    simp only [Declaration.Repeats, Bool.and_eq_true, beq_iff_eq, and_assoc]
    cases later.important <;> cases earlier.important <;> simp
  rw [judgeDuplicate]
  simp only [hiff]

/-- What a property is after it is compared with a later one. -/
def spared (later p : Property) : Property :=
  if !p.unused && !later.unused && later.toDeclaration.Repeats p.toDeclaration then { p with unused := true } else p

theorem judgeAt_last {ps : List Property} {p : Property} {i : Nat} (hi : i < ps.length) :
    judgeAt judgeDuplicate (ps ++ [p]) (i, ps.length) = ps.modify i (spared p) ++ [p] := by
  have hset {ps : List Property} {i : Nat} (hi : i < ps.length) (q : Property) :
      (ps ++ [p]).set i q = ps.set i q ++ [p] := List.set_append_left _ _ hi
  simp only [judgeAt, List.getElem?_append_left hi, List.getElem?_eq_getElem hi,
    List.getElem?_append_right (Nat.le_refl _), Nat.sub_self, List.getElem?_cons_zero, judgeDuplicate_eq]
  rw [List.modify_eq_set_getElem?, List.getElem?_eq_getElem hi]
  have hself : ps.set i ps[i] = ps := List.set_getElem_self hi
  simp only [Option.map_eq_map, Option.map_some, Option.getD_some, spared]
  cases hunused : ps[i].unused with
  | true => simp [hself]
  | false =>
      cases hlast : p.unused with
      | true => simp [hself]
      | false =>
          by_cases hrepeats : p.toDeclaration.Repeats ps[i].toDeclaration
          · simp [hrepeats, hset hi]
          · simp [hrepeats, hself]

/-- Comparing the last property with all the others, from the back. -/
theorem foldl_judgeAt_last (ps : List Property) (p : Property) :
    ((List.range ps.length).reverse.map (·, ps.length)).foldl (judgeAt judgeDuplicate) (ps ++ [p])
      = ps.map (spared p) ++ [p] := by
  have hfold (count : Nat) : ∀ qs : List Property, qs.length = ps.length → count ≤ qs.length →
      ((List.range count).reverse.map (·, ps.length)).foldl (judgeAt judgeDuplicate) (qs ++ [p])
        = (qs.take count).map (spared p) ++ qs.drop count ++ [p] := by
    induction count with
    | zero => exact fun qs _ _ => rfl
    | succ count ih =>
        intro qs hqs hle
        have hlt : count < qs.length := hle
        rw [List.range_succ, List.reverse_append, List.reverse_singleton, List.singleton_append, List.map_cons,
          List.foldl_cons, ← hqs, judgeAt_last hlt, hqs, ih _ (by rw [List.length_modify, hqs])
            (by rw [List.length_modify]; exact Nat.le_of_lt hlt)]
        have hcount : (qs.take count).length = count := by
          rw [List.length_take]
          omega
        rw [List.modify_eq_take_cons_drop hlt, List.take_left' hcount, List.drop_left' hcount,
          List.take_succ_eq_append_getElem hlt]
        simp only [List.map_append, List.map_cons, List.map_nil, List.append_assoc, List.cons_append, List.nil_append]
  have hall := hfold ps.length ps rfl (Nat.le_refl _)
  rwa [List.take_length, List.drop_length, List.append_nil] at hall

theorem removeDuplicates_concat (ps : List Property) (p : Property) :
    removeDuplicates (ps ++ [p]) = removeDuplicates (ps.map (spared p)) ++ [p] :=
  judgeAll_concat ps p (List.length_map _) (foldl_judgeAt_last ps p)

theorem filter_spared {p : Property} (h : p.unused = false) (ps : List Property) :
    (ps.map (spared p)).filter (!·.unused)
      = (ps.filter (!·.unused)).filter fun q => ¬ p.toDeclaration.Repeats q.toDeclaration := by
  induction ps with
  | nil => rfl
  | cons q ps ih =>
      rw [List.map_cons, List.filter_cons, ih]
      cases hq : q.unused with
      | true => simp [spared, hq]
      | false =>
          by_cases hrepeats : p.toDeclaration.Repeats q.toDeclaration <;> simp [spared, h, hq, hrepeats]

/-- Of the living properties those are left whose declarations no later one repeats. -/
theorem filter_removeDuplicates (ps : List Property) :
    (removeDuplicates ps).filter (!·.unused)
      = (ps.filter (!·.unused)).pwFilter fun p q => ¬ q.toDeclaration.Repeats p.toDeclaration := by
  induction hcount : ps.length generalizing ps with
  | zero =>
      rw [List.length_eq_zero_iff.mp hcount]
      rfl
  | succ count ih =>
      obtain ⟨ps, p, rfl⟩ := (List.eq_nil_or_concat' ps).resolve_left (List.ne_nil_of_length_eq_add_one hcount)
      have hlength : (ps.map (spared p)).length = count := by simpa using hcount
      rw [removeDuplicates_concat, List.filter_append, List.filter_append, ih _ hlength]
      cases hlast : p.unused with
      | true =>
          have hall : ps.map (spared p) = ps := by
            rw [List.map_congr_left fun q _ => (by simp [spared, hlast] : spared p q = q), List.map_id']
          rw [hall, List.filter_cons_of_neg (by simp [hlast]), List.filter_nil, List.append_nil, List.append_nil]
      | false =>
          rw [filter_spared hlast, List.filter_cons_of_pos (by simp [hlast]), List.filter_nil, List.pwFilter_concat]

end Duplicates

end Property

end CssMinify
