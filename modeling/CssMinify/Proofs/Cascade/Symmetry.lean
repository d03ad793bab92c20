import CssMinify.Proofs.Moves.Exchange
import CssMinify.Proofs.Runs.Totality

/-! Changing places is the same matter for both sides. Whatever is answered for two declarations, or for two lists of
them, is answered the other way round too, so that a pass may ask for one direction of a move alone. Only the order in
which selectors are read differs: where one of them cannot be read, one way round may give an answer and the other
may fail. -/

namespace CssMinify

namespace Attempt

variable {α β γ : Type}

/-- Two attempts that do not give different results. -/
def Agree (x y : Attempt α) : Prop := ∀ a b, x = .ok a → y = .ok b → a = b

theorem Agree.eq {x y : Attempt α} (h : Agree x y) (hx : Succeeds x) (hy : Succeeds y) : x = y := by
  obtain ⟨a, hx⟩ := hx
  obtain ⟨b, hy⟩ := hy
  rw [hx, hy, h a b hx hy]

theorem exists_of_allM_eq_ok_false {test : α → Attempt Bool} {as : List α} (h : as.allM test = .ok false) :
    ∃ a ∈ as, test a = .ok false := by
  induction as with
  | nil => cases h
  | cons a as ih =>
      obtain ⟨passed, htest, h⟩ := exists_of_bind h
      cases passed with
      | false => exact ⟨a, List.mem_cons_self, htest⟩
      | true =>
          obtain ⟨b, hb, hfalse⟩ := ih h
          exact ⟨b, List.mem_cons_of_mem a hb, hfalse⟩

/-- A test of all pairs may run over either list first. -/
theorem agree_allM_comm {test : α → β → Attempt Bool} {test' : β → α → Attempt Bool} {as : List α} {bs : List β}
    (h : ∀ a ∈ as, ∀ b ∈ bs, Agree (test a b) (test' b a)) :
    Agree (as.allM fun a => bs.allM (test a)) (bs.allM fun b => as.allM (test' b)) := by
  intro x y hx hy
  cases x <;> cases y
  case false.false => rfl
  case true.true => rfl
  case true.false =>
    obtain ⟨b, hb, hfalse⟩ := exists_of_allM_eq_ok_false hy
    obtain ⟨a, ha, hfalse⟩ := exists_of_allM_eq_ok_false hfalse
    have htrue := Except.allM_eq_ok_true.mp (Except.allM_eq_ok_true.mp hx a ha) b hb
    exact h a ha b hb _ _ htrue hfalse
  case false.true =>
    obtain ⟨a, ha, hfalse⟩ := exists_of_allM_eq_ok_false hx
    obtain ⟨b, hb, hfalse⟩ := exists_of_allM_eq_ok_false hfalse
    have htrue := Except.allM_eq_ok_true.mp (Except.allM_eq_ok_true.mp hy b hb) a ha
    exact h a ha b hb _ _ hfalse htrue

/-- What is prepared for each member of a list may as well be prepared for each pair. -/
theorem allM_pairs_of_ok {prepare : α → Attempt γ} {test : γ → β → Attempt Bool} {as : List α} {bs : List β} {x : Bool}
    (h : (as.allM fun a => do let c ← prepare a; bs.allM (test c)) = .ok x) :
    (as.allM fun a => bs.allM fun b => do let c ← prepare a; test c b) = .ok x := by
  induction as with
  | nil => exact h
  | cons a as ih =>
      obtain ⟨passed, hfirst, h⟩ := exists_of_bind h
      obtain ⟨c, hc, hfirst⟩ := exists_of_bind hfirst
      have hpairs : (bs.allM fun b => do let c ← prepare a; test c b) = .ok passed := by
        rw [hc]
        exact hfirst
      rw [List.allM, hpairs]
      cases passed with
      | false => exact h
      | true => exact ih h

end Attempt

open Attempt

namespace Selector

theorem apart_comm (a b : List String) : apart a b = apart b a := by
  rw [apart, apart, Bool.and_comm (!a.isEmpty), Bool.eq_iff_iff]
  simp only [Bool.and_eq_true, Bool.not_eq_true', List.any_eq_false, List.contains_iff_mem]
  refine and_congr_right fun _ => ⟨fun h s hb ha => h s ha hb, fun h s ha hb => h s hb ha⟩

theorem Compound.excludes_comm (semantic : Bool) (a b : Compound) : a.excludes semantic b = b.excludes semantic a := by
  rw [excludes, excludes, apart_comm a.ids, apart_comm (a.classNames.map bemBlock), bne_comm]
  cases a.elementName? <;> cases b.elementName? <;> simp only [Text.sameFolded_comm]

theorem Complex.mayOverlap_comm (semantic : Bool) (a b : Complex) :
    a.mayOverlap semantic b = b.mayOverlap semantic a := by
  rw [mayOverlap, mayOverlap]
  cases a.subject? <;> cases b.subject? <;> simp only [Compound.excludes_comm]

theorem agree_bindDifferently (a b : List String) : Agree (bindDifferently a b) (bindDifferently b a) := by
  have hpairs : Agree
      (a.allM fun left => b.allM fun right => do
        let strength ← specificity left
        return (← specificity right) != strength)
      (b.allM fun right => a.allM fun left => do
        let strength ← specificity right
        return (← specificity left) != strength) := by
    refine agree_allM_comm fun left _ right _ x y hx hy => ?_
    obtain ⟨strength, hleft, hx⟩ := exists_of_bind hx
    obtain ⟨other, hright, hx⟩ := exists_of_bind hx
    rw [hleft, hright] at hy
    cases hx
    cases hy
    exact bne_comm
  exact fun x y hx hy => hpairs x y (allM_pairs_of_ok hx) (allM_pairs_of_ok hy)

theorem agree_neverMeet (semantic : Bool) (a b : List String) :
    Agree (neverMeet semantic a b) (neverMeet semantic b a) := by
  have hpairs : Agree
      (a.allM fun left => b.allM fun right => do
        let ls ← parseList left
        let rs ← parseList right
        return !ls.isEmpty && !rs.isEmpty && ls.all fun l => rs.all fun r => !l.mayOverlap semantic r)
      (b.allM fun right => a.allM fun left => do
        let rs ← parseList right
        let ls ← parseList left
        return !rs.isEmpty && !ls.isEmpty && rs.all fun r => ls.all fun l => !r.mayOverlap semantic l) := by
    refine agree_allM_comm fun left _ right _ x y hx hy => ?_
    obtain ⟨ls, hleft, hx⟩ := exists_of_bind hx
    obtain ⟨rs, hright, hx⟩ := exists_of_bind hx
    rw [hleft, hright] at hy
    cases hx
    cases hy
    rw [Bool.and_comm (!ls.isEmpty), Bool.eq_iff_iff]
    simp only [Bool.and_eq_true, List.all_eq_true]
    refine and_congr_right fun _ => ⟨fun h r hr l hl => ?_, fun h l hl r hr => ?_⟩
    · rw [Complex.mayOverlap_comm]
      exact h l hl r hr
    · rw [Complex.mayOverlap_comm]
      exact h r hr l hl
  exact fun x y hx hy => hpairs x y (allM_pairs_of_ok hx) (allM_pairs_of_ok hy)

end Selector

namespace Touch

theorem isIndependent_comm (a b : Touch) : a.isIndependent b = b.isIndependent a := by
  have hname : (a.name != b.name) = (b.name != a.name) := bne_comm
  have hvalue : (a.value == b.value) = (b.value == a.value) := BEq.comm
  have hvendors : vendorsDiffer a.value b.value = vendorsDiffer b.value a.value := by
    rw [vendorsDiffer, vendorsDiffer, bne_comm]
  rw [isIndependent, isIndependent, hvalue, hvendors, hname, bne_comm (a := a.family), BEq.comm (a := a.name),
    bne_comm (a := a.important), Bool.and_assoc (b.name != a.name), Bool.and_comm (a.name != a.family),
    ← Bool.and_assoc (b.name != a.name)]

/-- The answer for two declarations can be found out: it follows without their selectors, or these can be read. -/
def IsDecided (a b : Touch) : Prop :=
  a.isFixed b = false → a.isIndependent b = false →
    Selector.AllReadable a.selectors ∧ Selector.AllReadable b.selectors

theorem IsDecided.symm {a b : Touch} (h : a.IsDecided b) : b.IsDecided a := by
  intro hfixed hindependent
  rw [isFixed_comm] at hfixed
  rw [isIndependent_comm] at hindependent
  exact (h hfixed hindependent).symm

theorem IsDecided.succeeds (semantic : Bool) {a b : Touch} (h : a.IsDecided b) :
    Succeeds (a.mayExchange semantic b) := by
  cases hfixed : a.isFixed b with
  | true => exact ⟨false, by rw [mayExchange, if_pos hfixed]; rfl⟩
  | false =>
      cases hindependent : a.isIndependent b with
      | true => exact ⟨true, by rw [mayExchange, if_neg (by simp [hfixed]), if_pos hindependent]; rfl⟩
      | false =>
          obtain ⟨ha, hb⟩ := h hfixed hindependent
          exact succeeds_mayExchange semantic ha hb

theorem agree_mayExchange (semantic : Bool) (a b : Touch) :
    Agree (a.mayExchange semantic b) (b.mayExchange semantic a) := by
  intro x y hx hy
  rw [mayExchange] at hx hy
  rw [isFixed_comm b a, isIndependent_comm b a] at hy
  split at hx
  · next hfixed =>
      rw [if_pos hfixed] at hy
      cases hx
      cases hy
      rfl
  · next hfixed =>
      rw [if_neg hfixed] at hy
      split at hx
      · next hindependent =>
          rw [if_pos hindependent] at hy
          cases hx
          cases hy
          rfl
      · next hindependent =>
          rw [if_neg hindependent] at hy
          obtain ⟨differ, hdiffer, hx⟩ := exists_of_bind hx
          obtain ⟨differ', hdiffer', hy⟩ := exists_of_bind hy
          obtain rfl := Selector.agree_bindDifferently _ _ _ _ hdiffer hdiffer'
          cases differ with
          | true =>
              cases hx
              cases hy
              rfl
          | false => exact Selector.agree_neverMeet semantic _ _ x y hx hy

/-- Two declarations, and two lists of them, may change places if and only if the others may change places with
them: no two answers differ, and where selectors can be read as far as they matter there are answers. -/
theorem mayExchange_comm (semantic : Bool) (a b : Touch) (xs ys : List Touch) :
    Agree (a.mayExchange semantic b) (b.mayExchange semantic a) ∧
      Agree (mayExchangeAll semantic xs ys) (mayExchangeAll semantic ys xs) ∧
      (a.IsDecided b → a.mayExchange semantic b = b.mayExchange semantic a) ∧
      ((∀ t ∈ xs, ∀ u ∈ ys, t.IsDecided u) →
        mayExchangeAll semantic xs ys = mayExchangeAll semantic ys xs) := by
  have hlists : Agree (mayExchangeAll semantic xs ys) (mayExchangeAll semantic ys xs) :=
    agree_allM_comm fun t _ u _ => agree_mayExchange semantic t u
  refine ⟨agree_mayExchange semantic a b, hlists, fun hdecided => ?_, fun hdecided => ?_⟩
  · exact (agree_mayExchange semantic a b).eq (hdecided.succeeds semantic) (hdecided.symm.succeeds semantic)
  · refine hlists.eq ?_ ?_
    · exact succeeds_allM fun t ht => succeeds_allM fun u hu => (hdecided t ht u hu).succeeds semantic
    · exact succeeds_allM fun u hu => succeeds_allM fun t ht => (hdecided t ht u hu).symm.succeeds semantic

/-- Selectors with a wide character in a string that is closed: they bind differently, seen from either side. -/
theorem mayExchange_comm_closed :
    let t : Touch := { name := "top", value := "0", family := "top", selectors := ["a", "[b=\"é\"]"], important := false }
    let u : Touch := { name := "top", value := "1px", family := "top", selectors := ["#c"], important := false }
    t.IsDecided u ∧ t.mayExchange false u = .ok true ∧ u.mayExchange false t = .ok true ∧
      mayExchangeAll false [t] [u, u] = mayExchangeAll false [u, u] [t] := by
  intro t u
  have helement : Selector.simples "a" = [.element "a"] := by decide +kernel
  have hattribute : Selector.simples "[b=\"é\"]" = [.attribute "b" .equals (some (.quoted "\"é\""))] := by
    decide +kernel
  have hid : Selector.simples "#c" = [.id "c"] := by decide +kernel
  have hclosed : Selector.Readable "[b=\"é\"]" := by
    refine ⟨fun name test operand hmem => ?_, by simp [hattribute]⟩
    simp only [hattribute, List.mem_singleton, Selector.Simple.attribute.injEq, Option.some.injEq] at hmem
    rw [hmem.2.2]
    decide
  have hdecided : t.IsDecided u := by
    intro _ _
    refine ⟨?_, ?_⟩
    · simpa [Selector.AllReadable, t] using ⟨⟨by simp [helement], by simp [helement]⟩, hclosed⟩
    · simpa [Selector.AllReadable, u] using ⟨by simp [hid], by simp [hid]⟩
  obtain ⟨-, -, hsingle, hlists⟩ := mayExchange_comm false t u [t] [u, u]
  have hanswer : t.mayExchange false u = .ok true := by decide +kernel
  refine ⟨hdecided, hanswer, (hsingle hdecided).symm.trans hanswer, hlists ?_⟩
  simpa using hdecided

/-- A string that its line leaves open: the selectors are compared from the front of either list, and one way round the
answer is found before the selector is read that cannot be read. -/
theorem mayExchange_open_string :
    let t : Touch :=
      { name := "top", value := "0", family := "top", selectors := ["a", "a:not([b=\"é\n)]"], important := false }
    let u : Touch := { name := "top", value := "1px", family := "top", selectors := [".b", "a"], important := false }
    t.mayExchange false u = .ok false ∧ u.mayExchange false t = .error .splitsCharacter := by
  decide +kernel

end Touch

end CssMinify
