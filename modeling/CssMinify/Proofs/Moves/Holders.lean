import CssMinify.Proofs.Moves.Merging
import CssMinify.Rules.Hoisting
import Mathlib.Data.List.Induction

/-! The rules that share declarations which are moved. Each of them holds each declaration once, and each
declaration was checked against all that it passes: what stands before it in its own rule, and every node
from the first holder on. So in each holder the declarations can rise to the front of the body, in whatever
order they stand there. -/

namespace CssMinify

theorem nodup_eraseDups {α : Type} [BEq α] [LawfulBEq α] (as : List α) : as.eraseDups.Nodup := by
  induction hlength : as.length using Nat.strongRecOn generalizing as with
  | ind n ih =>
      cases as with
      | nil => exact List.nodup_nil
      | cons a as =>
          have hshorter : (as.filter fun b => !b == a).length < n := by
            rw [← hlength]
            exact Nat.lt_succ_of_le (List.length_filter_le _ as)
          rw [List.eraseDups_cons, List.nodup_cons, List.mem_eraseDups]
          exact ⟨by simp, ih _ hshorter _ rfl⟩

namespace Hoist

section Best

theorem keepWhere_eq_ok {α : Type} {test : α → Attempt Bool} {as kept : List α}
    (h : keepWhere test as = .ok kept) : kept.Sublist as ∧ ∀ a ∈ kept, test a = .ok true := by
  induction as generalizing kept with
  | nil =>
      cases h
      exact ⟨.slnil, by simp⟩
  | cons a as ih =>
      rw [keepWhere] at h
      obtain ⟨keeps, htest, h⟩ := Attempt.exists_of_bind h
      obtain ⟨more, hmore, h⟩ := Attempt.exists_of_bind h
      obtain ⟨hsub, hall⟩ := ih hmore
      cases keeps with
      | false =>
          cases h
          exact ⟨hsub.cons a, hall⟩
      | true =>
          cases h
          exact ⟨hsub.cons_cons a, List.forall_mem_cons.mpr ⟨htest, hall⟩⟩

theorem movable_eq_ok {semantic : Bool} {nodes : List Node} {d : Declaration} {holders left : List Nat}
    (h : movable semantic nodes d holders = .ok left) :
    left.Sublist holders ∧ ∀ place ∈ left, mayRise semantic nodes d (left.headD 0) place = .ok true := by
  fun_induction movable semantic nodes d holders with
  | case1 =>
      cases h
      exact ⟨.slnil, by simp⟩
  | case2 first others ih =>
      obtain ⟨kept, hkept, h⟩ := Attempt.exists_of_bind h
      obtain ⟨hsub, hall⟩ := keepWhere_eq_ok hkept
      split at h
      · next hless =>
          obtain ⟨hsub', hall'⟩ := ih kept hless h
          exact ⟨hsub'.trans hsub, hall'⟩
      · next hnotLess =>
          cases h
          rw [hsub.eq_of_length_le (by omega)] at hall
          exact ⟨List.Sublist.refl _, hall⟩

theorem narrow_eq_ok {semantic : Bool} {nodes : List Node} {pairs left : List (Declaration × List Nat)}
    (h : (pairs.mapM fun (d, holders) => do return (d, ← movable semantic nodes d holders) :
      Attempt (List (Declaration × List Nat))) = .ok left) :
    left.map Prod.fst = pairs.map Prod.fst ∧
      ∀ q ∈ left, ∃ holders, (q.1, holders) ∈ pairs ∧ movable semantic nodes q.1 holders = .ok q.2 := by
  induction pairs generalizing left with
  | nil =>
      cases h
      exact ⟨rfl, by simp⟩
  | cons pair pairs ih =>
      rw [List.mapM_cons] at h
      obtain ⟨q, hq, h⟩ := Attempt.exists_of_bind h
      obtain ⟨rest, hrest, h⟩ := Attempt.exists_of_bind h
      obtain ⟨places, hplaces, hq⟩ := Attempt.exists_of_bind hq
      cases hq
      cases h
      obtain ⟨hnames, hall⟩ := ih hrest
      refine ⟨by rw [List.map_cons, List.map_cons, hnames], ?_⟩
      intro q hq
      rcases List.mem_cons.mp hq with rfl | hq
      · exact ⟨pair.2, List.mem_cons_self, hplaces⟩
      · obtain ⟨holders, hmem, hmovable⟩ := hall q hq
        exact ⟨holders, List.mem_cons_of_mem pair hmem, hmovable⟩

theorem mem_offerers {nodes : List Node} {d : Declaration} {place : Nat} (h : place ∈ offerers nodes d) :
    ∃ node, nodes[place]? = some node ∧ d ∈ offers node := by
  simp only [offerers, List.mem_map, List.mem_filter, List.contains_iff_mem] at h
  obtain ⟨⟨node, i⟩, ⟨hmem, hoffers⟩, rfl⟩ := h
  exact ⟨node, List.mem_zipIdx_iff_getElem?.mp hmem, hoffers⟩

theorem pairwise_offerers (nodes : List Node) (d : Declaration) : (offerers nodes d).Pairwise (· < ·) := by
  have hplaces : (nodes.zipIdx.map Prod.snd).Pairwise (· < ·) := by
    rw [List.zipIdx_map_snd]
    exact List.pairwise_lt_range'
  exact hplaces.sublist (List.filter_sublist.map Prod.snd)

/-- Rules that can give away a declaration: each of them holds it once, and it may rise to the first. -/
structure Movable (semantic : Bool) (nodes : List Node) (d : Declaration) (holders : List Nat) : Prop where
  two : 2 ≤ holders.length
  sorted : holders.Pairwise (· < ·)
  offered : ∀ place ∈ holders, ∃ node, nodes[place]? = some node ∧ d ∈ offers node
  rises : ∀ place ∈ holders, mayRise semantic nodes d (holders.headD 0) place = .ok true

theorem movable_of_shared {semantic : Bool} {nodes : List Node} {pairs : List (Declaration × List Nat)}
    (h : shared semantic nodes = .ok pairs) :
    (pairs.map Prod.fst).Nodup ∧ ∀ q ∈ pairs, Movable semantic nodes q.1 q.2 := by
  unfold shared at h
  obtain ⟨narrowed, hnarrowed, h⟩ := Attempt.exists_of_bind h
  cases h
  obtain ⟨hnames, hall⟩ := narrow_eq_ok hnarrowed
  constructor
  · have hnodup : (narrowed.map Prod.fst).Nodup := by
      rw [hnames]
      have hsub := List.filter_sublist (p := fun q : Declaration × List Nat => decide (2 ≤ q.2.length))
        (l := (Hoist.offered nodes).map fun d => (d, offerers nodes d))
      refine List.Nodup.sublist (hsub.map Prod.fst) ?_
      rw [List.map_map]
      exact (List.map_id _).symm ▸ nodup_eraseDups _
    exact hnodup.sublist (List.filter_sublist.map Prod.fst)
  · intro q hq
    rw [List.mem_filter, decide_eq_true_eq] at hq
    obtain ⟨holders, hmem, hmovable⟩ := hall q hq.1
    obtain ⟨hsub, hrises⟩ := movable_eq_ok hmovable
    have hholders : holders = offerers nodes q.1 := by
      obtain ⟨d, -, heq⟩ := List.mem_map.mp (List.mem_filter.mp hmem).1
      cases heq
      rfl
    subst hholders
    refine ⟨hq.2, (pairwise_offerers nodes q.1).sublist hsub, ?_, hrises⟩
    intro place hplace
    exact mem_offerers (hsub.subset hplace)

/-- What is known of a move that is carried out. -/
structure Sound (semantic : Bool) (nodes : List Node) (h : Hoist) : Prop where
  nodup : h.declarations.Nodup
  nonempty : h.declarations ≠ []
  movable : ∀ d ∈ h.declarations, Movable semantic nodes d h.holders
  selectors : h.selectors = Selector.key ((rulesAt nodes h.holders).flatMap Rule.selectors)

theorem lastBest?_mem {hoists : List Hoist} {best : Hoist} (h : lastBest? hoists = some best) :
    best ∈ hoists := by
  induction hoists generalizing best with
  | nil => cases h
  | cons a rest ih =>
      rw [lastBest?] at h
      split at h
      · next b hb =>
          split at h <;> cases h
          · exact List.mem_cons_self
          · exact List.mem_cons_of_mem a (ih hb)
      · cases h
        exact List.mem_cons_self

/-- The move that is chosen is that of a group, its selectors may share a rule, and it pays. -/
theorem group_of_best? {config : Config} {nodes : List Node} {h : Hoist}
    (hbest : best? config nodes = .ok (some h)) :
    ∃ pairs, shared config.options.mergeSemantically nodes = .ok pairs ∧
      (h.declarations, h.holders) ∈ groups pairs ∧
      h.selectors = Selector.key ((rulesAt nodes h.holders).flatMap Rule.selectors) ∧
      Selector.areMergeable config.profile h.selectors = true ∧
      gain? (rulesAt nodes h.holders) h.declarations h.selectors = some h.gain := by
  unfold best? at hbest
  obtain ⟨pairs, hpairs, hbest⟩ := Attempt.exists_of_bind hbest
  have hlast : lastBest? ((groups pairs).filterMap (ofGroup? config nodes)) = some h := Except.ok.inj hbest
  obtain ⟨group, hgroup, hof⟩ := List.mem_filterMap.mp (lastBest?_mem hlast)
  simp only [ofGroup?] at hof
  split at hof
  case isFalse => cases hof
  next hmergeable =>
  obtain ⟨gain, hgain, hof⟩ := Option.bind_eq_some_iff.mp hof
  cases hof
  exact ⟨pairs, hpairs, hgroup, rfl, hmergeable, hgain⟩

theorem sound_of_group {semantic : Bool} {nodes : List Node} {pairs : List (Declaration × List Nat)} {h : Hoist}
    (hpairs : shared semantic nodes = .ok pairs) (hgroup : (h.declarations, h.holders) ∈ groups pairs)
    (hselectors : h.selectors = Selector.key ((rulesAt nodes h.holders).flatMap Rule.selectors)) :
    Sound semantic nodes h := by
  obtain ⟨hnodup, hall⟩ := movable_of_shared hpairs
  obtain ⟨holders, hholders, heq⟩ := List.mem_map.mp hgroup
  obtain ⟨hdeclarations, rfl⟩ := Prod.mk.inj heq
  refine ⟨?_, ?_, ?_, hselectors⟩
  · rw [← hdeclarations]
    exact hnodup.sublist (List.filter_sublist.map Prod.fst)
  · obtain ⟨q, hq, hqholders⟩ := List.mem_map.mp (List.mem_eraseDups.mp hholders)
    have hmem : q ∈ pairs.filter (·.2 == h.holders) := List.mem_filter.mpr ⟨hq, beq_iff_eq.mpr hqholders⟩
    rw [← hdeclarations]
    exact List.ne_nil_of_mem (List.mem_map_of_mem hmem)
  · intro d hd
    rw [← hdeclarations] at hd
    obtain ⟨q, hq, rfl⟩ := List.mem_map.mp hd
    rw [List.mem_filter, beq_iff_eq] at hq
    rw [← hq.2]
    exact hall q hq.1

theorem sound_of_best? {config : Config} {nodes : List Node} {h : Hoist}
    (hbest : best? config nodes = .ok (some h)) : Sound config.options.mergeSemantically nodes h := by
  obtain ⟨pairs, hpairs, hgroup, hselectors, -, -⟩ := group_of_best? hbest
  exact sound_of_group hpairs hgroup hselectors

end Best

section Rise

open Siblings

variable {config : Config} (again : List Node → Attempt (List Node)) {r : Rule}

/-- A declaration of a rule may change places with another that stands before it. -/
def Free (config : Config) (r : Rule) (d x : Declaration) : Prop :=
  (Touch.ofDeclaration r.selectors d).mayExchange config.options.mergeSemantically
    (Touch.ofDeclaration r.selectors x) = .ok true

/-- A declaration rises past all that it may change places with. -/
theorem reach_rise (hnested : r.nested = []) {d : Declaration} {passed : List Declaration}
    (hfree : ∀ x ∈ passed, Free config r d x) (front back : List Declaration) :
    Siblings.Reach config again [.rule { r with declarations := front ++ (passed ++ d :: back) }]
      [.rule { r with declarations := front ++ d :: (passed ++ back) }] := by
  induction passed generalizing front with
  | nil => exact .refl
  | cons x passed ih =>
      have hrise := ih (fun y hy => hfree y (List.mem_cons_of_mem x hy)) (front ++ [x])
      rw [List.append_assoc, List.append_assoc] at hrise
      have hswap : Move config again [.rule { r with declarations := front ++ x :: d :: (passed ++ back) }]
          [.rule { r with declarations := front ++ d :: x :: (passed ++ back) }] :=
        .swap hnested rfl (hfree x List.mem_cons_self)
      exact hrise.trans hswap.reach

theorem mem_takeWhile_of_filter {body : List Declaration} {keep : Declaration → Bool} {d x : Declaration}
    (hd : keep d = true) (hx : x ∈ (body.filter keep).takeWhile (· != d)) :
    x ∈ body.takeWhile (· != d) := by
  induction body with
  | nil => cases hx
  | cons a body ih =>
      by_cases had : a = d
      · subst had
        rw [List.filter_cons_of_pos hd, List.takeWhile_cons_of_neg (by simp)] at hx
        cases hx
      · rw [List.takeWhile_cons_of_pos (by simpa using had), List.mem_cons]
        by_cases hkeep : keep a = true
        · rw [List.filter_cons_of_pos hkeep, List.takeWhile_cons_of_pos (by simpa using had),
            List.mem_cons] at hx
          exact hx.imp_right ih
        · rw [List.filter_cons_of_neg hkeep] at hx
          exact .inr (ih hx)

/-- What is held once stands between what does not hold it. -/
theorem eq_append_of_count_eq_one {body : List Declaration} {d : Declaration} (h : body.count d = 1) :
    body = body.takeWhile (· != d) ++ d :: (body.dropWhile (· != d)).tail ∧
      body.filter (· != d) = body.takeWhile (· != d) ++ (body.dropWhile (· != d)).tail := by
  induction body with
  | nil => cases h
  | cons a body ih =>
      by_cases had : a = d
      · subst had
        have hnone : body.count a = 0 := by simpa using h
        have hfilter : body.filter (· != a) = body := by
          rw [List.filter_eq_self]
          intro x hx
          have hne : x ≠ a := by
            rintro rfl
            exact List.count_eq_zero.mp hnone hx
          simpa using hne
        simp [hfilter]
      · have hcount : body.count d = 1 := by
          rwa [List.count_cons_of_ne had] at h
        obtain ⟨hbody, hfilter⟩ := ih hcount
        rw [List.takeWhile_cons_of_pos (by simpa using had), List.dropWhile_cons_of_pos (by simpa using had),
          List.filter_cons_of_pos (by simpa using had), hfilter]
        refine ⟨?_, rfl⟩
        rw [List.cons_append, ← hbody]

/-- Declarations that a rule holds once rise to the front of its body, in any order. -/
theorem reach_front (hnested : r.nested = []) (ds : List Declaration)
    (hcount : ∀ d ∈ ds, r.declarations.count d = 1) (hnodup : ds.Nodup)
    (hfree : ∀ d ∈ ds, ∀ x ∈ r.declarations.takeWhile (· != d), Free config r d x) :
    Siblings.Reach config again [.rule r]
      [.rule { r with declarations := ds ++ r.declarations.filter fun d => !ds.contains d }] := by
  -- The last declaration rises past what is not moved; those that were moved before it are in front already.
  induction ds using List.reverseRecOn with
  | nil =>
      have hall : (r.declarations.filter fun d => !([] : List Declaration).contains d) = r.declarations := by
        rw [List.filter_eq_self]
        intro d _
        rfl
      rw [hall]
      exact .refl
  | append_singleton ds d ih =>
      rw [List.nodup_append] at hnodup
      have hprevious := ih (fun x hx => hcount x (List.mem_append_left [d] hx)) hnodup.1
        fun x hx => hfree x (List.mem_append_left [d] hx)
      have hnew : (!ds.contains d) = true := by
        simp only [Bool.not_eq_true', List.contains_eq_mem, decide_eq_false_iff_not]
        intro hd
        exact hnodup.2.2 d hd d List.mem_cons_self rfl
      let rest := r.declarations.filter fun x => !ds.contains x
      have hrest : rest.count d = 1 :=
        (List.count_filter (by exact hnew)).trans (hcount d (List.mem_append_right ds List.mem_cons_self))
      obtain ⟨hcut, hleft⟩ := eq_append_of_count_eq_one hrest
      have hpassed : ∀ x ∈ rest.takeWhile (· != d), Free config r d x := by
        intro x hx
        exact hfree d (List.mem_append_right ds List.mem_cons_self) x (mem_takeWhile_of_filter hnew hx)
      have hrise := reach_rise again hnested hpassed ds (rest.dropWhile (· != d)).tail
      rw [← hcut, ← hleft, List.filter_filter] at hrise
      have hfilter : (r.declarations.filter fun x => !(ds ++ [d]).contains x)
          = r.declarations.filter fun x => x != d && !ds.contains x := by
        congr 1
        funext x
        rw [Bool.eq_iff_iff]
        simp [and_comm]
      rw [hfilter, List.append_assoc]
      exact hprevious.trans hrise

end Rise

/-- A rule that can give away declarations, past the nodes between the first holder and itself. -/
structure Ready (config : Config) (ds : List Declaration) (between : List Node) (r : Rule) : Prop where
  nested : r.nested = []
  selectors : r.selectors ≠ []
  once : ∀ d ∈ ds, r.declarations.count d = 1
  free : ∀ d ∈ ds, ∀ x ∈ r.declarations.takeWhile (· != d), Free config r d x
  notSealed : ∀ node ∈ between, node.isSealed = false
  passes : ∀ d ∈ ds, ∀ node ∈ between, ∀ u ∈ node.touches,
    (Touch.ofDeclaration r.selectors d).mayExchange config.options.mergeSemantically u = .ok true

theorem Ready.subset {config : Config} {ds : List Declaration} {between : List Node} {r : Rule}
    (h : Ready config ds between r) : ds ⊆ r.declarations := by
  intro d hd
  exact List.count_pos_iff.mp (by rw [h.once d hd]; exact Nat.one_pos)

theorem of_mem_offers {node : Node} {d : Declaration} (h : d ∈ offers node) :
    ∃ r, node = .rule r ∧ r.nested = [] ∧ r.selectors ≠ [] ∧ r.declarations.count d = 1 := by
  cases node with
  | rule r =>
      simp only [offers] at h
      split at h
      · cases h
      · next hguard =>
          simp only [Node.isEmpty, Bool.or_eq_true, not_or, List.isEmpty_iff, Bool.not_eq_true',
            Bool.not_eq_false] at hguard
          simp only [heldOnce, List.mem_filter, beq_iff_eq] at h
          exact ⟨r, rfl, hguard.2, hguard.1.1, h.2⟩
  | block head children => cases h
  | fields head declarations => cases h
  | statement text => cases h
  | comment text => cases h

theorem of_mayRise {semantic : Bool} {nodes : List Node} {d : Declaration} {target place : Nat} {r : Rule}
    (hplace : nodes[place]? = some (.rule r)) (h : mayRise semantic nodes d target place = .ok true) :
    (∀ x ∈ r.declarations.takeWhile (· != d), (Touch.ofDeclaration r.selectors d).mayExchange semantic
        (Touch.ofDeclaration r.selectors x) = .ok true) ∧
      ∀ node ∈ (nodes.take place).drop target, node.isSealed = false ∧
        ∀ u ∈ node.touches, (Touch.ofDeclaration r.selectors d).mayExchange semantic u = .ok true := by
  simp only [mayRise, hplace] at h
  split at h
  · cases h
  next hguard =>
  simp only [Bool.or_eq_true, not_or, Bool.not_eq_true, Node.anySealed_eq, List.any_eq_false] at hguard
  obtain ⟨own, hown, h⟩ := Attempt.exists_of_bind h
  cases own with
  | false => cases h
  | true =>
      rw [Touch.mayExchangeAll_eq_ok_true] at hown
      simp only [if_true, Touch.mayExchangeAll_eq_ok_true, Node.touchesOfAll_eq] at h
      constructor
      · intro x hx
        exact hown _ List.mem_cons_self _ (List.mem_map_of_mem hx)
      · intro node hnode
        refine ⟨by simpa using hguard.1 node hnode, ?_⟩
        intro u hu
        exact h _ List.mem_cons_self u (List.mem_flatMap.mpr ⟨node, hnode, hu⟩)

theorem Sound.ready {config : Config} {nodes : List Node} {h : Hoist}
    (hsound : Sound config.options.mergeSemantically nodes h) {place : Nat} (hplace : place ∈ h.holders) :
    ∃ r, nodes[place]? = some (.rule r) ∧
      Ready config h.declarations ((nodes.take place).drop (h.holders.headD 0)) r := by
  obtain ⟨d₀, hd₀⟩ := List.exists_mem_of_ne_nil _ hsound.nonempty
  obtain ⟨node, hnode, hoffers⟩ := (hsound.movable d₀ hd₀).offered place hplace
  obtain ⟨r, rfl, hnested, hselectors, -⟩ := of_mem_offers hoffers
  have hrise (d : Declaration) (hd : d ∈ h.declarations) :=
    of_mayRise hnode ((hsound.movable d hd).rises place hplace)
  refine ⟨r, hnode, hnested, hselectors, ?_, fun d hd => (hrise d hd).1, ?_, ?_⟩
  · intro d hd
    obtain ⟨node', hnode', hoffers'⟩ := (hsound.movable d hd).offered place hplace
    rw [hnode] at hnode'
    cases hnode'
    obtain ⟨r', hr', -, -, honce⟩ := of_mem_offers hoffers'
    cases hr'
    exact honce
  · intro node hmem
    exact ((hrise d₀ hd₀).2 node hmem).1
  · intro d hd node hmem
    exact ((hrise d hd).2 node hmem).2

end Hoist

end CssMinify
