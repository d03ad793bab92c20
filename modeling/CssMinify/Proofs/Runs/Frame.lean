import CssMinify.Optimizer

/-! What a pass over siblings does as a whole, from what it does in each place. Every pass goes through the
list and changes a stretch of it here and there; so a relation that holds of each such change, and that may
be used on a stretch of a longer list, holds between what the pass is given and what it leaves. -/

namespace CssMinify

/-- An attempt that succeeds succeeds in its first part. -/
theorem Attempt.exists_of_bind {α β : Type} {first : Attempt α} {next : α → Attempt β} {b : β}
    (h : (first >>= next) = .ok b) : ∃ a, first = .ok a ∧ next a = .ok b := by
  match first, h with
  | .ok a, h => exact ⟨a, rfl, h⟩

theorem satisfies_of_cutAtLast? {α : Type} {p : α → Bool} {l before after : List α} {last : α}
    (h : cutAtLast? p l = some (before, last, after)) : p last = true := by
  induction l generalizing before with
  | nil => cases h
  | cons a rest ih =>
      rw [cutAtLast?] at h
      split at h
      · next hrest =>
          cases h
          exact ih hrest
      · split at h
        · next hp =>
            cases h
            exact hp
        · cases h

/-- Nothing after the last element that satisfies `p` does. -/
theorem not_satisfies_of_cutAtLast? {α : Type} {p : α → Bool} {l before after : List α} {last : α}
    (h : cutAtLast? p l = some (before, last, after)) : ∀ a ∈ after, p a = false := by
  have hnone {l : List α} (hcut : cutAtLast? p l = none) : ∀ a ∈ l, p a = false := by
    induction l with
    | nil => exact fun a ha => nomatch ha
    | cons a rest ih =>
        rw [cutAtLast?] at hcut
        split at hcut
        · cases hcut
        · next hrest =>
            split at hcut
            · cases hcut
            · next hp => exact List.forall_mem_cons.mpr ⟨Bool.eq_false_iff.mpr hp, ih hrest⟩
  induction l generalizing before with
  | nil => cases h
  | cons a rest ih =>
      rw [cutAtLast?] at h
      split at h
      · next hrest =>
          cases h
          exact ih hrest
      · next hrest =>
          split at h
          · cases h
            exact hnone hrest
          · cases h

namespace Node

theorem of_plainRule? {node : Node} {r : Rule} (h : node.plainRule? = some r) :
    node = .rule r ∧ r.nested = [] := by
  cases node with
  | rule s =>
      simp only [plainRule?] at h
      split at h
      · cases h
      · next hguard =>
          cases h
          simp only [Bool.or_eq_true, not_or, Bool.not_eq_true', Bool.not_eq_false, List.isEmpty_iff] at hguard
          exact ⟨rfl, hguard.2⟩
  | block head children => cases h
  | fields head declarations => cases h
  | statement text => cases h
  | comment text => cases h

theorem of_media? {node : Node} {head : String} {children : List Node}
    (h : node.media? = some (head, children)) : node = .block head children := by
  cases node with
  | block head' children' =>
      simp only [media?] at h
      split at h
      · cases h
        rfl
      · cases h
  | rule r => cases h
  | fields head declarations => cases h
  | statement text => cases h
  | comment text => cases h

end Node

namespace Siblings

theorem of_isMediaWith {head head' : String} {children : List Node}
    (h : isMediaWith head (.block head' children) = true) :
    head' = head ∧ (Node.block head children).media?.isSome = true := by
  simp only [isMediaWith, Option.any_eq_true] at h
  obtain ⟨⟨head'', children'⟩, hmedia, hhead⟩ := h
  cases Node.of_media? hmedia
  rw [beq_iff_eq] at hhead
  cases hhead
  exact ⟨rfl, by rw [hmedia]; rfl⟩

/-- A relation between what siblings were and what they are that may be used on a stretch of them. -/
structure Framed (R : List Node → List Node → Prop) : Prop where
  refl (xs : List Node) : R xs xs
  trans {xs ys zs : List Node} (h : R xs ys) (h' : R ys zs) : R xs zs
  within {xs ys : List Node} (before after : List Node) (h : R xs ys) :
    R (before ++ (xs ++ after)) (before ++ (ys ++ after))

namespace Framed

variable {R : List Node → List Node → Prop} (hR : Framed R) {xs ys : List Node}

include hR

theorem after (before : List Node) (h : R xs ys) : R (before ++ xs) (before ++ ys) := by
  have hwithin := hR.within before [] h
  rwa [List.append_nil, List.append_nil] at hwithin

theorem before (after : List Node) (h : R xs ys) : R (xs ++ after) (ys ++ after) :=
  hR.within [] after h

section Dropping

variable {semantic : Bool} {isCopy : Node → Node → Bool}

theorem dropCopies {node : Node} (hdrop : ∀ {earlier : Node} {between : List Node}, isCopy earlier node = true →
      earlier.mayTravel semantic between = .ok true → R (earlier :: (between ++ [node])) (between ++ [node]))
    {done left : List Node} (h : Siblings.dropCopies semantic isCopy node done = .ok left) :
    R (done ++ [node]) (left ++ [node]) := by
  induction done generalizing left with
  | nil =>
      cases h
      exact hR.refl _
  | cons earlier between ih =>
      rw [Siblings.dropCopies] at h
      obtain ⟨between', hbetween, h⟩ := Attempt.exists_of_bind h
      have hrest : R (earlier :: between ++ [node]) (earlier :: between' ++ [node]) :=
        hR.after [earlier] (ih hbetween)
      refine hR.trans hrest ?_
      split at h
      · next hisCopy =>
          obtain ⟨travels, htravels, h⟩ := Attempt.exists_of_bind h
          cases travels with
          | false =>
              cases h
              exact hR.refl _
          | true =>
              cases h
              exact hdrop hisCopy htravels
      · cases h
        exact hR.refl _

theorem keepLastFrom (hdrop : ∀ {earlier node : Node} {between : List Node}, isCopy earlier node = true →
      earlier.mayTravel semantic between = .ok true → R (earlier :: (between ++ [node])) (between ++ [node]))
    {done rest left : List Node} (h : Siblings.keepLastFrom semantic isCopy done rest = .ok left) :
    R (done ++ rest) left := by
  induction rest generalizing done with
  | nil =>
      cases h
      rw [List.append_nil]
      exact hR.refl _
  | cons node rest ih =>
      rw [Siblings.keepLastFrom] at h
      obtain ⟨done', hdone, h⟩ := Attempt.exists_of_bind h
      have hfirst := hR.before rest (hR.dropCopies hdrop hdone)
      rw [List.append_assoc, List.singleton_append] at hfirst
      exact hR.trans hfirst (ih h)

/-- Every text among `seen` is that of a font face in front. -/
theorem keepFirstFontFaces (hdrop : ∀ {first second : Node} (between : List Node) {body : String},
      first.fontFace? = some body → second.fontFace? = some body →
      R (first :: (between ++ [second])) (first :: between))
    {seen : List String} (done : List Node)
    (hseen : ∀ body ∈ seen, ∃ first ∈ done, first.fontFace? = some body) (nodes : List Node) :
    R (done ++ nodes) (done ++ Siblings.keepFirstFontFaces seen nodes) := by
  induction nodes generalizing seen done with
  | nil => exact hR.refl _
  | cons node rest ih =>
      have hseen' : ∀ body ∈ seen, ∃ first ∈ done ++ [node], first.fontFace? = some body := by
        intro body hbody
        obtain ⟨first, hfirst, hface⟩ := hseen body hbody
        exact ⟨first, List.mem_append_left [node] hfirst, hface⟩
      rw [Siblings.keepFirstFontFaces]
      split
      · next body hnode =>
          split
          · next hcontains =>
              obtain ⟨first, hfirst, hface⟩ := hseen body (List.contains_iff_mem.mp hcontains)
              obtain ⟨front, between, rfl⟩ := List.append_of_mem hfirst
              have hgone := hR.within front rest (hdrop between hface hnode)
              simp only [List.append_assoc, List.cons_append, List.nil_append] at hgone ⊢
              have hrest := ih _ hseen
              simp only [List.append_assoc, List.cons_append] at hrest
              exact hR.trans hgone hrest
          · have hmore : ∀ text ∈ body :: seen, ∃ first ∈ done ++ [node], first.fontFace? = some text := by
              intro text htext
              rcases List.mem_cons.mp htext with rfl | htext
              · exact ⟨node, by simp, hnode⟩
              · exact hseen' text htext
            have hrest := ih _ hmore
            rw [List.append_assoc, List.append_assoc] at hrest
            exact hrest
      · have hrest := ih _ hseen'
        rw [List.append_assoc, List.append_assoc] at hrest
        exact hrest

end Dropping

section Joining

variable {config : Config}

theorem mergeAdjacentFrom (hjoin : ∀ {r s t : Rule}, r.nested = [] → s.nested = [] → r.join? config s = some t →
      R [.rule r, .rule s] [.rule t])
    (first : Node) (rest : List Node) : R (first :: rest) (Siblings.mergeAdjacentFrom config first rest) := by
  induction rest generalizing first with
  | nil => exact hR.refl _
  | cons second rest ih =>
      rw [Siblings.mergeAdjacentFrom]
      cases hjoined : Siblings.join? config first second with
      | none => exact hR.after [first] (ih second)
      | some merged =>
          simp only [Siblings.join?, Option.bind_eq_bind, Option.bind_eq_some_iff, Option.pure_def,
            Option.some.injEq] at hjoined
          obtain ⟨r, hr, s, hs, t, ht, rfl⟩ := hjoined
          obtain ⟨rfl, hrnested⟩ := Node.of_plainRule? hr
          obtain ⟨rfl, hsnested⟩ := Node.of_plainRule? hs
          exact hR.trans (hR.before rest (hjoin hrnested hsnested ht)) (ih (.rule t))

theorem mergeAdjacent (hjoin : ∀ {r s t : Rule}, r.nested = [] → s.nested = [] → r.join? config s = some t →
      R [.rule r, .rule s] [.rule t])
    (nodes : List Node) : R nodes (Siblings.mergeAdjacent config nodes) := by
  cases nodes with
  | nil => exact hR.refl _
  | cons first rest => exact hR.mergeAdjacentFrom hjoin first rest

end Joining

section Distant

variable {semantic : Bool} {m : Merger}
  (hbelow : ∀ {earlier later : Rule} {between : List Node}, earlier.nested = [] → later.nested = [] →
    m.fits earlier later = true → (Node.rule earlier).mayTravel semantic between = .ok true →
    R (.rule earlier :: (between ++ [.rule later])) (between ++ [.rule (m.below earlier later)]))
  (habove : ∀ {earlier later : Rule} {between : List Node}, earlier.nested = [] → later.nested = [] →
    m.fits earlier later = true → (Node.rule later).mayTravel semantic between = .ok true →
    R (.rule earlier :: (between ++ [.rule later])) (.rule (m.above earlier later) :: between))

include hbelow habove

theorem addMerging {done left : List Node} {node : Node}
    (h : Siblings.addMerging semantic m done node = .ok left) : R (done ++ [node]) left := by
  unfold Siblings.addMerging at h
  split at h
  · cases h
    exact hR.refl _
  next later hlater =>
  obtain ⟨rfl, hlnested⟩ := Node.of_plainRule? hlater
  split at h
  · next before earlier between hcut =>
      have hpartner : isPartner m later (.rule earlier) = true := satisfies_of_cutAtLast? hcut
      simp only [isPartner, Option.any_eq_true] at hpartner
      obtain ⟨r, hr, hfits⟩ := hpartner
      obtain ⟨heq, henested⟩ := Node.of_plainRule? hr
      cases heq
      rw [eq_of_cutAtLast? hcut, List.append_assoc, List.cons_append]
      obtain ⟨down, hdown, h⟩ := Attempt.exists_of_bind h
      cases down with
      | true =>
          cases h
          rw [List.append_assoc]
          exact hR.after before (hbelow henested hlnested hfits hdown)
      | false =>
          obtain ⟨up, hup, h⟩ := Attempt.exists_of_bind h
          cases up with
          | true =>
              cases h
              exact hR.after before (habove henested hlnested hfits hup)
          | false =>
              cases h
              rw [eq_of_cutAtLast? hcut, List.append_assoc, List.cons_append]
              exact hR.refl _
  · cases h
    exact hR.refl _

theorem mergeDistant {nodes left : List Node} (h : Siblings.mergeDistant semantic m nodes = .ok left) :
    R nodes left := by
  have hfold : ∀ rest done left : List Node, rest.foldlM (Siblings.addMerging semantic m) done = .ok left →
      R (done ++ rest) left := by
    intro rest
    induction rest with
    | nil =>
        intro done left h
        cases h
        rw [List.append_nil]
        exact hR.refl _
    | cons node rest ih =>
        intro done left h
        rw [List.foldlM_cons] at h
        obtain ⟨done', hdone, h⟩ := Attempt.exists_of_bind h
        have hfirst := hR.before rest (hR.addMerging hbelow habove hdone)
        rw [List.append_assoc, List.singleton_append] at hfirst
        exact hR.trans hfirst (ih done' left h)
  exact hfold nodes [] left h

end Distant

section Media

variable {semantic : Bool} {again : List Node → Attempt (List Node)}
  (hrise : ∀ {head : String} {earlier later between children : List Node},
    (Node.block head earlier).media?.isSome = true → (∀ node ∈ between, isMediaWith head node = false) →
    (Node.block head later).mayTravel semantic between = .ok true → again (earlier ++ later) = .ok children →
    R (.block head earlier :: (between ++ [.block head later])) (.block head children :: between))
  (hsink : ∀ {head : String} {earlier between children : List Node} (later : List Node),
    (Node.block head earlier).media?.isSome = true → (∀ node ∈ between, isMediaWith head node = false) →
    (Node.block head earlier).mayTravel semantic between = .ok true → again (earlier ++ later) = .ok children →
    R (.block head earlier :: (between ++ [.block head later])) (between ++ [.block head children]))

include hrise hsink

theorem mergeMediaFrom {done rest left : List Node}
    (h : Siblings.mergeMediaFrom semantic again done rest = .ok left) : R (done ++ rest) left := by
  fun_induction Siblings.mergeMediaFrom semantic again done rest with
  | case1 done =>
      cases h
      rw [List.append_nil]
      exact hR.refl _
  | case2 done node rest _ ih =>
      rw [← List.singleton_append, ← List.append_assoc]
      exact ih h
  | case3 done node rest head later hmedia before head' earlier between hcut ihUp ihDown ihStay =>
      obtain ⟨rfl, hblock⟩ := of_isMediaWith (satisfies_of_cutAtLast? hcut)
      have hbetween := not_satisfies_of_cutAtLast? hcut
      cases Node.of_media? hmedia
      obtain ⟨up, hup, h⟩ := Attempt.exists_of_bind h
      cases up with
      | true =>
          obtain ⟨children, hagain, h⟩ := Attempt.exists_of_bind h
          refine hR.trans ?_ (ihUp children h)
          have hjoin := hR.within before rest (hrise hblock hbetween hup hagain)
          rw [eq_of_cutAtLast? hcut]
          simp only [List.append_assoc, List.cons_append, List.nil_append] at hjoin ⊢
          exact hjoin
      | false =>
          obtain ⟨down, hdown, h⟩ := Attempt.exists_of_bind h
          cases down with
          | true =>
              obtain ⟨children, hagain, h⟩ := Attempt.exists_of_bind h
              refine hR.trans ?_ (ihDown children h)
              have hjoin := hR.within before rest (hsink later hblock hbetween hdown hagain)
              rw [eq_of_cutAtLast? hcut]
              simp only [List.append_assoc, List.cons_append, List.nil_append] at hjoin ⊢
              exact hjoin
          | false =>
              rw [← List.singleton_append, ← List.append_assoc]
              exact ihStay h
  | case4 done node rest head later _ _ ih =>
      rw [← List.singleton_append, ← List.append_assoc]
      exact ih h

end Media

theorem hoistWithin {config : Config} (hmove : ∀ {nodes : List Node} {h : Hoist},
      Hoist.best? config nodes = .ok (some h) → R nodes (h.apply config nodes))
    {steps : Nat} {nodes left : List Node} {moved : Nat}
    (h : Siblings.hoistWithin config steps nodes = .ok (left, moved)) : R nodes left := by
  induction steps generalizing nodes moved with
  | zero =>
      cases h
      exact hR.refl _
  | succ steps ih =>
      rw [Siblings.hoistWithin] at h
      obtain ⟨best, hbest, h⟩ := Attempt.exists_of_bind h
      cases best with
      | none =>
          cases h
          exact hR.refl _
      | some hoist =>
          obtain ⟨⟨rest, count⟩, hrest, h⟩ := Attempt.exists_of_bind h
          cases h
          exact hR.trans (hmove hbest) (ih hrest)

mutual

theorem pruned (hdrop : ∀ {node : Node}, node.isEmpty = true → R [node] [])
    (hinside : ∀ (head : String) (children : List Node), R children (Node.prunedAll children) →
      R [.block head children] [.block head (Node.prunedAll children)]) :
    ∀ node : Node, R [node] [node.pruned]
  | .block head children => by
      rw [Node.pruned]
      exact hinside head children (prunedAll hdrop hinside children)
  | .rule r => by
      rw [Node.pruned] <;> simp [hR.refl]
  | .fields head ds => by
      rw [Node.pruned] <;> simp [hR.refl]
  | .statement text => by
      rw [Node.pruned] <;> simp [hR.refl]
  | .comment text => by
      rw [Node.pruned] <;> simp [hR.refl]

theorem prunedAll (hdrop : ∀ {node : Node}, node.isEmpty = true → R [node] [])
    (hinside : ∀ (head : String) (children : List Node), R children (Node.prunedAll children) →
      R [.block head children] [.block head (Node.prunedAll children)]) :
    ∀ nodes : List Node, R nodes (Node.prunedAll nodes)
  | [] => by
      rw [Node.prunedAll]
      exact hR.refl _
  | node :: rest => by
      have hnode : R (node :: rest) (node.pruned :: rest) := hR.before rest (pruned hdrop hinside node)
      refine hR.trans hnode ?_
      rw [Node.prunedAll]
      split
      · next hempty => exact hR.trans (hR.before rest (hdrop hempty)) (prunedAll hdrop hinside rest)
      · exact hR.after [node.pruned] (prunedAll hdrop hinside rest)

end

section Runs

variable {config : Config} {again : List Node → Attempt (List Node)}

theorem runAll {passes : List Pass}
    (hpass : ∀ pass ∈ passes, ∀ {nodes : List Node} {outcome : Pass.Outcome},
      pass.run config again nodes = .ok outcome → R nodes outcome.nodes)
    {nodes left : List Node} (h : Siblings.runAll config again passes nodes = .ok left) : R nodes left := by
  induction passes generalizing nodes with
  | nil =>
      cases h
      exact hR.refl _
  | cons pass passes ih =>
      rw [Siblings.runAll] at h
      obtain ⟨outcome, houtcome, h⟩ := Attempt.exists_of_bind h
      have hrest := ih (fun p hp => hpass p (List.mem_cons_of_mem pass hp)) h
      exact hR.trans (hpass pass List.mem_cons_self houtcome) hrest

theorem settleText {round : List Node → Attempt (List Node)}
    (hround : ∀ {xs ys : List Node}, round xs = .ok ys → R xs ys) {rounds : Nat} {nodes left : List Node}
    (h : Siblings.settleText round rounds nodes = .ok left) : R nodes left := by
  induction rounds generalizing nodes with
  | zero =>
      cases h
      exact hR.refl _
  | succ rounds ih =>
      rw [Siblings.settleText] at h
      obtain ⟨next, hnext, h⟩ := Attempt.exists_of_bind h
      split at h
      · cases h
        exact hround hnext
      · exact hR.trans (hround hnext) (ih h)

theorem mapM {change : Node → Attempt Node} (hchange : ∀ {node left : Node}, change node = .ok left → R [node] [left])
    {nodes left : List Node} (h : nodes.mapM change = .ok left) : R nodes left := by
  induction nodes generalizing left with
  | nil =>
      cases h
      exact hR.refl _
  | cons node nodes ih =>
      rw [List.mapM_cons] at h
      obtain ⟨first, hfirst, h⟩ := Attempt.exists_of_bind h
      obtain ⟨rest, hrest, h⟩ := Attempt.exists_of_bind h
      cases h
      have hnode : R (node :: nodes) (first :: nodes) := hR.before nodes (hchange hfirst)
      exact hR.trans hnode (hR.after [first] (ih hrest))

theorem map {change : Node → Node} (hchange : ∀ node, R [node] [change node]) (nodes : List Node) :
    R nodes (nodes.map change) := by
  induction nodes with
  | nil => exact hR.refl _
  | cons node nodes ih =>
      have hnode : R (node :: nodes) (change node :: nodes) := hR.before nodes (hchange node)
      exact hR.trans hnode (hR.after [change node] ih)

end Runs

end Framed

end Siblings

end CssMinify
