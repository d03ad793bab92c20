import CssMinify.Proofs.Effect.Merging

/-!
Merging longhands into shorthands changes nothing that a body does. The parts of a shorthand are the only
declarations of a stretch that set what it sets, so their values may move down to the end of the stretch.
What the shorthand gives to a free longhand does not matter, since something after it sets that longhand
again, and later merges keep it so.
-/

namespace CssMinify

namespace Property

/-- A property that is alive and sets a longhand where and how another sets it. -/
structure Covers (q p : Property) (longhand : String) : Prop where
  live : q.unused = false
  hack : q.hack = p.hack
  important : q.important = p.important
  mem : longhand ∈ q.leafNames

/-- Whatever is free is set again by what follows. -/
def Covered : List Property → Prop
  | [] => True
  | p :: rest =>
    (p.unused = false → ∀ leaf ∈ p.leaves, leaf.free = true → ∃ q ∈ rest, q.Covers p leaf.name) ∧
      Covered rest

section Coverage

theorem covered_of_bound {ps : List Property} (h : ∀ p ∈ ps, p.unused = false → p.Bound) : Covered ps := by
  induction ps with
  | nil => trivial
  | cons p ps ih =>
      refine ⟨fun hlive leaf hleaf hfree => ?_, ih fun q hq => h q (List.mem_cons_of_mem p hq)⟩
      rw [h p List.mem_cons_self hlive leaf hleaf] at hfree
      cases hfree

theorem Covered.of_append {as bs : List Property} (h : Covered (as ++ bs)) : Covered bs := by
  induction as with
  | nil => exact h
  | cons a as ih => exact ih h.2

/-- What follows may be exchanged for something that covers as much. -/
theorem Covered.exchange {as bs bs' : List Property} (h : Covered (as ++ bs)) (hbs' : Covered bs')
    (hle : ∀ q ∈ bs, ∀ p l, q.Covers p l → ∃ q' ∈ bs', q'.Covers p l) : Covered (as ++ bs') := by
  induction as with
  | nil => exact hbs'
  | cons a as ih =>
      refine ⟨fun hlive leaf hleaf hfree => ?_, ih h.2⟩
      obtain ⟨q, hq, hcovers⟩ := h.1 hlive leaf hleaf hfree
      rcases List.mem_append.mp hq with hq | hq
      · exact ⟨q, List.mem_append_left bs' hq, hcovers⟩
      · obtain ⟨q', hq', hcovers'⟩ := hle q hq a leaf.name hcovers
        exact ⟨q', List.mem_append_right as hq', hcovers'⟩

/-- What is free in a stretch of properties that set different things is set again after the stretch. -/
theorem Covered.beyond {d : Descriptor} {stretch after : List Property} (h : Covered (stretch ++ after))
    (hapart : stretch.Pairwise (Apart d)) {p leaf : Property} (hp : p ∈ stretch) (hlive : p.unused = false)
    (hleaf : leaf ∈ p.leaves) (hfree : leaf.free = true) (hmem : leaf.name ∈ p.leafNames)
    (hd : leaf.name ∈ d.leaves) : ∃ q ∈ after, q.Covers p leaf.name := by
  induction stretch with
  | nil => cases hp
  | cons a stretch ih =>
      rw [List.pairwise_cons] at hapart
      rcases List.mem_cons.mp hp with rfl | hp
      · obtain ⟨q, hq, hcovers⟩ := h.1 hlive leaf hleaf hfree
        rcases List.mem_append.mp hq with hq | hq
        · exact absurd hcovers.mem (hapart.1 q hq hlive hcovers.live leaf.name hd hmem)
        · exact ⟨q, hq, hcovers⟩
      · exact ih h.2 hapart.2 hp

variable {profile : Profile} {reads : Hack → Bool} {longhand : String}

/-- Claims of properties that are alive, set a longhand and agree in importance and hack are equally
high. -/
theorem Covers.rank_eq {q p : Property} (h : q.Covers p longhand) (hlive : p.unused = false)
    (hmem : longhand ∈ p.leafNames) :
    (q.claim profile (fun d => reads d.hack) longhand).rank
      = (p.claim profile (fun d => reads d.hack) longhand).rank := by
  by_cases hread : reads p.hack = true
  · rw [rank_claim h.live (by rw [h.hack]; exact hread) h.mem, rank_claim hlive hread hmem, h.important]
  · rw [claim_of_live h.live, claim_of_live hlive, Declaration.claim, Declaration.claim,
      if_neg (by rw [h.hack]; exact hread), if_neg hread]

end Coverage

/-- The longhands of a property that differs from another in its place only. -/
theorem exists_leaf_of_congr {p q leaf : Property} (hdeclaration : q.toDeclaration = p.toDeclaration)
    (hcomponents : q.components = p.components) (hfree : q.free = p.free) (hleaf : leaf ∈ q.leaves) :
    ∃ leaf' ∈ p.leaves, leaf'.name = leaf.name ∧ leaf'.value = leaf.value ∧ leaf'.free = leaf.free := by
  by_cases hnil : p.components = []
  · rw [leaves_of_components_eq_nil (hcomponents.trans hnil), List.mem_singleton] at hleaf
    rw [leaves_of_components_eq_nil hnil, hleaf]
    exact ⟨p, List.mem_singleton_self p, by rw [hdeclaration], by rw [hdeclaration], hfree.symm⟩
  · rw [← leaves_congr hcomponents.symm hnil] at hleaf
    exact ⟨leaf, hleaf, rfl, rfl, rfl⟩

theorem Steady.congr {profile : Profile} {p q : Property} (h : Steady profile p)
    (hdeclaration : q.toDeclaration = p.toDeclaration) (hcomponents : q.components = p.components)
    (hfree : q.free = p.free) : Steady profile q := by
  have hknown : q.isOpaque = p.isOpaque := by rw [isOpaque, isOpaque, isShorthand, isShorthand, hdeclaration,
    hcomponents]
  refine ⟨fun hq => regular_congr (by rw [hdeclaration]) hcomponents.symm (h.regular (hknown ▸ hq)), ?_⟩
  intro hq leaf hleaf hleaffree
  obtain ⟨leaf', hleaf', hname, hvalue, hfree'⟩ := exists_leaf_of_congr hdeclaration hcomponents hfree hleaf
  rw [hdeclaration, ← hname, ← hvalue]
  exact h.settings (hknown ▸ hq) leaf' hleaf' (hfree'.trans hleaffree)

theorem of_mayMerge {config : Config} {important : Bool} {p : Property}
    (h : p.mayMerge config important = true) :
    p.important = important ∧ p.hack = .none ∧ p.isOpaque = false := by
  simp only [mayMerge, Bool.and_eq_true, beq_iff_eq, Bool.not_eq_true', Bool.and_eq_false_imp] at h
  obtain ⟨⟨⟨⟨⟨⟨-, himportant⟩, hhack⟩, -⟩, -⟩, hanalysed⟩, -⟩ := h
  refine ⟨himportant, hhack, ?_⟩
  cases hshort : p.isShorthand with
  | false => simp [isOpaque, hshort]
  | true => simpa [isAnalysed, isOpaque, hshort] using hanalysed hshort

/-- A shorthand with what follows it, in the place of the parts that a stretch has of it. -/
structure Exchange (profile : Profile) (d : Descriptor) (stretch parts : List Property) (important : Bool)
    (s : Property) (extras : List Property) : Prop where
  inStretch : Stretch d stretch parts
  longhands : ∀ l, l ∈ d.leaves ↔ ∃ p ∈ parts, l ∈ p.leafNames
  agree : ∀ p ∈ parts, p.important = important ∧ p.hack = .none ∧ p.isOpaque = false
  steady : ∀ p ∈ parts, Steady profile p
  leafNames : s.leafNames = d.leaves
  assembled : Assembled profile d parts important s extras

/-- The properties that are alive give what their declarations give, and whatever is free is set again. -/
structure Sound (profile : Profile) (ps : List Property) : Prop where
  steady : ∀ p ∈ ps, p.unused = false → Steady profile p
  covered : Covered ps

theorem AllFaithful.sound {profile : Profile} {ps : List Property} (h : AllFaithful profile ps) :
    Sound profile ps where
  steady := fun p hp hlive => (h p hp hlive).steady
  covered := covered_of_bound fun p hp hlive => (h p hp hlive).bound

theorem exchange_of_merged {config : Config} {d : Descriptor} {ps ps' : List Property}
    (hd : Registry.builtin.find? d.name = some d) (hne : d.components ≠ [])
    (h : Merged config d ps ps') (hps : Sound config.profile ps) :
    ∃ before stretch b after parts important s extras,
      ps = before ++ (stretch ++ b :: after) ∧
      ps' = before ++ (stretch.map (retire d) ++ (s :: extras ++ after)) ∧ b ∈ parts ∧
      Exchange config.profile d (stretch ++ [b]) parts important s extras := by
  obtain ⟨before, after, hstretch, hb, hnames, hmay, hassemble⟩ := h
  rename_i stretch parts merged b important position
  have hrow := (Registry.mem_of_find? hd).1
  have hsteady (p : Property) (hp : p ∈ parts) : Steady config.profile p := by
    obtain ⟨hmem, hpart⟩ := (hstretch.mem p).mp hp
    refine hps.steady p ?_ (isPart_iff.mp hpart).1
    simp only [List.mem_append, List.mem_cons, List.not_mem_nil, or_false] at hmem ⊢
    tauto
  have hknown (p : Property) (hp : p ∈ parts) : p.isOpaque = false := (of_mayMerge (hmay p hp)).2.2
  obtain ⟨s, extras, rfl, hassembled⟩ := assembled_of_assemble? hassemble hd hne hnames
    fun p hp => (hsteady p hp).regular (hknown p hp)
  refine ⟨before, stretch, b, after, parts, important, s, extras, rfl, rfl, hb, hstretch, fun l => ?_,
    fun p hp => of_mayMerge (hmay p hp), hsteady, ?_, hassembled⟩
  · rw [Registry.leaves_eq_flatMap hrow hne, List.mem_flatMap, ← hnames]
    constructor
    · rintro ⟨name, hname, hl⟩
      obtain ⟨p, hp, rfl⟩ := List.mem_map.mp hname
      obtain ⟨row, hrow'⟩ := Registry.exists_find?_of_mem_components hrow (hnames ▸ hname)
      exact ⟨p, hp, leafNames_eq_registry hrow' ▸ hl⟩
    · rintro ⟨p, hp, hl⟩
      have hname : p.name ∈ parts.map (·.name) := List.mem_map_of_mem hp
      obtain ⟨row, hrow'⟩ := Registry.exists_find?_of_mem_components hrow (hnames ▸ hname)
      exact ⟨p.name, hname, leafNames_eq_registry hrow' ▸ hl⟩
  · exact leafNames_of_descriptor? (by rw [descriptor?, hassembled.name, hd])

namespace Exchange

variable {profile : Profile} {d : Descriptor} {stretch parts extras : List Property} {important : Bool}
  {s : Property}

theorem part_live (h : Exchange profile d stretch parts important s extras) {p : Property} (hp : p ∈ parts) :
    p.unused = false :=
  (isPart_iff.mp ((h.inStretch.mem p).mp hp).2).1

theorem regular (h : Exchange profile d stretch parts important s extras) {p : Property} (hp : p ∈ parts) :
    p.Regular :=
  (h.steady p hp).regular (h.agree p hp).2.2

/-- The shorthand covers all that its parts cover. -/
theorem covers_of_part (h : Exchange profile d stretch parts important s extras) {p q : Property}
    {longhand : String} (hq : q ∈ parts) (hcovers : q.Covers p longhand) : s.Covers p longhand := by
  obtain ⟨himportant, hhack, -⟩ := h.agree q hq
  constructor
  · exact h.assembled.live
  · rw [h.assembled.hack, ← hhack, hcovers.hack]
  · rw [h.assembled.important, ← himportant, hcovers.important]
  · rw [h.leafNames, h.longhands]
    exact ⟨q, hq, hcovers.mem⟩

/-- Every part sets what it sets just as the shorthand does. -/
theorem covers_shorthand (h : Exchange profile d stretch parts important s extras) {p : Property}
    {longhand : String} (hp : p ∈ parts) (hmem : longhand ∈ p.leafNames) : p.Covers s longhand := by
  obtain ⟨himportant, hhack, -⟩ := h.agree p hp
  constructor
  · exact h.part_live hp
  · rw [hhack, h.assembled.hack]
  · rw [himportant, h.assembled.important]
  · exact hmem

/-- What is free in a part is set again after the stretch, and what sets it covers the shorthand. -/
theorem beyond (h : Exchange profile d stretch parts important s extras) {after : List Property}
    (hcovered : Covered (stretch ++ after)) {p leaf : Property} (hp : p ∈ parts) (hleaf : leaf ∈ p.leaves)
    (hfree : leaf.free = true) : ∃ q ∈ after, q.Covers s leaf.name := by
  have hmem : leaf.name ∈ p.leafNames := (mem_leafNames_iff (h.regular hp)).mpr ⟨leaf, hleaf, rfl⟩
  have hd : leaf.name ∈ d.leaves := (h.longhands leaf.name).mpr ⟨p, hp, hmem⟩
  obtain ⟨q, hq, hcovers⟩ := hcovered.beyond h.inStretch.apart ((h.inStretch.mem p).mp hp).1
    (h.part_live hp) hleaf hfree hmem hd
  have hps := h.covers_shorthand hp hmem
  exact ⟨q, hq, hcovers.live, hcovers.hack.trans hps.hack, hcovers.important.trans hps.important, hcovers.mem⟩

theorem covered_merged (h : Exchange profile d stretch parts important s extras) {after : List Property}
    (hcovered : Covered (stretch ++ after)) : Covered (s :: extras ++ after) := by
  have hextras : ∀ xs, (∀ x ∈ xs, x ∈ extras) → Covered (xs ++ after) := by
    intro xs
    induction xs with
    | nil =>
        intro _
        exact hcovered.of_append
    | cons x xs ih =>
        intro hxs
        refine ⟨?_, ih fun y hy => hxs y (List.mem_cons_of_mem x hy)⟩
        intro _ leaf hleaf hfree
        obtain ⟨p, hp, position, rfl⟩ := h.assembled.repeated x (hxs x List.mem_cons_self)
        obtain ⟨leaf', hleaf', hname, -, hfree'⟩ :=
          exists_leaf_of_congr (p := p) (q := { p with position }) rfl rfl rfl hleaf
        obtain ⟨q, hq, hcovers⟩ := h.beyond hcovered hp hleaf' (hfree'.trans hfree)
        have hmem := (mem_leafNames_iff (h.regular hp)).mpr ⟨leaf', hleaf', rfl⟩
        have hps := h.covers_shorthand hp hmem
        rw [hname] at hcovers
        exact ⟨q, List.mem_append_right xs hq, hcovers.live, hcovers.hack.trans hps.hack.symm,
          hcovers.important.trans hps.important.symm, hcovers.mem⟩
  refine ⟨?_, hextras extras fun x hx => hx⟩
  intro _ leaf hleaf hfree
  rcases h.assembled.covered leaf hleaf with ⟨p, hp, hleaf'⟩ | ⟨x, hx, hmem⟩
  · obtain ⟨q, hq, hcovers⟩ := h.beyond hcovered hp hleaf' hfree
    exact ⟨q, List.mem_append_right extras hq, hcovers⟩
  · obtain ⟨p, hp, position, rfl⟩ := h.assembled.repeated x hx
    have hps := h.covers_shorthand hp hmem
    exact ⟨_, List.mem_append_left after hx, hps.live, hps.hack, hps.important, hps.mem⟩

theorem retire_of_not_part {p : Property} (hp : p.isPart d = false) : p.retire d = p := by
  rw [retire, if_neg (by simp [hp])]

/-- What is left of a stretch, the shorthand and what follows cover all that was covered. -/
theorem covers_retired {b : Property} (h : Exchange profile d (stretch ++ [b]) parts important s extras)
    (hb : b ∈ parts) {rest after : List Property} (hrest : ∀ p ∈ rest, p ∈ stretch) {q p : Property}
    {longhand : String} (hq : q ∈ rest ++ b :: after) (hcovers : q.Covers p longhand) :
    ∃ q' ∈ rest.map (retire d) ++ (s :: extras ++ after), q'.Covers p longhand := by
  have hs : s ∈ rest.map (retire d) ++ (s :: extras ++ after) := by simp
  simp only [List.mem_append, List.mem_cons] at hq
  rcases hq with hq | rfl | hq
  · by_cases hpart : q.isPart d = true
    · have hmem : q ∈ parts := (h.inStretch.mem q).mpr ⟨by simp [hrest q hq], hpart⟩
      exact ⟨s, hs, h.covers_of_part hmem hcovers⟩
    · refine ⟨q, List.mem_append_left _ (List.mem_map.mpr ⟨q, hq, ?_⟩), hcovers⟩
      exact retire_of_not_part (by simpa using hpart)
  · exact ⟨s, hs, h.covers_of_part hb hcovers⟩
  · exact ⟨q, by simp [hq], hcovers⟩

theorem covered_retired {b : Property} (h : Exchange profile d (stretch ++ [b]) parts important s extras)
    (hb : b ∈ parts) {rest after : List Property} (hrest : ∀ p ∈ rest, p ∈ stretch)
    (hcovered : Covered (rest ++ b :: after)) (hmerged : Covered (s :: extras ++ after)) :
    Covered (rest.map (retire d) ++ (s :: extras ++ after)) := by
  induction rest with
  | nil => exact hmerged
  | cons a rest ih =>
      have hrest' : ∀ p ∈ rest, p ∈ stretch := fun p hp => hrest p (List.mem_cons_of_mem a hp)
      refine ⟨?_, ih hrest' hcovered.2⟩
      by_cases hpart : a.isPart d = true
      · intro hlive
        rw [retire, if_pos hpart] at hlive
        cases hlive
      · rw [retire_of_not_part (by simpa using hpart)]
        intro hlive leaf hleaf hfree
        obtain ⟨q, hq, hcovers⟩ := hcovered.1 hlive leaf hleaf hfree
        exact h.covers_retired hb hrest' hq hcovers

end Exchange

/-- A merge leaves a sound body. -/
theorem Merged.sound {config : Config} {d : Descriptor} {ps ps' : List Property}
    (hd : Registry.builtin.find? d.name = some d) (hne : d.components ≠ []) (h : Merged config d ps ps')
    (hps : Sound config.profile ps) : Sound config.profile ps' := by
  obtain ⟨before, stretch, b, after, parts, important, s, extras, rfl, rfl, hb, hex⟩ :=
    exchange_of_merged hd hne h hps
  constructor
  · intro p hp hlive
    simp only [List.mem_append, List.mem_cons] at hp
    rcases hp with hp | hp | (rfl | hp) | hp
    · exact hps.steady p (by simp [hp]) hlive
    · obtain ⟨q, hq, rfl⟩ := List.mem_map.mp hp
      by_cases hpart : q.isPart d = true
      · rw [retire, if_pos hpart] at hlive
        cases hlive
      · rw [Exchange.retire_of_not_part (by simpa using hpart)] at hlive ⊢
        exact hps.steady q (by simp [hq]) hlive
    · exact hex.assembled.steady
    · obtain ⟨q, hq, position, rfl⟩ := hex.assembled.repeated p hp
      exact (hex.steady q hq).congr rfl rfl rfl
    · exact hps.steady p (by simp [hp]) hlive
  · have hstretch : Covered (stretch ++ b :: after) := hps.covered.of_append
    have hmerged : Covered (s :: extras ++ after) :=
      hex.covered_merged (by rw [List.append_assoc]; exact hstretch)
    apply hps.covered.exchange
    · exact hex.covered_retired hb (fun p hp => hp) hstretch hmerged
    · intro q hq p longhand hcovers
      exact hex.covers_retired hb (fun p hp => hp) hq hcovers

/-- What a property claims for a longhand, in whatever case an `inherit` is written. -/
def settledClaim (profile : Profile) (reads : Hack → Bool) (longhand : String) (p : Property) : Claim :=
  (p.claim profile (fun d => reads d.hack) longhand).mapSetting Setting.settled

/-- What the claims of a body come to. -/
def settledWinner (profile : Profile) (reads : Hack → Bool) (longhand : String) (ps : List Property) : Claim :=
  Claim.winner (ps.map (settledClaim profile reads longhand))

section Keeps

variable {profile : Profile} {reads : Hack → Bool} {longhand : String}

theorem settledWinner_cons (p : Property) (ps : List Property) :
    settledWinner profile reads longhand (p :: ps)
      = (p.settledClaim profile reads longhand).andThen (settledWinner profile reads longhand ps) :=
  rfl

theorem settledWinner_append (ps qs : List Property) :
    settledWinner profile reads longhand (ps ++ qs)
      = (settledWinner profile reads longhand ps).andThen (settledWinner profile reads longhand qs) := by
  rw [settledWinner, List.map_append, Claim.winner_append, settledWinner, settledWinner]

theorem settledWinner_eq_none {ps : List Property}
    (h : ∀ p ∈ ps, p.settledClaim profile reads longhand = none) :
    settledWinner profile reads longhand ps = none := by
  apply Claim.winner_eq_none
  intro a ha
  obtain ⟨p, hp, rfl⟩ := List.mem_map.mp ha
  exact h p hp

theorem rank_le_rank_settledWinner {p : Property} {ps : List Property} (h : p ∈ ps) :
    (p.settledClaim profile reads longhand).rank ≤ (settledWinner profile reads longhand ps).rank :=
  Claim.rank_le_rank_winner (List.mem_map_of_mem h)

theorem settledClaim_of_unused {p : Property} (h : p.unused = true) :
    p.settledClaim profile reads longhand = none := by
  rw [settledClaim, claim_of_unused h]
  rfl

theorem settledClaim_of_not_mem {p : Property} (h : longhand ∉ p.leafNames) :
    p.settledClaim profile reads longhand = none := by
  rw [settledClaim, claim_eq_none_of_not_mem h]
  rfl

theorem Covers.rank_settledClaim (profile : Profile) (reads : Hack → Bool) {q p : Property}
    (h : q.Covers p longhand) (hlive : p.unused = false) (hmem : longhand ∈ p.leafNames) :
    (q.settledClaim profile reads longhand).rank = (p.settledClaim profile reads longhand).rank := by
  rw [settledClaim, settledClaim, Claim.rank_mapSetting, Claim.rank_mapSetting, h.rank_eq hlive hmem]

/-- A steady property claims what it has for a longhand that is not free. -/
theorem Steady.settledClaim_eq {p leaf : Property} (h : Steady profile p) (hlive : p.unused = false)
    (hknown : p.isOpaque = false) (hleaf : leaf ∈ p.leaves) (hfree : leaf.free = false) :
    p.settledClaim profile reads leaf.name
      = if reads p.hack then some (p.important, (Setting.own leaf.value).settled) else none := by
  have hsetting := h.settings hknown leaf hleaf hfree
  rw [settledClaim, claim_of_live hlive, Declaration.claim]
  split
  · obtain ⟨setting, hsome, hsettled⟩ := Option.map_eq_some_iff.mp hsetting
    rw [hsome, ← hsettled]
    rfl
  · rfl

theorem Stretch.eq_of_mem {d : Descriptor} {stretch parts : List Property} (h : Stretch d stretch parts)
    {p q : Property} (hp : p ∈ stretch) (hq : q ∈ stretch) (hplive : p.unused = false)
    (hqlive : q.unused = false) (hd : longhand ∈ d.leaves) (hlp : longhand ∈ p.leafNames)
    (hlq : longhand ∈ q.leafNames) : p = q := by
  have : Std.Symm (Apart d) := ⟨fun _ _ h hq hp l hl hlq hlp => h hp hq l hl hlp hlq⟩
  by_contra hne
  exact h.apart.forall hp hq hne hplive hqlive longhand hd hlp hlq

namespace Exchange

variable {d : Descriptor} {stretch parts extras after : List Property} {important : Bool} {s s' p : Property}

/-- The parts of a stretch claim what the one part claims that sets a longhand. -/
theorem winner_stretch (h : Exchange profile d stretch parts important s extras) (hp : p ∈ parts)
    (hmem : longhand ∈ p.leafNames) :
    settledWinner profile reads longhand stretch
      = p.settledClaim profile reads longhand := by
  have hd : longhand ∈ d.leaves := (h.longhands longhand).mpr ⟨p, hp, hmem⟩
  have hstretch : p ∈ stretch := ((h.inStretch.mem p).mp hp).1
  apply Claim.winner_eq_of_forall
  · intro a ha
    obtain ⟨q, hq, rfl⟩ := List.mem_map.mp ha
    by_cases hlive : q.unused = false
    · by_cases hmem' : longhand ∈ q.leafNames
      · rw [h.inStretch.eq_of_mem hq hstretch hlive (h.part_live hp) hd hmem' hmem]
        exact .inr rfl
      · exact .inl (settledClaim_of_not_mem hmem')
    · exact .inl (settledClaim_of_unused (by simpa using hlive))
  · exact List.mem_map_of_mem hstretch

/-- Parts that are set again claim what they claimed before. -/
theorem winner_extras (h : Exchange profile d stretch parts important s extras) (hp : p ∈ parts)
    (hmem : longhand ∈ p.leafNames) (hextra : ∃ x ∈ extras, longhand ∈ x.leafNames) :
    settledWinner profile reads longhand extras
      = p.settledClaim profile reads longhand := by
  have hd : longhand ∈ d.leaves := (h.longhands longhand).mpr ⟨p, hp, hmem⟩
  have hone : ∀ x ∈ extras, longhand ∈ x.leafNames →
      x.settledClaim profile reads longhand = p.settledClaim profile reads longhand := by
    intro x hx hmem'
    obtain ⟨q, hq, position, rfl⟩ := h.assembled.repeated x hx
    have hqp : q = p := h.inStretch.eq_of_mem ((h.inStretch.mem q).mp hq).1 ((h.inStretch.mem p).mp hp).1
      (h.part_live hq) (h.part_live hp) hd hmem' hmem
    rw [← hqp]
    rfl
  apply Claim.winner_eq_of_forall
  · intro a ha
    obtain ⟨x, hx, rfl⟩ := List.mem_map.mp ha
    by_cases hmem' : longhand ∈ x.leafNames
    · exact .inr (hone x hx hmem')
    · exact .inl (settledClaim_of_not_mem hmem')
  · obtain ⟨x, hx, hmem'⟩ := hextra
    rw [← hone x hx hmem']
    exact List.mem_map_of_mem hx

/-- The shorthand and what is set again after it come to what the parts came to. -/
theorem winner_merged (h : Exchange profile d stretch parts important s extras)
    (hcovered : Covered (stretch ++ after)) (hd : longhand ∈ d.leaves) :
    (settledWinner profile reads longhand (s :: extras)).andThen
        (settledWinner profile reads longhand after)
      = (settledWinner profile reads longhand stretch).andThen
          (settledWinner profile reads longhand after) := by
  obtain ⟨p, hp, hmem⟩ := (h.longhands longhand).mp hd
  have hslive := h.assembled.live
  have hsmem : longhand ∈ s.leafNames := h.leafNames ▸ hd
  have hrank := (h.covers_shorthand hp hmem).rank_settledClaim profile reads hslive hsmem
  rw [h.winner_stretch hp hmem, settledWinner_cons]
  by_cases hextra : ∃ x ∈ extras, longhand ∈ x.leafNames
  · rw [h.winner_extras hp hmem hextra, Claim.andThen_of_rank_le (Nat.le_of_eq hrank.symm)]
  · have hnone : settledWinner profile reads longhand extras = none := by
      apply settledWinner_eq_none
      intro x hx
      exact settledClaim_of_not_mem fun hmem' => hextra ⟨x, hx, hmem'⟩
    rw [hnone, Claim.andThen_none]
    have hsknown : s.isOpaque = false := isOpaque_of_components_ne_nil h.assembled.components
    obtain ⟨leaf, hleaf, rfl⟩ := (mem_leafNames_iff (h.assembled.steady.regular hsknown)).mp hsmem
    rcases h.assembled.covered leaf hleaf with ⟨q, hq, hleafq⟩ | hex
    case inr => exact absurd hex hextra
    cases hfree : leaf.free with
    | true =>
        -- Neither claim matters: what covers the longhand claims as much.
        obtain ⟨r, hr, hcovers⟩ := h.beyond hcovered hq hleafq hfree
        have hrank' := hcovers.rank_settledClaim profile reads hslive hsmem
        have hle : (r.settledClaim profile reads leaf.name).rank
            ≤ (settledWinner profile reads leaf.name after).rank := rank_le_rank_settledWinner hr
        rw [Claim.andThen_of_rank_le (by omega), Claim.andThen_of_rank_le (by omega)]
    | false =>
        have hqmem : leaf.name ∈ q.leafNames := (mem_leafNames_iff (h.regular hq)).mpr ⟨leaf, hleafq, rfl⟩
        have hqp : q = p := h.inStretch.eq_of_mem ((h.inStretch.mem q).mp hq).1
          ((h.inStretch.mem p).mp hp).1 (h.part_live hq) (h.part_live hp) hd hqmem hmem
        subst hqp
        obtain ⟨himportant, hhack, hknown⟩ := h.agree q hq
        rw [h.assembled.steady.settledClaim_eq hslive hsknown hleaf hfree,
          (h.steady q hq).settledClaim_eq (h.part_live hq) hknown hleafq hfree, h.assembled.hack, hhack,
          h.assembled.important, himportant]

theorem settledClaim_retire (h : Exchange profile d (stretch ++ [s']) parts important s extras) {q : Property}
    (hq : q ∈ stretch) (hd : longhand ∉ d.leaves) :
    (q.retire d).settledClaim profile reads longhand = q.settledClaim profile reads longhand := by
  by_cases hpart : q.isPart d = true
  · have hmem : longhand ∉ q.leafNames := by
      intro hmem
      exact hd ((h.longhands longhand).mpr ⟨q, (h.inStretch.mem q).mpr ⟨by simp [hq], hpart⟩, hmem⟩)
    rw [settledClaim_of_not_mem hmem, retire, if_pos hpart, settledClaim_of_unused rfl]
  · rw [retire_of_not_part (by simpa using hpart)]

/-- A longhand that the shorthand does not set is not touched. -/
theorem winner_of_not_mem (h : Exchange profile d (stretch ++ [s']) parts important s extras)
    (hs' : s' ∈ parts) (hd : longhand ∉ d.leaves) :
    settledWinner profile reads longhand (stretch.map (retire d) ++ s :: extras)
      = settledWinner profile reads longhand (stretch ++ [s']) := by
  have hparts : ∀ q ∈ parts, longhand ∉ q.leafNames :=
    fun q hq hmem => hd ((h.longhands longhand).mpr ⟨q, hq, hmem⟩)
  have hretire : settledWinner profile reads longhand (stretch.map (retire d))
      = settledWinner profile reads longhand stretch := by
    rw [settledWinner, List.map_map, settledWinner]
    congr 1
    apply List.map_congr_left
    intro q hq
    exact h.settledClaim_retire hq hd
  have hextras : settledWinner profile reads longhand extras = none := by
    apply settledWinner_eq_none
    intro x hx
    obtain ⟨q, hq, position, rfl⟩ := h.assembled.repeated x hx
    exact settledClaim_of_not_mem (hparts q hq)
  have hs : s.settledClaim profile reads longhand = none :=
    settledClaim_of_not_mem (by rw [h.leafNames]; exact hd)
  rw [settledWinner_append, settledWinner_append, hretire, settledWinner_cons, settledWinner_cons, hs,
    hextras, settledClaim_of_not_mem (hparts s' hs')]
  rfl

/-- What is retired of a stretch claims nothing of what the shorthand sets. -/
theorem winner_retired (stretch : List Property) (hd : longhand ∈ d.leaves) :
    settledWinner profile reads longhand (stretch.map (retire d)) = none := by
  apply settledWinner_eq_none
  intro p hp
  obtain ⟨q, hq, rfl⟩ := List.mem_map.mp hp
  by_cases hpart : q.isPart d = true
  · exact settledClaim_of_unused (by rw [retire, if_pos hpart])
  · rw [retire_of_not_part (by simpa using hpart)]
    by_cases hlive : q.unused = false
    · exact settledClaim_of_not_mem fun hmem => hpart (isPart_iff.mpr ⟨hlive, longhand, hmem, hd⟩)
    · exact settledClaim_of_unused (by simpa using hlive)

end Exchange

/-- A merge keeps the winner of every longhand. -/
theorem Merged.keeps {config : Config} {d : Descriptor} {ps ps' : List Property}
    (hd : Registry.builtin.find? d.name = some d) (hne : d.components ≠ []) (h : Merged config d ps ps')
    (hps : Sound config.profile ps) (reads : Hack → Bool) (longhand : String) :
    settledWinner config.profile reads longhand ps'
      = settledWinner config.profile reads longhand ps := by
  obtain ⟨before, stretch, b, after, parts, important, s, extras, rfl, rfl, hb, hex⟩ :=
    exchange_of_merged hd hne h hps
  have hstretch : Covered (stretch ++ [b] ++ after) := by
    rw [List.append_assoc]
    exact hps.covered.of_append
  have hinner : settledWinner config.profile reads longhand
        (stretch.map (retire d) ++ (s :: extras ++ after))
      = settledWinner config.profile reads longhand (stretch ++ [b] ++ after) := by
    by_cases hl : longhand ∈ d.leaves
    · rw [settledWinner_append (stretch.map (retire d)), Exchange.winner_retired stretch hl,
        Claim.none_andThen, settledWinner_append (s :: extras), hex.winner_merged hstretch hl,
        settledWinner_append (stretch ++ [b])]
    · rw [← List.append_assoc, settledWinner_append, hex.winner_of_not_mem hb hl,
        settledWinner_append (stretch ++ [b])]
  rw [List.append_assoc, List.singleton_append] at hinner
  rw [settledWinner_append, settledWinner_append before, hinner]

end Keeps

theorem mem_mergeOrder {d : Descriptor} (h : d ∈ mergeOrder) :
    d ∈ Registry.builtin.descriptors ∧ d.components ≠ [] := by
  simp only [mergeOrder, List.mem_flatMap, List.mem_filter, Registry.shorthands] at h
  obtain ⟨-, -, ⟨hrow, hshort⟩, -⟩ := h
  exact ⟨hrow, by simpa [Descriptor.isShorthand] using hshort⟩

/-- Merging into one shorthand after the other keeps the winner of every longhand. -/
theorem mergeAll_keeps (config : Config) {ps : List Property} (hps : Sound config.profile ps) :
    Sound config.profile (mergeAll config ps) ∧
      ∀ reads longhand, settledWinner config.profile reads longhand (mergeAll config ps)
        = settledWinner config.profile reads longhand ps := by
  refine mergeAll_keep (P := fun qs => Sound config.profile qs ∧ ∀ reads longhand,
    settledWinner config.profile reads longhand qs = settledWinner config.profile reads longhand ps) ?_
      ⟨hps, fun _ _ => rfl⟩
  intro d qs qs' hd hmerge hqs
  obtain ⟨hrow, hne⟩ := mem_mergeOrder hd
  have hfind := Registry.find?_of_mem hrow
  have hmerged := merged_of_mergeInto? hfind hmerge
  refine ⟨hmerged.sound hfind hne hqs.1, fun reads longhand => ?_⟩
  rw [hmerged.keeps hfind hne hqs.1, hqs.2]

end Property

end CssMinify
