import CssMinify.Proofs.Codec.RoundTrip
import CssMinify.Proofs.Size.Tokens
import CssMinify.Rules.Hoisting

/-! The size of a body. Duplicates and overridden declarations go, merges are made only where they are shorter,
and what a shorthand of four sides is collapsed to is a beginning of the value it had. Only a fold may take
more bytes than the two declarations it is made of, so a body does not grow if no fold does. -/

namespace CssMinify

namespace Value

open Text

/-- Where there are no separators every token has a space in front of it. -/
theorem byteLength_printAfter_append_lt {previous : String} {front back : Value} (hback : back ≠ [])
    (hplain : ∀ token ∈ previous :: (front ++ back), isSeparator token = false) :
    byteLength (printAfter previous front) < byteLength (printAfter previous (front ++ back)) := by
  induction front generalizing previous with
  | nil =>
      obtain ⟨token, rest, rfl⟩ := List.exists_cons_of_ne_nil hback
      have hspace : byteLength " " = 1 := by decide
      have hnone : byteLength "" = 0 := by decide
      simp only [List.nil_append, List.forall_mem_cons] at hplain
      simp only [List.nil_append, printAfter, hplain.1, hplain.2.1, Bool.or_false, Bool.false_eq_true, if_false,
        byteLength_append]
      omega
  | cons token front ih =>
      have hrest := ih fun t ht => hplain t (List.mem_cons_of_mem previous ht)
      simp only [List.cons_append, printAfter, byteLength_append]
      omega

/-- The beginning of a value without separators is shorter than the value. -/
theorem byteLength_print_lt_of_isPrefix {front value : Value} (h : front <+: value) (hne : front ≠ [])
    (hlength : front.length < value.length) (hplain : ∀ token ∈ value, isSeparator token = false) :
    byteLength (print front) < byteLength (print value) := by
  obtain ⟨back, rfl⟩ := h
  obtain ⟨token, front, rfl⟩ := List.exists_cons_of_ne_nil hne
  have hback : back ≠ [] := by
    rintro rfl
    simp at hlength
  have hrest := byteLength_printAfter_append_lt hback hplain
  simp only [List.cons_append, print, byteLength_append]
  omega

end Value

namespace Registry

theorem mem_pairedNames_of_fourValues {d : Descriptor} (hd : d ∈ builtin.descriptors)
    (h : d.restore = some .fourValues) : d.name ∈ Property.pairedNames ∧ d.split = some .fourValues := by
  have hrows : ∀ d ∈ builtin.descriptors, d.restore = some .fourValues →
      d.name ∈ Property.pairedNames ∧ d.split = some .fourValues := by decide +kernel
  exact hrows d hd h

end Registry

namespace Split

variable {tokens : Value} {values : List Value}

/-- Sides are told apart by spaces only. -/
theorem not_isSeparator_of_fourValues? (h : fourValues? tokens = some values) :
    ∀ token ∈ tokens, isSeparator token = false := by
  unfold fourValues? at h
  split at h
  · cases h
  · next hplain => simpa using hplain

/-- The tokens of four sides are the first ones of what they stand for. -/
theorem isPrefix_of_fourValues? (h : fourValues? tokens = some values) :
    ∃ a b c d, values = [[a], [b], [c], [d]] ∧ tokens <+: [a, b, c, d] := by
  unfold fourValues? at h
  split at h
  · cases h
  split at h
  · cases h
    exact ⟨_, _, _, _, rfl, _, rfl⟩
  · cases h
    exact ⟨_, _, _, _, rfl, _, rfl⟩
  · cases h
    exact ⟨_, _, _, _, rfl, _, rfl⟩
  · cases h
    exact ⟨_, _, _, _, rfl, List.prefix_refl _⟩
  · cases h

theorem collapseFour_isPrefix (a b c d : String) : Restore.collapseFour [a, b, c, d] <+: [a, b, c, d] := by
  rw [Restore.collapseFour]
  split_ifs
  · exact List.prefix_refl _
  · exact ⟨[d], rfl⟩
  · exact ⟨[c, d], rfl⟩
  · exact ⟨[b, c, d], rfl⟩

end Split

namespace Property

section Collapsing

variable {profile : Profile}

/-- What four sides are put together to, if that has fewer tokens than the value that is there, is shorter than
it. -/
def Tight (p : Property) : Prop :=
  ∀ value, p.descriptor?.any (·.restore == some .fourValues) = true → p.restore? = some value →
    value.length < p.value.length → Text.byteLength (Value.print value) < Text.byteLength (Value.print p.value)

/-- The value that four sides are put together to and the one they were split from begin the same list, and
spaces tell the tokens apart. -/
theorem SplitInto.exists_sides {d : Declaration} {row : Descriptor} {values : List Value} {position : Nat}
    {value : Value} (h : SplitInto profile d row values) (hsplit : row.split = some .fourValues)
    (hkind : row.restore = some .fourValues) (hlong : 1 < d.value.length)
    (hvalue : (wrap profile d position).restore? = some value) :
    ∃ sides : List String, value <+: sides ∧ d.value <+: sides ∧ ∀ token ∈ d.value, isSeparator token = false := by
  have hvalues := h.split
  rw [Split.values?_eq hsplit, if_neg (by simp; omega)] at hvalues
  have hplain := Split.not_isSeparator_of_fourValues? hvalues
  obtain ⟨top, right, bottom, left, rfl, hsides⟩ := Split.isPrefix_of_fourValues? hvalues
  refine ⟨_, ?_, hsides, hplain⟩
  rw [h.restore?_eq hkind] at hvalue
  split at hvalue
  · next shared hshared =>
      cases hvalue
      obtain ⟨-, hsame⟩ := h.sharedGlobal?_leaves.mp hshared
      have htop : [top] ∈ row.components.map fun _ => value := hsame ▸ List.mem_cons_self
      obtain ⟨-, -, rfl⟩ := List.mem_map.mp htop
      exact ⟨[right, bottom, left], rfl⟩
  · split at hvalue
    · cases hvalue
    have hmap : (wrap profile d position).components.map (·.value) = [[top], [right], [bottom], [left]] := by
      rw [← h.map_value_leaves position, h.leaves, h.components]
    have hbound : ∀ c ∈ (wrap profile d position).components, c.free = false := by
      rw [h.components]
      rintro c hc
      obtain ⟨part, -, rfl⟩ := List.mem_map.mp hc
      rfl
    obtain ⟨p, q, r, s, hfour, hp, hq, hr, hs⟩ := Split.eq_of_map_value hmap
    rw [hfour] at hvalue hbound
    simp only [List.forall_mem_cons] at hbound
    have hcollapsed : value = (Restore.collapseFour [[top], [right], [bottom], [left]]).flatten := by
      simpa [restoreAs?, Restore.fourValues?, Restore.sideValue, hbound, hp, hq, hr, hs] using hvalue.symm
    rw [hcollapsed, Split.flatten_collapseFour]
    exact Split.collapseFour_isPrefix top right bottom left

theorem restore?_ne_nil {p : Property} (hfour : p.descriptor?.any (·.restore == some .fourValues) = true) :
    p.restore? ≠ some [] := by
  intro h
  obtain ⟨row, kind, hrow, hkind, -, hshared | ⟨-, -, h⟩⟩ := restore?_eq_some.mp h
  · exact absurd (sharedGlobal?_eq_some.mp hshared).2.1 (by simp)
  rw [hrow, Option.any_some, beq_iff_eq, hkind, Option.some.injEq] at hfour
  rw [hfour, restoreAs?, Restore.fourValues?.eq_def] at h
  split at h
  · next top right bottom left =>
      dsimp only at h
      split at h
      · next hone =>
          simp only [List.all_cons, Bool.and_eq_true, beq_iff_eq] at hone
          rw [Option.some.injEq, Restore.collapseFour] at h
          have htop : Restore.sideValue top bottom = [] := by
            split_ifs at h <;> simp_all
          simp [htop] at hone
      · cases h
  · cases h

/-- What an analysed shorthand of four sides is split into. -/
theorem exists_splitInto_fourValues {d : Declaration} {position : Nat}
    (hfour : (Registry.builtin.find? d.name).any (·.restore == some .fourValues) = true)
    (h : (wrap profile d position).isAnalysed = true) :
    ∃ row values, SplitInto profile d row values ∧ row.restore = some .fourValues ∧ row.split = some .fourValues := by
  obtain ⟨row, hrow, hkind⟩ := (Option.any_eq_true _ _).mp hfour
  obtain ⟨hmem, hname⟩ := Registry.mem_of_find? hrow
  obtain ⟨hpaired, hsplit⟩ := Registry.mem_pairedNames_of_fourValues hmem (beq_iff_eq.mp hkind)
  obtain ⟨row', values, hinto⟩ := exists_splitInto (hname ▸ hpaired) h
  obtain rfl : row' = row := Option.some.inj (hinto.described.symm.trans hrow)
  exact ⟨row', values, hinto, beq_iff_eq.mp hkind, hsplit⟩

theorem tight_wrap (d : Declaration) (position : Nat) : Tight (wrap profile d position) := by
  intro value hfour hvalue hlength
  have hne : value ≠ [] := by
    rintro rfl
    exact restore?_ne_nil hfour hvalue
  have hpos := List.length_pos_iff.mpr hne
  have hanalysed : (wrap profile d position).isAnalysed = true := by
    obtain ⟨-, -, -, -, hne, -⟩ := restore?_eq_some.mp hvalue
    cases hshort : Registry.builtin.isShorthand d.name with
    | false => exact absurd (by rw [wrap_of_not_isShorthand hshort]; rfl) hne
    | true => simp [isAnalysed, isShorthand_wrap, hshort, hne]
  rw [Property.descriptor?, toDeclaration_wrap] at hfour
  obtain ⟨row, values, hinto, hkind, hsplit⟩ := exists_splitInto_fourValues hfour hanalysed
  rw [toDeclaration_wrap] at hlength ⊢
  obtain ⟨sides, hvalue, hsides, hplain⟩ := hinto.exists_sides hsplit hkind (by omega) hvalue
  exact Value.byteLength_print_lt_of_isPrefix (List.prefix_of_prefix_length_le hvalue hsides hlength.le) hne hlength
    hplain

/-- A value that was put together has nothing left to collapse. -/
theorem tight_of_restore? {p q : Property} (h : q.restore? = some p.value) (hname : p.name = q.name)
    (hcomponents : p.components = q.components) : Tight p := by
  intro value _ hvalue hlength
  rw [restore?_congr hname hcomponents, h, Option.some.injEq] at hvalue
  exact absurd hlength (by rw [hvalue]; exact Nat.lt_irrefl _)

theorem Tight.congr {p q : Property} (h : Tight q) (hname : p.name = q.name)
    (hcomponents : p.components = q.components) (hvalue : p.value = q.value) : Tight p := by
  intro value hfour hrestore hlength
  rw [descriptor?, hname] at hfour
  rw [restore?_congr hname hcomponents] at hrestore
  rw [hvalue] at hlength ⊢
  exact h value hfour hrestore hlength

theorem tight_of_length {p : Property} (h : p.value.length ≤ 1) : Tight p := by
  intro value hfour hvalue hlength
  obtain rfl : value = [] := List.length_eq_zero_iff.mp (by omega)
  exact absurd hvalue (restore?_ne_nil hfour)

/-- Collapsing leaves a property as it is or makes it shorter. -/
theorem Tight.collapse_lighter {p : Property} (h : Tight p) : Lightened size (p.collapse profile) p := by
  rcases collapse_eq_or profile p with hsame | ⟨value, hcollapse, hfour, hvalue, hshorter, -⟩
  · exact .inl hsame
  · right
    rw [hcollapse]
    exact Declaration.size_lt_of_value_lt (h value hfour hvalue hshorter)

theorem Tight.collapse {p : Property} (h : Tight p) : Tight (p.collapse profile) := by
  rcases collapse_eq_or profile p with hsame | ⟨value, hcollapse, -, hvalue, -, -⟩
  · rw [hsame]
    exact h
  · rw [hcollapse]
    exact tight_of_restore? hvalue rfl rfl

end Collapsing

/-- The properties that may come up while the bodies of a sheet are optimized, and optimized again when they
are merged: each stands for a declaration of the sheet, or is made of others. -/
inductive Arises (config : Config) (source : List Declaration) : Property → Prop
  | declared {d : Declaration} (position : Nat) (h : d ∈ source) :
      Arises config source (wrap config.profile (d.minify config.profile) position)
  | again {p : Property} (position : Nat) (h : Arises config source p) :
      Arises config source (wrap config.profile p.toDeclaration position)
  | minified {p : Property} (position : Nat) (h : Arises config source p) :
      Arises config source (wrap config.profile (p.toDeclaration.minify config.profile) position)
  | folded {e r merged : Property} {mid : List Property} (he : Arises config source e)
      (hr : Arises config source r) (h : judgePair config e mid r = .foldInto merged) :
      Arises config source merged
  | merged {d : Descriptor} {parts made : List Property} {p : Property} {important : Bool} {position : Nat}
      (hd : d ∈ mergeOrder) (hnames : parts.map (·.name) = d.components)
      (hparts : ∀ q ∈ parts, Arises config source q)
      (h : assemble? config.profile d parts important position = some made) (hp : p ∈ made) :
      Arises config source p
  | collapsed {p : Property} (h : Arises config source p) : Arises config source (p.collapse config.profile)

/-- No fold takes more bytes than the two declarations it is made of. -/
def Thrifty (config : Config) (source : List Declaration) : Prop :=
  config.options.overrideProperties = true → ∀ e mid r merged, Arises config source e → Arises config source r →
    judgePair config e mid r = .foldInto merged → merged.size ≤ e.size + r.size

section Arising

variable {config : Config} {source : List Declaration}

/-- Whatever a round makes of properties, there is nothing in it that a collapse would make longer. -/
theorem closed_tight (config : Config) : Body.Closed config Tight where
  dead p hp := hp.congr rfl rfl rfl
  fold _ _ _ _ _ _ _ _ h := by
    obtain ⟨-, changed, value, -, hvalue, -, rfl⟩ := of_folded? (foldOf_judgePair h).folded
    exact tight_of_restore? hvalue rfl rfl
  merge _ hof hparts p hp := by
    obtain ⟨important, position, hassemble⟩ := hof.assembled
    rcases of_assemble? hassemble with ⟨-, rfl⟩ | ⟨-, components, value, -, hvalue, -, rfl⟩
    · obtain rfl := List.mem_singleton.mp hp
      exact tight_of_length (Nat.le_refl 1)
    · rcases List.mem_cons.mp hp with rfl | hp
      · exact tight_of_restore? hvalue rfl rfl
      · obtain ⟨q, hq, rfl⟩ := List.mem_map.mp hp
        exact (hparts q (List.mem_filter.mp hq).1).congr rfl rfl rfl
  collapse p hp := hp.collapse

/-- So there is nothing of the kind among the properties that a round collapses. -/
theorem tight_mergeAll (config : Config) (ds : List Declaration) :
    ∀ p ∈ mergeAll config (Body.judged config ds), Tight p := by
  have hclosed := closed_tight config
  exact mergeAll_forall hclosed.dead hclosed.merge (hclosed.judged fun d _ position => tight_wrap d position)

/-- What a round makes of properties that arise arises. -/
theorem closed_arises (config : Config) (source : List Declaration) :
    Body.Closed config fun p => p.unused = false → Arises config source p where
  dead _ _ h := nomatch h
  fold _ _ _ _ he hr hPe hPr h _ := .folded (hPe he) (hPr hr) h
  merge hd hof hparts p hp _ := by
    obtain ⟨important, position, hassemble⟩ := hof.assembled
    exact .merged hd hof.names (fun q hq => hparts q hq (hof.live q hq)) hassemble hp
  collapse p hp hlive := by
    refine .collapsed (hp ?_)
    rcases collapse_eq_or config.profile p with hsame | ⟨value, hcollapse, -⟩
    · rwa [hsame] at hlive
    · rwa [hcollapse] at hlive

/-- A merge makes no more declarations than it takes, for only some of the parts are repeated. -/
theorem MergeOf.length_le {d : Descriptor} {qs qs' parts merged : List Property}
    (h : MergeOf config d qs qs' parts merged) : merged.length ≤ parts.length := by
  obtain ⟨important, position, hassemble⟩ := h.assembled
  rcases of_assemble? hassemble with ⟨-, rfl⟩ | ⟨hsome, -, -, -, -, -, rfl⟩
  · cases parts with
    | nil => exact absurd h.smaller (Nat.not_lt_zero _)
    | cons => simp
  · have hlt : (parts.filter inheritsAll).length < parts.length := by
      refine Nat.lt_of_le_of_ne (List.length_filter_le _ _) fun heq => hsome ?_
      exact List.length_filter_eq_length_iff.mp heq
    rw [List.length_cons, List.length_map]
    omega

/-- What takes the place of parts is shorter even if each declaration gets a semicolon. -/
theorem total_merged_lt {d : Descriptor} {qs qs' parts merged : List Property}
    (h : MergeOf config d qs qs' parts merged) :
    total (fun p : Property => p.size + 1) merged < total (fun p : Property => p.size + 1) parts := by
  have hcount (ps : List Property) : total (fun p : Property => p.size + 1) ps = totalSize ps + ps.length := by
    induction ps with
    | nil => rfl
    | cons p ps ih =>
        rw [total, ih, totalSize, totalSize, total, List.length_cons]
        omega
  have hlength := h.length_le
  have hsmaller := h.smaller
  rw [hcount, hcount]
  omega

/-- Nothing is folded where there are neither shorthands nor all the parts of one. -/
theorem thrifty_of_names (names : List String) (hsource : ∀ d ∈ source, d.name ∈ names)
    (hlonghands : ∀ name ∈ names, Registry.builtin.isShorthand name = false)
    (hparts : ∀ d ∈ mergeOrder, ¬ d.components ⊆ names) : Thrifty config source := by
  have hname {p : Property} (h : Arises config source p) : p.name ∈ names := by
    induction h with
    | declared position h =>
        rw [toDeclaration_wrap, Declaration.name_minify]
        exact hsource _ h
    | again position _ ih =>
        rw [toDeclaration_wrap]
        exact ih
    | minified position _ ih =>
        rw [toDeclaration_wrap, Declaration.name_minify]
        exact ih
    | folded _ _ h ih _ =>
        rw [name_of_foldInto h]
        exact ih
    | merged hd hnames _ _ _ ih =>
        refine absurd ?_ (hparts _ hd)
        rw [← hnames]
        intro name hname
        obtain ⟨q, hq, rfl⟩ := List.mem_map.mp hname
        exact ih q hq
    | @collapsed p _ ih =>
        rcases collapse_eq_or config.profile p with hsame | ⟨value, hcollapse, -⟩
        · rw [hsame]
          exact ih
        · rw [hcollapse]
          exact ih
  intro _ e mid r merged he _ hfold
  have hanalysed := (foldOf_judgePair hfold).analysed
  rw [isAnalysed, isShorthand, hlonghands e.name (hname he)] at hanalysed
  cases hanalysed

end Arising

end Property

namespace Body

open Property

/-- No declaration more and no byte more, or else fewer bytes, with a semicolon after every declaration. -/
def Slim (new old : List Declaration) : Prop :=
  new.length = old.length ∧ Hoist.bodySize new ≤ Hoist.bodySize old ∨ Hoist.bodySize new < Hoist.bodySize old

section Slim

variable {as bs cs : List Declaration}

theorem Slim.refl (as : List Declaration) : Slim as as := .inl ⟨rfl, Nat.le_refl _⟩

theorem Slim.trans (h : Slim as bs) (h' : Slim bs cs) : Slim as cs := by
  rcases h with ⟨hlength, hle⟩ | hlt <;> rcases h' with ⟨hlength', hle'⟩ | hlt'
  · exact .inl ⟨hlength.trans hlength', hle.trans hle'⟩
  · exact .inr (by omega)
  · exact .inr (by omega)
  · exact .inr (by omega)

theorem Slim.bodySize_le (h : Slim as bs) : Hoist.bodySize as ≤ Hoist.bodySize bs := by
  rcases h with ⟨-, hle⟩ | hlt
  · exact hle
  · exact hlt.le

theorem slim_of_lightened (h : Lightened Hoist.bodySize as bs) : Slim as bs := by
  rcases h with rfl | hlt
  · exact .refl as
  · exact .inr hlt

theorem slim_map {f : Declaration → Declaration} (h : ∀ d ∈ as, (f d).size ≤ d.size) : Slim (as.map f) as := by
  refine .inl ⟨List.length_map _, ?_⟩
  induction as with
  | nil => exact Nat.le_refl _
  | cons d as ih =>
      have hd := h d List.mem_cons_self
      have hrest := ih fun e he => h e (List.mem_cons_of_mem d he)
      rw [Hoist.bodySize, Hoist.bodySize, List.map_cons, total, total]
      rw [Hoist.bodySize, Hoist.bodySize] at hrest
      omega

end Slim

section Optimize

variable {config : Config} {source ds : List Declaration}

/-- A declaration whose property arises, wherever it stands. -/
def Known (config : Config) (source : List Declaration) (d : Declaration) : Prop :=
  ∀ position, Arises config source (wrap config.profile d position)

theorem known_round (h : ∀ d ∈ ds, Known config source d) : ∀ d ∈ round config ds, Known config source d := by
  intro d hd position
  obtain ⟨p, hp, hlive, rfl⟩ := (closed_arises config source).round (fun d hd position _ => h d hd position) d hd
  exact .again position (hp hlive)

/-- Collapsing keeps the number of declarations, and takes bytes off unless it changes nothing. -/
theorem collapse_lighter {ps : List Property} (h : ∀ p ∈ ps, Tight p) (profile : Profile) :
    (unwrapAll (ps.map (collapse profile))).length = (unwrapAll ps).length ∧
      Lightened Hoist.bodySize (unwrapAll (ps.map (collapse profile))) (unwrapAll ps) := by
  induction ps with
  | nil => exact ⟨rfl, .inl rfl⟩
  | cons p ps ih =>
      obtain ⟨hlength, hsize⟩ := ih fun q hq => h q (List.mem_cons_of_mem p hq)
      have hunused : (p.collapse profile).unused = p.unused := by
        rcases collapse_eq_or profile p with hsame | ⟨value, hcollapse, -⟩
        · rw [hsame]
        · rw [hcollapse]
      rw [List.map_cons, unwrapAll_cons, unwrapAll_cons, hunused]
      cases p.unused with
      | true => exact ⟨hlength, hsize⟩
      | false =>
          have hp : Lightened size (p.collapse profile) p := (h p List.mem_cons_self).collapse_lighter
          refine ⟨congrArg (· + 1) hlength, ?_⟩
          rcases hp with hp | hp <;> rcases hsize with hsize | hsize
          · exact .inl (by rw [hp, hsize])
          all_goals
            right
            simp only [hp, hsize, size, Hoist.bodySize, Bool.false_eq_true, if_false, total] at hp hsize ⊢
            omega

theorem slim_round (hthrifty : Thrifty config source) (h : ∀ d ∈ ds, Known config source d) :
    Slim (round config ds) ds := by
  have hP := closed_arises config source
  have hwrapped : ∀ d ∈ ds, ∀ position, (wrap config.profile d position).unused = false →
      Arises config source (wrap config.profile d position) := fun d hd position _ => h d hd position
  have hjudged : Lightened (liveTotal fun p => p.size + 1) (judged config ds) (wrapAll config.profile ds) := by
    refine hP.judged_lighter (fun _ => Nat.succ_pos _) ?_ hwrapped
    intro hoverride e mid r merged he hr hPe hPr hmerged
    have hle := hthrifty hoverride e mid r merged (hPe he) (hPr hr) hmerged
    omega
  -- Whatever takes bytes off the living properties takes them off the body.
  have hslim (ps : List Property)
      (hps : Lightened (liveTotal fun p => p.size + 1) ps (wrapAll config.profile ds)) : Slim (unwrapAll ps) ds :=
    slim_of_lightened (lightened_unwrapAll hps)
  rw [round_eq]
  split
  · have hmerged : Lightened (liveTotal fun p => p.size + 1) (mergeAll config (judged config ds)) (judged config ds) :=
      mergeAll_lighter (fun _ hof => total_merged_lt hof) _
    have hcollapsed := (collapse_lighter (tight_mergeAll config ds) config.profile).2
    exact (slim_of_lightened hcollapsed).trans (hslim _ (hmerged.trans hjudged))
  · exact hslim _ hjudged

theorem slim_settle (hthrifty : Thrifty config source) (rounds : Nat) (h : ∀ d ∈ ds, Known config source d) :
    Slim (settle (round config) rounds ds) ds ∧ ∀ d ∈ settle (round config) rounds ds, Known config source d := by
  induction rounds generalizing ds with
  | zero => exact ⟨.refl ds, h⟩
  | succ rounds ih =>
      rw [settle]
      split
      · exact ⟨.refl ds, h⟩
      · obtain ⟨hslim, hknown⟩ := ih (known_round h)
        exact ⟨hslim.trans (slim_round hthrifty h), hknown⟩

/-- Declarations that are known once they are shortened. -/
def AreKnown (config : Config) (source ds : List Declaration) : Prop :=
  ∀ d ∈ ds, Known config source (d.minify config.profile)

theorem areKnown_source (config : Config) (source : List Declaration) : AreKnown config source source :=
  fun _ hd position => .declared position hd

theorem AreKnown.map_minify (h : AreKnown config source ds) :
    AreKnown config source (ds.map (Declaration.minify config.profile)) := by
  intro d hd position
  obtain ⟨e, he, rfl⟩ := List.mem_map.mp hd
  rw [← toDeclaration_wrap config.profile (e.minify config.profile) position]
  exact .minified position (h e he position)

/-- A body that is optimized takes no more bytes, if no fold does. -/
theorem AreKnown.optimize (hthrifty : Thrifty config source) (h : AreKnown config source ds) :
    Slim (Body.optimize config ds) ds ∧ AreKnown config source (Body.optimize config ds) := by
  have hminified : ∀ d ∈ ds.map (Declaration.minify config.profile), Known config source d := by
    intro d hd
    obtain ⟨e, he, rfl⟩ := List.mem_map.mp hd
    exact h e he
  obtain ⟨hslim, hknown⟩ := slim_settle hthrifty maxRounds hminified
  refine ⟨hslim.trans (slim_map fun d _ => d.size_minify_le config.profile), fun d hd position => ?_⟩
  rw [← toDeclaration_wrap config.profile d position]
  exact .minified position (hknown d hd position)

end Optimize

end Body

end CssMinify
