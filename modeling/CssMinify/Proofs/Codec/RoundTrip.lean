import CssMinify.Proofs.Codec.Values

/-!
Splitting and putting together undo each other. For the shorthands with one value for each side, for rounded
corners, for backgrounds and for list styles, the value that is put together from the components splits into
the same components again; and there is such a value, unless a keyword that every property takes stands among
other tokens.
-/

namespace CssMinify

namespace Split

/-- The values of a shorthand whose value is not one keyword that every property takes. -/
def splitAs? (profile : Profile) (row : Descriptor) (value : Value) : SplitKind → Option (List Value)
  | .fourValues => fourValues? value
  | .borderRadius => borderRadius? value
  | .background => background? profile value
  | .border => line? profile row.components value
  | .listStyle => listStyle? value

theorem values?_eq {profile : Profile} {row : Descriptor} {kind : SplitKind} (hkind : row.split = some kind)
    (value : Value) :
    values? profile row value
      = if value.length == 1 && value.all Word.isGlobal then some (row.components.map fun _ => value)
        else splitAs? profile row value kind := by
  rw [values?, hkind, Option.bind_eq_bind, Option.bind_some]
  cases kind <;> rfl

theorem isLoneGlobal_iff {value : Value} :
    (value.length == 1 && value.all Word.isGlobal) = true ↔
      ∃ token, value = [token] ∧ Word.isGlobal token = true := by
  rw [Bool.and_eq_true, beq_iff_eq, List.length_eq_one_iff]
  constructor
  · rintro ⟨⟨token, rfl⟩, hall⟩
    exact ⟨token, rfl, by simpa using hall⟩
  · rintro ⟨token, rfl, hglobal⟩
    exact ⟨⟨token, rfl⟩, by simpa using hglobal⟩

end Split

/-- A shorthand of longhands whose value is put together in the way in which it is split. -/
def Descriptor.isPaired (d : Descriptor) : Bool :=
  d.components.all (!Registry.builtin.isShorthand ·) &&
    match d.split, d.restore with
    | some .fourValues, some .fourValues | some .borderRadius, some .borderRadius => true
    | some .background, some .background => d.components == Split.backgroundNames
    | some .listStyle, some .withoutDefaults =>
      d.components == Split.listStyleNames && d.shortestValue == ["outside"]
    | _, _ => false

theorem Descriptor.exists_kinds {d : Descriptor} (h : d.isPaired = true) :
    ∃ split restore, d.split = some split ∧ d.restore = some restore := by
  rw [isPaired, Bool.and_eq_true] at h
  cases hsplit : d.split with
  | none =>
      rw [hsplit] at h
      exact absurd h.2 Bool.false_ne_true
  | some split =>
      cases hrestore : d.restore with
      | none =>
          rw [hsplit, hrestore] at h
          exact absurd h.2 (by cases split <;> exact Bool.false_ne_true)
      | some restore => exact ⟨split, restore, rfl, rfl⟩

namespace Property

section Longhands

variable {profile : Profile} {d : Declaration} {position : Nat} {row : Descriptor}

/-- The components of a value that is split into longhands. -/
def longhandComponents (d : Declaration) (position : Nat) (names : List String) (values : List Value) :
    List Property :=
  (names.zip values).map fun part => bare { d with name := part.1, value := part.2 } position

theorem components_wrap (hrow : Registry.builtin.find? d.name = some row)
    (hlonghands : row.components.all (!Registry.builtin.isShorthand ·) = true) :
    (wrap profile d position).components
      = if d.value.any Word.isVariable then []
        else ((Split.values? profile row d.value).map (longhandComponents d position row.components)).getD [] := by
  have hshort : Registry.builtin.isShorthand d.name = row.isShorthand := by
    rw [Registry.isShorthand, hrow]
    rfl
  cases hcomponents : row.isShorthand with
  | false =>
      have hnil : row.components = [] := by simpa [Descriptor.isShorthand] using hcomponents
      rw [wrap_of_not_isShorthand (hshort.trans hcomponents), hnil]
      cases Split.values? profile row d.value <;> simp [longhandComponents, bare]
  | true =>
      rw [wrap_of_isShorthand (hshort.trans hcomponents), components?, nesting, componentsWithin?_succ]
      have hdescriptor : (bare d position).descriptor? = some row := hrow
      have hdynamic : (bare d position).dynamic = d.value.any Word.isVariable := rfl
      have hvalue : (bare d position).value = d.value := rfl
      simp only [hdescriptor, hdynamic, hvalue, Option.bind_some]
      split
      · rfl
      · cases Split.values? profile row d.value with
        | none => rfl
        | some values =>
            rw [Option.bind_some, Option.map_some]
            congr 1
            refine mapM_eq_some_map fun part hpart => ?_
            have hlonghand := List.all_eq_true.mp hlonghands part.1 (List.of_mem_zip hpart).1
            rw [Bool.not_eq_true'] at hlonghand
            exact if_neg (Bool.eq_false_iff.mp hlonghand)

theorem map_longhandComponents (d : Declaration) (position : Nat) (names : List String) (values : List Value) :
    (longhandComponents d position names values).map (fun c => (c.name, c.value)) = names.zip values := by
  rw [longhandComponents, List.map_map]
  exact List.map_id _

theorem leaves_of_longhandComponents {p : Property} {names : List String} {values : List Value}
    (hp : p.components = longhandComponents d position names values) (hne : p.components ≠ []) :
    p.leaves = p.components := by
  rw [leaves_of_components_ne_nil hne]
  conv_rhs => rw [← List.flatMap_singleton' p.components]
  refine List.flatMap_congr fun c hc => leaves_of_components_eq_nil ?_
  rw [hp, longhandComponents] at hc
  obtain ⟨part, -, rfl⟩ := List.mem_map.mp hc
  rfl

end Longhands

/-- A declaration of a paired shorthand, and the values of its components. -/
structure SplitInto (profile : Profile) (d : Declaration) (row : Descriptor) (values : List Value) : Prop where
  described : Registry.builtin.find? d.name = some row
  paired : row.isPaired = true
  composed : row.components ≠ []
  static : d.value.any Word.isVariable = false
  split : Split.values? profile row d.value = some values

/-- A value verifies if it splits into the same longhands. -/
theorem verifies_iff {profile : Profile} {p : Property} {value : Value} (hbound : p.Bound) :
    p.verifies profile value = true ↔
      (wrap profile { p.toDeclaration with value } p.position).isAnalysed = true ∧
        (wrap profile { p.toDeclaration with value } p.position).longhands = p.longhands := by
  have heq (as bs : List Property) : bs.map (fun q => (q.name, q.value)) = as.map (fun q => (q.name, q.value)) ↔
      List.Forall₂ (fun e a => (e.name, e.value) = (a.name, a.value)) as bs := by
    rw [eq_comm, ← List.forall₂_eq_eq_eq (α := String × Value), List.forall₂_map_left_iff, List.forall₂_map_right_iff]
  simp only [verifies, Bool.and_eq_true, beq_iff_eq, List.all_eq_true, Bool.or_eq_true, and_assoc]
  rw [longhands, longhands, heq, List.forall₂_iff_zip]
  refine and_congr_right fun _ => ?_
  refine and_congr_right fun _ => ⟨fun h e a hmem => ?_, fun h pair hpair => ?_⟩
  · obtain ⟨hname, hvalue⟩ := h (e, a) hmem
    rw [hbound e (List.of_mem_zip hmem).1] at hvalue
    exact Prod.ext hname (hvalue.resolve_left Bool.false_ne_true)
  · obtain ⟨hname, hvalue⟩ := Prod.mk.inj (h hpair)
    exact ⟨hname, .inr hvalue⟩

@[simp] theorem position_wrap (profile : Profile) (d : Declaration) (position : Nat) :
    (wrap profile d position).position = position := by
  rw [wrap]
  split <;> rfl

/-- The value of a shorthand none of whose components has a keyword that every property takes. -/
def restoreAs? (row : Descriptor) (components : List Property) : RestoreKind → Option Value
  | .fourValues => Restore.fourValues? components
  | .borderRadius => Restore.borderRadius? components
  | .background => Restore.background? components
  | .withoutDefaults =>
    (withoutDefaults? components).map fun value => if value.isEmpty then row.shortestValue else value

/-- How a value is put together: all the longhands share a keyword that every property takes, or none has
one and the components are joined. -/
theorem restore?_eq_some {p : Property} {value : Value} :
    p.restore? = some value ↔ ∃ row kind, p.descriptor? = some row ∧ row.restore = some kind ∧ p.components ≠ [] ∧
      (Restore.sharedGlobal? p.leaves = some value ∨ Restore.sharedGlobal? p.leaves = none ∧
        p.leaves.any (·.value.any Word.isGlobal) = false ∧ restoreAs? row p.components kind = some value) := by
  have heq : p.restore? = p.descriptor?.bind fun row => row.restore.bind fun kind =>
      if p.components.isEmpty then none
      else (Restore.sharedGlobal? p.leaves).or
        (if p.leaves.any (·.value.any Word.isGlobal) then none else restoreAs? row p.components kind) := by
    obtain ⟨d, components, unused, rebuilt, layered, free, dynamic, position⟩ := p
    rw [restore?]
    refine Option.bind_congr fun row _ => Option.bind_congr fun kind _ => ?_
    dsimp only
    cases Restore.sharedGlobal? _ <;> cases kind <;> rfl
  rw [heq]
  simp only [Option.bind_eq_some_iff]
  refine exists_congr fun row => ?_
  rw [← exists_and_left]
  refine exists_congr fun kind => and_congr_right fun _ => and_congr_right fun _ => ?_
  by_cases hnil : p.components = []
  · simp [hnil]
  · rw [if_neg (by simpa using hnil)]
    cases Restore.sharedGlobal? p.leaves <;> simp [hnil]

/-- The value depends on the name and the components only. -/
theorem restore?_congr {p q : Property} (hname : p.name = q.name) (hcomponents : p.components = q.components) :
    p.restore? = q.restore? := by
  refine Option.ext fun value => ?_
  rw [restore?_eq_some, restore?_eq_some, descriptor?, hname, ← descriptor?, hcomponents]
  refine exists_congr fun row => exists_congr fun kind => and_congr_right fun _ => and_congr_right fun _ =>
    and_congr_right fun hne => ?_
  rw [leaves_of_components_ne_nil (hcomponents ▸ hne), leaves_of_components_ne_nil hne, hcomponents]

namespace SplitInto

variable {profile : Profile} {d : Declaration} {row : Descriptor} {values : List Value}
  (h : SplitInto profile d row values)

include h

theorem again {value : Value} (hstatic : value.any Word.isVariable = false)
    (hsplit : Split.values? profile row value = some values) :
    SplitInto profile { d with value } row values :=
  { h with static := hstatic, split := hsplit }

theorem length_values : values.length = row.components.length :=
  Split.length_values? (Registry.mem_of_find? h.described).1 h.split

theorem components (position : Nat) :
    (wrap profile d position).components = longhandComponents d position row.components values := by
  rw [components_wrap h.described (Bool.and_eq_true _ _ ▸ h.paired).1, h.static, h.split]
  rfl

theorem components_ne_nil (position : Nat) : (wrap profile d position).components ≠ [] := by
  rw [h.components, longhandComponents, ne_eq, List.map_eq_nil_iff, List.zip_eq_nil_iff, not_or]
  refine ⟨h.composed, fun hnil => h.composed ?_⟩
  rw [← List.length_eq_zero_iff, ← h.length_values, hnil, List.length_nil]

theorem leaves (position : Nat) :
    (wrap profile d position).leaves = longhandComponents d position row.components values := by
  rw [leaves_of_longhandComponents (h.components position) (h.components_ne_nil position), h.components]

theorem map_value_leaves (position : Nat) : (wrap profile d position).leaves.map (·.value) = values := by
  rw [h.leaves, longhandComponents, List.map_map]
  exact List.map_snd_zip (Nat.le_of_eq h.length_values)

theorem longhands (position : Nat) : (wrap profile d position).longhands = row.components.zip values := by
  rw [Property.longhands, h.leaves, map_longhandComponents]

theorem isAnalysed (position : Nat) : (wrap profile d position).isAnalysed = true := by
  have hshort : Registry.builtin.isShorthand d.name = true := by
    rw [Registry.isShorthand, h.described]
    simpa [Descriptor.isShorthand] using h.composed
  simp [Property.isAnalysed, isShorthand_wrap, hshort, h.components_ne_nil]

/-- Another value that splits into the same components. -/
theorem verifies {value : Value} (position : Nat) (hagain : SplitInto profile { d with value } row values) :
    (wrap profile d position).verifies profile value = true := by
  rw [verifies_iff (bound_wrap profile d position), toDeclaration_wrap, position_wrap]
  exact ⟨hagain.isAnalysed position, (hagain.longhands position).trans (h.longhands position).symm⟩

theorem restore?_eq {kind : RestoreKind} (hkind : row.restore = some kind) (position : Nat) :
    (wrap profile d position).restore?
      = match Restore.sharedGlobal? (wrap profile d position).leaves with
        | some value => some value
        | none =>
          if (wrap profile d position).leaves.any (·.value.any Word.isGlobal) then none
          else restoreAs? row (wrap profile d position).components kind := by
  have hdescriptor : (wrap profile d position).descriptor? = some row := by
    rw [descriptor?, toDeclaration_wrap, h.described]
  have hne := h.components_ne_nil position
  generalize wrap profile d position = p at hdescriptor hne
  obtain ⟨d, components, unused, rebuilt, layered, free, dynamic, position⟩ := p
  rw [restore?, hdescriptor, Option.bind_eq_bind, Option.bind_some, hkind, Option.bind_eq_bind, Option.bind_some,
    if_neg (by simpa using hne)]
  cases kind <;> rfl

end SplitInto

section Kinds

variable {profile : Profile} {row : Descriptor} {tokens : Value} {values : List Value}

/-- Splitting adds no keywords that every property takes. -/
theorem mem_of_splitAs? {kind : SplitKind} (hpaired : row.isPaired = true) (hkind : row.split = some kind)
    (h : Split.splitAs? profile row tokens kind = some values) :
    ∀ value ∈ values, ∀ token ∈ value, token ∈ tokens ∨ Word.isGlobal token = false := by
  cases kind with
  | fourValues =>
      obtain ⟨a, b, c, d, rfl, hsub, -⟩ := Split.fourValues?_cases h
      intro value hvalue token htoken
      exact .inl (hsub (List.mem_flatten.mpr ⟨value, hvalue, htoken⟩))
  | borderRadius =>
      obtain ⟨h₁, h₂, h₃, h₄, v₁, v₂, v₃, v₄, rfl, hsub, -⟩ := Split.borderRadius?_cases h
      intro value hvalue token htoken
      left
      refine hsub ?_
      simp only [List.mem_cons, List.not_mem_nil, or_false] at hvalue
      have hradii {h v : String} (hmem : token ∈ Split.radii h v) : token = h ∨ token = v := by
        rw [Split.radii] at hmem
        split_ifs at hmem
        · exact .inl (List.mem_singleton.mp hmem)
        · simpa using hmem
      simp only [List.cons_append, List.nil_append, List.mem_cons, List.not_mem_nil, or_false]
      rcases hvalue with rfl | rfl | rfl | rfl <;> rcases hradii htoken with rfl | rfl <;> simp
  | background => exact fun value hvalue token htoken => .inr (Split.isGlobal_of_background? h value hvalue token htoken)
  | listStyle =>
      obtain ⟨style, -, rfl, hmem⟩ := Split.exists_of_listStyle? h
      have hinitial : ∀ name ∈ Split.listStyleNames, ∀ token ∈ Split.initialOf name,
          Word.isGlobal token = false := by
        decide
      have hpart {name : String} (hname : name ∈ Split.listStyleNames) {found : Value} (hfound : found ⊆ style.tokens) :
          ∀ token ∈ Split.orInitial name found, token ∈ tokens ∨ Word.isGlobal token = false := by
        rw [Split.orInitial]
        split
        · exact fun token htoken => .inr (hinitial name hname token htoken)
        · exact fun token htoken => .inl (hmem token (hfound htoken))
      simp only [Split.ListStyle.values, List.forall_mem_cons, List.not_mem_nil, false_implies, implies_true, and_true]
      refine ⟨hpart (by decide) ?_, hpart (by decide) ?_, hpart (by decide) ?_⟩ <;>
        simp [Split.ListStyle.tokens]
  | border => simp [Descriptor.isPaired, hkind] at hpaired

/-- What is put together splits into the same values again, and is made of their tokens. -/
theorem exists_restoreAs? {split : SplitKind} {restore : RestoreKind} (hpaired : row.isPaired = true)
    (hsplit : row.split = some split) (hrestore : row.restore = some restore)
    (h : Split.splitAs? profile row tokens split = some values) (hlength : values.length = row.components.length)
    (d : Declaration) (position : Nat) :
    ∃ value, restoreAs? row (longhandComponents d position row.components values) restore = some value ∧
      Split.splitAs? profile row value split = some values ∧
      ∀ token ∈ value, (token ∈ tokens ∨ Word.isVariable token = false) ∧
        (token ∈ values.flatten ∨ Word.isGlobal token = false) := by
  have hpairs := map_longhandComponents d position row.components values
  have hvalues : (longhandComponents d position row.components values).map (·.value) = values := by
    rw [longhandComponents, List.map_map]
    exact List.map_snd_zip (Nat.le_of_eq hlength)
  have hcomponents : ∀ c ∈ longhandComponents d position row.components values,
      c.isAnalysed = false ∧ c.free = false := by
    intro c hc
    obtain ⟨part, -, rfl⟩ := List.mem_map.mp hc
    simp [isAnalysed, bare]
  simp only [Descriptor.isPaired, hsplit, hrestore, Bool.and_eq_true] at hpaired
  cases split <;> cases restore <;> try exact absurd hpaired.2 Bool.false_ne_true
  case fourValues.fourValues =>
    obtain ⟨value, hvalue, hagain, hmem⟩ :=
      Split.fourValues?_restored h hvalues fun c hc => (hcomponents c hc).2
    exact ⟨value, hvalue, hagain, fun token htoken => ⟨.inl (hmem token htoken).1, .inl (hmem token htoken).2⟩⟩
  case borderRadius.borderRadius =>
    obtain ⟨value, hvalue, hagain, hmem⟩ := Split.borderRadius?_restored h hvalues
    refine ⟨value, hvalue, hagain, fun token htoken => ?_⟩
    obtain hboth | rfl := hmem token htoken
    · exact ⟨.inl hboth.1, .inl hboth.2⟩
    · exact ⟨.inr (by decide), .inr (by decide)⟩
  case background.background =>
    have hnames := congrArg (·.zip values) (beq_iff_eq.mp hpaired.2)
    obtain ⟨value, hvalue, hagain, hmem⟩ := Split.background?_restored h (hpairs.trans hnames)
    exact ⟨value, hvalue, hagain, fun token htoken => ⟨(hmem token htoken).1, .inr (hmem token htoken).2⟩⟩
  case listStyle.withoutDefaults =>
    have hrow := Bool.and_eq_true _ _ ▸ hpaired.2
    have hnames := congrArg (·.zip values) (beq_iff_eq.mp hrow.1)
    obtain ⟨value, hvalue, hagain, hmem⟩ :=
      Split.listStyle?_restored h (fun c hc => (hcomponents c hc).1) (hpairs.trans hnames)
    refine ⟨if value.isEmpty then ["outside"] else value, ?_, hagain, fun token htoken => ?_⟩
    · rw [restoreAs?, hvalue, Option.map_some, beq_iff_eq.mp hrow.2]
    · split_ifs at htoken
      · rw [List.mem_singleton.mp htoken]
        exact ⟨.inr (by decide), .inr (by decide)⟩
      · exact ⟨.inl (hmem token htoken).1, .inl (hmem token htoken).2⟩

end Kinds

theorem isVariable_of_isGlobal {token : String} (h : Word.isGlobal token = true) :
    Word.isVariable token = false := by
  have hmem : Text.lower token ∈ Keyword.globals := (Text.isOneOf_iff (by decide)).mp h
  have hall : ∀ word ∈ Keyword.globals, Text.contains word "var(" = false := by decide
  exact hall _ hmem

theorem sharedGlobal?_eq_some {leaves : List Property} {value : Value} :
    Restore.sharedGlobal? leaves = some value ↔
      leaves ≠ [] ∧ (value.length == 1 && value.all Word.isGlobal) = true ∧ ∀ leaf ∈ leaves, leaf.value = value := by
  cases leaves with
  | nil => simp [Restore.sharedGlobal?]
  | cons first rest =>
      rw [Restore.sharedGlobal?]
      simp only [ne_eq, reduceCtorEq, not_false_eq_true, true_and, List.forall_mem_cons]
      split
      · next h =>
          rw [Bool.and_eq_true, List.all_eq_true] at h
          constructor
          · intro heq
            cases heq
            exact ⟨h.1, rfl, fun leaf hleaf => by simpa using h.2 leaf hleaf⟩
          · rintro ⟨-, rfl, -⟩
            rfl
      · next h =>
          constructor
          · intro heq
            cases heq
          · rintro ⟨hone, rfl, hrest⟩
            refine absurd ?_ h
            rw [Bool.and_eq_true, List.all_eq_true]
            exact ⟨hone, fun leaf hleaf => by simpa using hrest leaf hleaf⟩

namespace SplitInto

variable {profile : Profile} {d : Declaration} {row : Descriptor} {values : List Value}
  (h : SplitInto profile d row values)

include h

theorem sharedGlobal?_leaves {position : Nat} {value : Value} :
    Restore.sharedGlobal? (wrap profile d position).leaves = some value ↔
      (value.length == 1 && value.all Word.isGlobal) = true ∧ values = row.components.map fun _ => value := by
  have hleaves : ((wrap profile d position).leaves ≠ [] ∧ ∀ leaf ∈ (wrap profile d position).leaves, leaf.value = value)
      ↔ values = row.components.map fun _ => value := by
    rw [List.map_const', List.eq_replicate_iff, ← h.length_values, ← h.map_value_leaves position]
    simp only [List.length_map, List.forall_mem_map, true_and]
    refine and_iff_right ?_
    rw [h.leaves, ← h.components]
    exact h.components_ne_nil position
  rw [sharedGlobal?_eq_some, ← hleaves]
  tauto

/-- A keyword that all the components share splits into them again. -/
theorem again_of_sharedGlobal? {position : Nat} {value : Value}
    (hshared : Restore.sharedGlobal? (wrap profile d position).leaves = some value) :
    SplitInto profile { d with value } row values := by
  obtain ⟨hone, hvalues⟩ := h.sharedGlobal?_leaves.mp hshared
  obtain ⟨split, -, hsplit, -⟩ := Descriptor.exists_kinds h.paired
  refine h.again ?_ ?_
  · rw [List.any_eq_false]
    intro token htoken
    obtain ⟨_, rfl, htokenGlobal⟩ := Split.isLoneGlobal_iff.mp hone
    obtain rfl := List.mem_singleton.mp htoken
    simp [isVariable_of_isGlobal htokenGlobal]
  · rw [Split.values?_eq hsplit, if_pos hone, hvalues]

/-- One keyword that every property takes is shared by all the components. -/
theorem splitAs?_of_sharedGlobal? {position : Nat} {split : SplitKind} (hsplit : row.split = some split)
    (hnone : Restore.sharedGlobal? (wrap profile d position).leaves = none) :
    (d.value.length == 1 && d.value.all Word.isGlobal) = false ∧
      Split.splitAs? profile row d.value split = some values := by
  have hvalues := h.split
  rw [Split.values?_eq hsplit] at hvalues
  cases hone : d.value.length == 1 && d.value.all Word.isGlobal with
  | true =>
      rw [if_pos hone, Option.some.injEq] at hvalues
      rw [h.sharedGlobal?_leaves.mpr ⟨hone, hvalues.symm⟩] at hnone
      cases hnone
  | false =>
      rw [if_neg (by simp [hone])] at hvalues
      exact ⟨rfl, hvalues⟩

theorem any_isGlobal_leaves (position : Nat) :
    (wrap profile d position).leaves.any (·.value.any Word.isGlobal) = values.any (·.any Word.isGlobal) := by
  rw [← h.map_value_leaves position, List.any_map]
  rfl

/-- Where no component has a keyword that every property takes, there is a value that splits into them. -/
theorem exists_restore? {position : Nat}
    (hnone : Restore.sharedGlobal? (wrap profile d position).leaves = none)
    (hplain : values.any (·.any Word.isGlobal) = false) :
    ∃ value, (wrap profile d position).restore? = some value ∧ SplitInto profile { d with value } row values := by
  obtain ⟨split, restore, hsplit, hrestore⟩ := Descriptor.exists_kinds h.paired
  have hvalues := (h.splitAs?_of_sharedGlobal? hsplit hnone).2
  obtain ⟨value, hvalue, hagain, hmem⟩ :=
    exists_restoreAs? h.paired hsplit hrestore hvalues h.length_values d position
  have hglobal : ∀ token ∈ value, Word.isGlobal token = false := by
    intro token htoken
    rcases (hmem token htoken).2 with hin | hnot
    · obtain ⟨v, hv, htoken⟩ := List.mem_flatten.mp hin
      have hv' := List.any_eq_false.mp hplain v hv
      simpa using List.any_eq_false.mp (Bool.eq_false_iff.mpr hv') token htoken
    · exact hnot
  refine ⟨value, ?_, h.again ?_ ?_⟩
  · rw [h.restore?_eq hrestore, hnone, h.any_isGlobal_leaves, hplain, h.components]
    exact hvalue
  · rw [List.any_eq_false]
    intro token htoken
    rcases (hmem token htoken).1 with hin | hnot
    · exact List.any_eq_false.mp h.static token hin
    · simp [hnot]
  · have hone : ¬(value.length == 1 && value.all Word.isGlobal) = true := by
      rw [Split.isLoneGlobal_iff]
      rintro ⟨token, rfl, htoken⟩
      rw [hglobal token List.mem_cons_self] at htoken
      cases htoken
    rw [Split.values?_eq hsplit, if_neg hone, hagain]

/-- There is no value only if a keyword that every property takes stands among other tokens. -/
theorem of_restore?_eq_none {position : Nat} (hnone : (wrap profile d position).restore? = none) :
    1 < d.value.length ∧ d.value.any Word.isGlobal = true := by
  obtain ⟨split, restore, hsplit, hrestore⟩ := Descriptor.exists_kinds h.paired
  cases hshared : Restore.sharedGlobal? (wrap profile d position).leaves with
  | some value =>
      rw [h.restore?_eq hrestore, hshared] at hnone
      cases hnone
  | none =>
      cases hplain : values.any (·.any Word.isGlobal) with
      | false =>
          obtain ⟨value, hvalue, -⟩ := h.exists_restore? hshared hplain
          rw [hnone] at hvalue
          cases hvalue
      | true =>
          obtain ⟨hone, hvalues⟩ := h.splitAs?_of_sharedGlobal? hsplit hshared
          simp only [List.any_eq_true] at hplain
          obtain ⟨value, hvalue, token, htoken, hglobal⟩ := hplain
          have hmem : token ∈ d.value := by
            refine (mem_of_splitAs? h.paired hsplit hvalues value hvalue token htoken).resolve_right ?_
            rw [hglobal]
            exact Bool.noConfusion
          refine ⟨?_, List.any_eq_true.mpr ⟨token, hmem, hglobal⟩⟩
          by_contra hlength
          have hsingle : d.value = [token] := by
            obtain ⟨t, ht⟩ := List.length_eq_one_iff.mp
              (Nat.le_antisymm (Nat.not_lt.mp hlength) (List.length_pos_of_mem hmem))
            rw [ht, List.mem_singleton] at hmem
            rw [ht, hmem]
          rw [hsingle] at hone
          simp [hglobal] at hone

/-- A value that is put together splits into the components again. -/
theorem again_of_restore? {position : Nat} {value : Value}
    (hvalue : (wrap profile d position).restore? = some value) :
    SplitInto profile { d with value } row values := by
  obtain ⟨split, restore, hsplit, hrestore⟩ := Descriptor.exists_kinds h.paired
  cases hshared : Restore.sharedGlobal? (wrap profile d position).leaves with
  | some shared =>
      rw [h.restore?_eq hrestore, hshared] at hvalue
      cases hvalue
      exact h.again_of_sharedGlobal? hshared
  | none =>
      cases hplain : values.any (·.any Word.isGlobal) with
      | false =>
          obtain ⟨value', hvalue', hagain⟩ := h.exists_restore? hshared hplain
          rw [hvalue, Option.some.injEq] at hvalue'
          exact hvalue' ▸ hagain
      | true =>
          rw [h.restore?_eq hrestore, hshared, h.any_isGlobal_leaves, hplain] at hvalue
          cases hvalue

end SplitInto

/-- The shorthands of four sides, of corners, of layers and of list markers. -/
def pairedNames : List String :=
  ["margin", "padding", "border-width", "border-style", "border-color", "border-radius", "background",
   "list-style"]

theorem exists_splitInto {profile : Profile} {d : Declaration} {position : Nat} (hname : d.name ∈ pairedNames)
    (h : (wrap profile d position).isAnalysed = true) : ∃ row values, SplitInto profile d row values := by
  have hpaired : ∀ name ∈ pairedNames, (Registry.builtin.find? name).any Descriptor.isPaired = true := by
    decide +kernel
  obtain ⟨row, hrow, hisPaired⟩ := (Option.any_eq_true _ _).mp (hpaired d.name hname)
  have hlonghands := (Bool.and_eq_true _ _ ▸ hisPaired).1
  have hne : (wrap profile d position).components ≠ [] := by
    rw [isAnalysed, Bool.and_eq_true, Bool.not_eq_true', List.isEmpty_eq_false_iff] at h
    exact h.2
  rw [components_wrap hrow hlonghands] at hne
  split at hne
  · exact absurd rfl hne
  next hstatic =>
  cases hvalues : Split.values? profile row d.value with
  | none =>
      rw [hvalues] at hne
      exact absurd rfl hne
  | some values =>
      refine ⟨row, values, hrow, hisPaired, ?_, by simpa using hstatic, hvalues⟩
      intro hnil
      rw [hvalues, hnil] at hne
      exact hne rfl

/-- Splitting and putting together undo each other for the shorthands of four sides, of corners, of layers
and of list markers. -/
theorem restore?_wrap {profile : Profile} {d : Declaration} {position : Nat}
    (hname : d.name ∈ pairedNames) (h : (wrap profile d position).isAnalysed = true) :
    ((wrap profile d position).restore? = none → 1 < d.value.length ∧ d.value.any Word.isGlobal = true) ∧
      ∀ value, (wrap profile d position).restore? = some value →
        (wrap profile d position).verifies profile value = true ∧
          (wrap profile { d with value } position).longhands = (wrap profile d position).longhands := by
  obtain ⟨row, values, hsplit⟩ := exists_splitInto hname h
  refine ⟨hsplit.of_restore?_eq_none, fun value hvalue => ?_⟩
  have hagain := hsplit.again_of_restore? hvalue
  exact ⟨hsplit.verifies position hagain, (hagain.longhands position).trans (hsplit.longhands position).symm⟩

/-- Corners with two radii each. -/
theorem restore?_wrap_corners :
    let d : Declaration := { name := "border-radius", value := ["1px", "2px", "1px", "/", "0", "0"] }
    (wrap Profile.modern d 0).restore? = some ["1px", "2px", "/", "0"] ∧
      (wrap Profile.modern d 0).verifies Profile.modern ["1px", "2px", "/", "0"] = true := by
  intro d
  have hrestore : (wrap Profile.modern d 0).restore? = some ["1px", "2px", "/", "0"] := by decide +kernel
  have hanalysed : (wrap Profile.modern d 0).isAnalysed = true := by decide +kernel
  exact ⟨hrestore, ((restore?_wrap (by decide) hanalysed).2 _ hrestore).1⟩

end Property

end CssMinify
