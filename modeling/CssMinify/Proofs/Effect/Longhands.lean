import CssMinify.Proofs.Effect.Tree
import Mathlib.Data.List.Forall2

/-!
The longhands that a declaration sets. Whether a value can be split, and into what, depends on the name
and the value alone; where it can, the longhands are those of the table, in its order.
-/

namespace CssMinify

/-- How many values a way of splitting gives, where that does not depend on the shorthand. -/
def SplitKind.count? : SplitKind → Option Nat
  | fourValues | borderRadius => some 4
  | background => some 8
  | listStyle => some 3
  | border => none

/-- A row that can be split, as can its components that are shorthands, at most `depth` deep. -/
def Registry.splitsWithin : Nat → String → Bool
  | 0, _ => false
  | depth + 1, name =>
    (builtin.find? name).any fun d =>
      d.split.isSome && d.components.all fun c => !builtin.isShorthand c || splitsWithin depth c

/-- The components of a row are rows themselves, its longhands are theirs, at least one and all different,
it splits into as many values as it has components, and a shorthand can be split. -/
def Descriptor.isOrderly (d : Descriptor) : Bool :=
  !d.leaves.isEmpty && d.components.all (fun name => (Registry.builtin.find? name).isSome)
    && d.leaves == (if d.components.isEmpty then [d.name] else d.components.flatMap Registry.builtin.leafNames)
    && decide d.leaves.Nodup
    && (d.split.bind SplitKind.count?).all (· == d.components.length)
    && (!d.isShorthand || Registry.splitsWithin Property.nesting d.name)

namespace Registry

theorem builtin_isOrderly : ∀ d ∈ builtin.descriptors, d.isOrderly = true := by decide +kernel

theorem nodup_names : (builtin.descriptors.map (·.name)).Nodup := by decide +kernel

theorem two_le_length_components : ∀ d ∈ builtin.descriptors, d.components ≠ [] → 2 ≤ d.components.length := by
  decide

theorem mem_of_find? {name : String} {d : Descriptor} (h : builtin.find? name = some d) :
    d ∈ builtin.descriptors ∧ d.name = name :=
  ⟨List.mem_of_find?_eq_some h, by simpa using List.find?_some h⟩

variable {d : Descriptor} (hd : d ∈ builtin.descriptors)

include hd

theorem find?_of_mem : builtin.find? d.name = some d := by
  have hnodup := nodup_names
  revert hd hnodup
  rw [find?]
  induction builtin.descriptors with
  | nil => simp
  | cons a rows ih =>
      intro hd hnodup
      rw [List.map_cons, List.nodup_cons] at hnodup
      rcases List.mem_cons.mp hd with rfl | hd
      · rw [List.find?_cons_of_pos (by simp)]
      · have hne : ¬(a.name == d.name) = true := by
          intro heq
          exact hnodup.1 (List.mem_map.mpr ⟨d, hd, (beq_iff_eq.mp heq).symm⟩)
        rw [List.find?_cons_of_neg (by exact hne), ih hd hnodup.2]

theorem exists_find?_of_mem_components {name : String} (h : name ∈ d.components) :
    ∃ c, builtin.find? name = some c := by
  have horder := builtin_isOrderly d hd
  simp only [Descriptor.isOrderly, Bool.and_eq_true, List.all_eq_true] at horder
  exact Option.isSome_iff_exists.mp (horder.1.1.1.1.2 name h)

theorem leaves_ne_nil : d.leaves ≠ [] := by
  have horder := builtin_isOrderly d hd
  simp only [Descriptor.isOrderly, Bool.and_eq_true, Bool.not_eq_true', List.isEmpty_eq_false_iff] at horder
  exact horder.1.1.1.1.1

theorem leaves_eq_flatMap (h : d.components ≠ []) :
    d.leaves = d.components.flatMap builtin.leafNames := by
  have horder := builtin_isOrderly d hd
  simp only [Descriptor.isOrderly, Bool.and_eq_true, beq_iff_eq, List.isEmpty_iff] at horder
  rw [horder.1.1.1.2, if_neg h]

theorem leaves_eq_singleton (h : d.components = []) : d.leaves = [d.name] := by
  have horder := builtin_isOrderly d hd
  simp only [Descriptor.isOrderly, Bool.and_eq_true, beq_iff_eq, List.isEmpty_iff] at horder
  rw [horder.1.1.1.2, if_pos h]

theorem leafNames_ne_nil {name : String} (h : name ∈ d.components) : builtin.leafNames name ≠ [] := by
  obtain ⟨c, hc⟩ := exists_find?_of_mem_components hd h
  rw [leafNames, hc, Option.map_some, Option.getD_some]
  exact leaves_ne_nil (mem_of_find? hc).1

/-- A component sets fewer longhands than its shorthand, since there are others beside it. -/
theorem length_leafNames_lt {name : String} (h : name ∈ d.components) :
    (builtin.leafNames name).length < d.leaves.length := by
  have hne : d.components ≠ [] := List.ne_nil_of_mem h
  have htwo := two_le_length_components d hd hne
  obtain ⟨front, back, hsplit⟩ := List.append_of_mem h
  have hother : ∃ other ∈ front ++ back, builtin.leafNames other ≠ [] := by
    have hlength : 0 < (front ++ back).length := by
      rw [hsplit] at htwo
      simp only [List.length_append, List.length_cons] at htwo ⊢
      omega
    obtain ⟨other, hother⟩ := List.exists_mem_of_length_pos hlength
    refine ⟨other, hother, leafNames_ne_nil hd ?_⟩
    rw [hsplit]
    simp only [List.mem_append, List.mem_cons] at hother ⊢
    tauto
  obtain ⟨other, hother, hleaves⟩ := hother
  have hpos := List.length_pos_of_mem (List.mem_flatMap.mpr ⟨other, hother, List.head_mem hleaves⟩)
  rw [leaves_eq_flatMap hd hne, hsplit]
  simp only [List.flatMap_append, List.flatMap_cons, List.length_append] at hpos ⊢
  omega

theorem two_le_length_leaves (h : d.components ≠ []) : 2 ≤ d.leaves.length := by
  obtain ⟨name, hname⟩ := List.exists_mem_of_ne_nil _ h
  have hpos := List.length_pos_of_ne_nil (leafNames_ne_nil hd hname)
  have hlt := length_leafNames_lt hd hname
  omega

theorem nodup_leaves : d.leaves.Nodup := by
  have horder := builtin_isOrderly d hd
  simp only [Descriptor.isOrderly, Bool.and_eq_true, decide_eq_true_eq] at horder
  exact horder.1.1.2

theorem length_components {kind : SplitKind} {count : Nat} (hkind : d.split = some kind)
    (hcount : kind.count? = some count) : d.components.length = count := by
  have horder := builtin_isOrderly d hd
  simp only [Descriptor.isOrderly, Bool.and_eq_true, hkind, hcount, Option.bind_some, Option.all_some,
    beq_iff_eq] at horder
  exact horder.1.2.symm

theorem splitsWithin_nesting (h : d.components ≠ []) : splitsWithin Property.nesting d.name = true := by
  have horder := builtin_isOrderly d hd
  simp only [Descriptor.isOrderly, Bool.and_eq_true, Descriptor.isShorthand, Bool.not_not, Bool.or_eq_true,
    List.isEmpty_iff] at horder
  exact horder.2.resolve_left h

end Registry

namespace Split

theorem length_fourValues? {tokens : Value} {values : List Value} (h : fourValues? tokens = some values) :
    values.length = 4 := by
  unfold fourValues? at h
  split at h
  · cases h
  · split at h <;> cases h <;> rfl

theorem length_borderRadius? {tokens : Value} {values : List Value}
    (h : borderRadius? tokens = some values) : values.length = 4 := by
  unfold borderRadius? at h
  split at h
  · exact length_fourValues? h
  · simp only [Option.pure_def, Option.bind_eq_bind, Option.bind_eq_some_iff, Option.some.injEq] at h
    obtain ⟨hs, hhs, vs, hvs, rfl⟩ := h
    simp [length_fourValues? hhs, length_fourValues? hvs]

theorem length_background? {profile : Profile} {tokens : Value} {values : List Value}
    (h : background? profile tokens = some values) : values.length = 8 := by
  simp only [background?] at h
  split at h
  · cases h
  · simp only [Option.bind_eq_bind, Option.bind_eq_some_iff] at h
    obtain ⟨layers, -, h⟩ := h
    split at h <;> cases h
    rfl

theorem length_line? {profile : Profile} {components : List String} {tokens : Value} {values : List Value}
    (h : line? profile components tokens = some values) : values.length = components.length := by
  simp only [line?] at h
  split at h
  · cases h
  · split at h <;> cases h <;> simp

theorem length_listStyle? {tokens : Value} {values : List Value} (h : listStyle? tokens = some values) :
    values.length = 3 := by
  unfold listStyle? at h
  split at h
  · cases h
  · simp only [Option.pure_def, Option.bind_eq_bind, Option.bind_eq_some_iff, Option.some.injEq] at h
    obtain ⟨found, -, rfl⟩ := h
    rfl

/-- Every component gets a value. -/
theorem length_values? {profile : Profile} {d : Descriptor} (hd : d ∈ Registry.builtin.descriptors)
    {value : Value} {values : List Value} (h : values? profile d value = some values) :
    values.length = d.components.length := by
  unfold values? at h
  simp only [Option.bind_eq_bind, Option.bind_eq_some_iff] at h
  obtain ⟨kind, hkind, h⟩ := h
  split at h
  · cases h
    simp
  · cases kind with
    | fourValues => rw [length_fourValues? h, Registry.length_components hd hkind rfl]
    | borderRadius => rw [length_borderRadius? h, Registry.length_components hd hkind rfl]
    | background => rw [length_background? h, Registry.length_components hd hkind rfl]
    | border => exact length_line? h
    | listStyle => rw [length_listStyle? h, Registry.length_components hd hkind rfl]

/-- The longhands that a name and a value stand for, where shorthands nest at most `depth` deep. -/
def longhandsWithin? (profile : Profile) : Nat → String → Value → Option (List (String × Value))
  | 0, _, _ => none
  | depth + 1, name, value => do
    let d ← Registry.builtin.find? name
    if value.any Word.isVariable then none
    else
      let values ← values? profile d value
      let parts ← (d.components.zip values).mapM fun (name, value) =>
        if Registry.builtin.isShorthand name then longhandsWithin? profile depth name value
        else some [(name, value)]
      return parts.flatten

end Split

section Lists

variable {α β γ : Type}

theorem lookup_eq_some_of_mem [BEq α] [LawfulBEq α] {pairs : List (α × β)} {a : α} {b : β}
    (hnodup : (pairs.map Prod.fst).Nodup) (h : (a, b) ∈ pairs) : pairs.lookup a = some b := by
  induction pairs with
  | nil => cases h
  | cons pair pairs ih =>
      rw [List.map_cons, List.nodup_cons] at hnodup
      rcases List.mem_cons.mp h with rfl | h
      · rw [List.lookup_cons_self]
      · have hne : (a == pair.1) = false := by
          rw [beq_eq_false_iff_ne]
          rintro rfl
          exact hnodup.1 (List.mem_map.mpr ⟨_, h, rfl⟩)
        rw [List.lookup_cons, hne]
        exact ih hnodup.2 h

theorem forall₂_of_mapM {f : α → Option β} {as : List α} {bs : List β} (h : as.mapM f = some bs) :
    List.Forall₂ (fun a b => f a = some b) as bs := by
  induction as generalizing bs with
  | nil =>
      cases h
      exact .nil
  | cons a as ih =>
      simp only [List.mapM_cons, Option.pure_def, Option.bind_eq_bind, Option.bind_eq_some_iff,
        Option.some.injEq] at h
      obtain ⟨b, hb, bs', hbs, rfl⟩ := h
      exact .cons hb (ih hbs)

theorem exists_mapM {f : α → Option β} {P : β → Prop} {as : List α} (h : ∀ a ∈ as, ∃ b, f a = some b ∧ P b) :
    ∃ bs, as.mapM f = some bs ∧ ∀ b ∈ bs, P b := by
  induction as with
  | nil => exact ⟨[], rfl, by simp⟩
  | cons a as ih =>
      obtain ⟨b, hb, hPb⟩ := h a List.mem_cons_self
      obtain ⟨bs, hbs, hPbs⟩ := ih fun c hc => h c (List.mem_cons_of_mem a hc)
      exact ⟨b :: bs, by simp [List.mapM_cons, hb, hbs], List.forall_mem_cons.mpr ⟨hPb, hPbs⟩⟩

/-- Pieces may be put together before or after the whole list is made. -/
theorem map_flatMap_mapM {f : α → Option β} {g : α → Option (List γ)} {pieces : β → List γ} (as : List α)
    (h : ∀ a ∈ as, (f a).map pieces = g a) :
    (as.mapM f).map (·.flatMap pieces) = (as.mapM g).map List.flatten := by
  induction as with
  | nil => rfl
  | cons a as ih =>
      have ha := h a List.mem_cons_self
      have hrest := ih fun b hb => h b (List.mem_cons_of_mem a hb)
      rw [List.mapM_cons, List.mapM_cons, ← ha]
      cases f a with
      | none => rfl
      | some b =>
          cases hf : as.mapM f <;> cases hg : as.mapM g <;> simp_all

end Lists

namespace Property

theorem isShorthand_iff {p : Property} :
    p.isShorthand = true ↔ ∃ d, p.descriptor? = some d ∧ d.components ≠ [] := by
  simp [isShorthand, Registry.isShorthand, descriptor?, Option.any_eq_true, Descriptor.isShorthand]

theorem leafNames_of_descriptor? {p : Property} {d : Descriptor} (h : p.descriptor? = some d) :
    p.leafNames = d.leaves := by
  rw [leafNames, h]

theorem leafNames_of_not_isShorthand {p : Property} (h : p.isShorthand = false) : p.leafNames = [p.name] := by
  rw [leafNames]
  cases hd : p.descriptor? with
  | none => rfl
  | some d =>
      have hmem := Registry.mem_of_find? hd
      have hnil : d.components = [] := by
        by_contra hne
        rw [isShorthand_iff.mpr ⟨d, hd, hne⟩] at h
        cases h
      simp only [Registry.leaves_eq_singleton hmem.1 hnil, hmem.2]

theorem regular_of_not_isShorthand {p : Property} (h : p.isShorthand = false) (hc : p.components = []) :
    p.Regular := by
  rw [regular_iff, leaves_of_components_eq_nil hc, leafNames_of_not_isShorthand h, hc]
  simp

/-- A shorthand whose components are regular and those of the table. -/
theorem regular_of_components {p : Property} {d : Descriptor} (hd : p.descriptor? = some d)
    (hne : p.components ≠ []) (hnames : p.components.map (·.name) = d.components)
    (hall : ∀ c ∈ p.components, c.Regular) : p.Regular := by
  have hmem := (Registry.mem_of_find? hd).1
  have hcomponents : d.components ≠ [] := by
    rw [← hnames]
    simpa using hne
  rw [regular_iff, leaves_of_components_ne_nil hne, leafNames_of_descriptor? hd,
    Registry.leaves_eq_flatMap hmem hcomponents, ← hnames, List.map_flatMap, List.flatMap_map]
  refine ⟨List.flatMap_congr fun c hc => ?_, hall, fun _ => isShorthand_iff.mpr ⟨d, hd, hcomponents⟩⟩
  have hmem' : c.name ∈ d.components := hnames ▸ List.mem_map_of_mem hc
  obtain ⟨dc, hdc⟩ := Registry.exists_find?_of_mem_components hmem hmem'
  rw [(regular_iff.mp (hall c hc)).1, leafNames, descriptor?, Registry.leafNames, hdc]
  rfl

/-- None of the longhands is free. -/
def Bound (p : Property) : Prop := ∀ leaf ∈ p.leaves, leaf.free = false

theorem bound_of_components {p : Property} (hne : p.components ≠ []) (hall : ∀ c ∈ p.components, c.Bound) :
    p.Bound := by
  intro leaf hleaf
  rw [leaves_of_components_ne_nil hne] at hleaf
  obtain ⟨c, hc, hleaf⟩ := List.mem_flatMap.mp hleaf
  exact hall c hc leaf hleaf

theorem bound_bare (d : Declaration) (position : Nat) : (bare d position).Bound := by
  intro leaf hleaf
  rw [leaves_of_components_eq_nil rfl, List.mem_singleton] at hleaf
  rw [hleaf]
  rfl

theorem forall₂_names {α : Type} {nameOf : α → String} {P : Property → Prop} {parts : List α} {cs : List Property}
    (h : List.Forall₂ (fun part c => c.name = nameOf part ∧ P c) parts cs) :
    cs.map (·.name) = parts.map nameOf ∧ ∀ c ∈ cs, P c := by
  induction h with
  | nil => simp
  | cons hhead _ ih =>
      rw [List.map_cons, List.map_cons, hhead.1, ih.1]
      exact ⟨rfl, List.forall_mem_cons.mpr ⟨hhead.2, ih.2⟩⟩

/-- One component of a shorthand, which nests at most `depth` deep. -/
def componentWithin? (profile : Profile) (depth : Nat) (p : Property) (part : String × Value) :
    Option Property :=
  let component := bare { p.toDeclaration with name := part.1, value := part.2 } p.position
  if component.isShorthand then
    (componentsWithin? profile depth component).map fun components => { component with components }
  else some component

theorem componentsWithin?_succ (profile : Profile) (depth : Nat) (p : Property) :
    componentsWithin? profile (depth + 1) p
      = p.descriptor?.bind fun d =>
          if p.dynamic then none
          else (Split.values? profile d p.value).bind fun values =>
            (d.components.zip values).mapM (componentWithin? profile depth p) :=
  rfl

/-- The components of the table, each of them regular and bound. -/
def IsSplit (p : Property) (cs : List Property) : Prop :=
  ∃ d, p.descriptor? = some d ∧ cs.map (·.name) = d.components ∧ ∀ c ∈ cs, c.Regular ∧ c.Bound

theorem IsSplit.ne_nil {p : Property} {cs : List Property} (h : p.IsSplit cs) (hp : p.isShorthand = true) :
    cs ≠ [] := by
  obtain ⟨d, hd, hnames, -⟩ := h
  obtain ⟨d', hd', hne⟩ := isShorthand_iff.mp hp
  rw [hd] at hd'
  cases hd'
  rintro rfl
  exact hne hnames.symm

theorem IsSplit.regular {p : Property} (h : p.IsSplit p.components) (hne : p.components ≠ []) : p.Regular := by
  obtain ⟨d, hd, hnames, hall⟩ := h
  exact regular_of_components hd hne hnames fun c hc => (hall c hc).1

theorem IsSplit.bound {p : Property} (h : p.IsSplit p.components) (hne : p.components ≠ []) : p.Bound := by
  obtain ⟨d, hd, hnames, hall⟩ := h
  exact bound_of_components hne fun c hc => (hall c hc).2

theorem componentWithin?_regular {profile : Profile} {depth : Nat} {p c : Property} {part : String × Value}
    (hdepth : ∀ {p cs}, componentsWithin? profile depth p = some cs → p.IsSplit cs)
    (h : componentWithin? profile depth p part = some c) : c.name = part.1 ∧ c.Regular ∧ c.Bound := by
  simp only [componentWithin?] at h
  split at h
  · next hshort =>
      obtain ⟨inner, hinner, rfl⟩ := Option.map_eq_some_iff.mp h
      have hsplit := hdepth hinner
      have hne := hsplit.ne_nil hshort
      exact ⟨rfl, IsSplit.regular hsplit hne, IsSplit.bound hsplit hne⟩
  · next hshort =>
      cases h
      exact ⟨rfl, regular_of_not_isShorthand (by simpa using hshort) rfl, bound_bare _ _⟩

theorem componentsWithin?_isSplit {profile : Profile} {depth : Nat} {p : Property} {cs : List Property}
    (h : componentsWithin? profile depth p = some cs) : p.IsSplit cs := by
  induction depth generalizing p cs with
  | zero => cases h
  | succ depth ih =>
      rw [componentsWithin?_succ] at h
      obtain ⟨d, hd, h⟩ := Option.bind_eq_some_iff.mp h
      split at h
      · cases h
      obtain ⟨values, hvalues, h⟩ := Option.bind_eq_some_iff.mp h
      have hlength := Split.length_values? (Registry.mem_of_find? hd).1 hvalues
      obtain ⟨hnames, hall⟩ :=
        forall₂_names ((forall₂_of_mapM h).imp fun _ _ hc => componentWithin?_regular ih hc)
      exact ⟨d, hd, by rw [hnames, List.map_fst_zip (by omega)], hall⟩

theorem longhands_of_components_ne_nil {p : Property} (h : p.components ≠ []) :
    p.longhands = p.components.flatMap longhands := by
  rw [longhands, leaves_of_components_ne_nil h, List.map_flatMap]
  rfl

theorem longhands_of_components_eq_nil {p : Property} (h : p.components = []) :
    p.longhands = [(p.name, p.value)] := by
  rw [longhands, leaves_of_components_eq_nil h]
  rfl

/-- Splitting looks at the name and the value only. -/
theorem componentsWithin?_longhands (profile : Profile) {depth : Nat} {p : Property}
    (hp : p.dynamic = p.value.any Word.isVariable) :
    (componentsWithin? profile depth p).map (·.flatMap longhands)
      = Split.longhandsWithin? profile depth p.name p.value := by
  induction depth generalizing p with
  | zero => rfl
  | succ depth ih =>
      have hone : ∀ part : String × Value, (componentWithin? profile depth p part).map longhands
          = if Registry.builtin.isShorthand part.1 then Split.longhandsWithin? profile depth part.1 part.2
            else some [(part.1, part.2)] := by
        intro part
        rw [componentWithin?]
        split
        · next hshort =>
            have hinner := ih (p := bare { p.toDeclaration with name := part.1, value := part.2 } p.position) rfl
            rw [if_pos (by exact hshort), Option.map_map]
            refine Eq.trans (Option.map_congr fun cs hcs => ?_) hinner
            exact longhands_of_components_ne_nil ((componentsWithin?_isSplit hcs).ne_nil hshort)
        · next hshort =>
            rw [if_neg (by exact hshort), Option.map_some, longhands_of_components_eq_nil rfl]
            rfl
      rw [componentsWithin?_succ, Split.longhandsWithin?, descriptor?]
      cases Registry.builtin.find? p.name with
      | none => rfl
      | some d =>
          rw [Option.bind_some, hp]
          split
          · simp
          · next hvariable =>
              cases hvalues : Split.values? profile d p.value with
              | none => simp [hvalues]
              | some values =>
                  have hparts := map_flatMap_mapM (d.components.zip values) fun part _ => hone part
                  rw [Option.bind_some, hparts, Option.map_eq_bind]
                  simp only [Option.bind_eq_bind, Option.bind_some, hvalues]
                  rfl

theorem components?_longhands (profile : Profile) (d : Declaration) (position : Nat) :
    (components? profile (bare d position)).map (·.flatMap longhands)
      = Split.longhandsWithin? profile nesting d.name d.value :=
  componentsWithin?_longhands profile rfl

theorem wrap_of_isShorthand {profile : Profile} {d : Declaration} {position : Nat}
    (h : Registry.builtin.isShorthand d.name = true) :
    wrap profile d position
      = { bare d position with components := (components? profile (bare d position)).getD [] } :=
  if_pos h

theorem wrap_of_not_isShorthand {profile : Profile} {d : Declaration} {position : Nat}
    (h : Registry.builtin.isShorthand d.name = false) : wrap profile d position = bare d position :=
  if_neg (by rw [Bool.not_eq_true]; exact h)

@[simp] theorem toDeclaration_wrap (profile : Profile) (d : Declaration) (position : Nat) :
    (wrap profile d position).toDeclaration = d := by
  cases h : Registry.builtin.isShorthand d.name with
  | true => rw [wrap_of_isShorthand h]; rfl
  | false => rw [wrap_of_not_isShorthand h]; rfl

theorem unused_wrap (profile : Profile) (d : Declaration) (position : Nat) :
    (wrap profile d position).unused = false := by
  rw [wrap]
  split <;> rfl

theorem isShorthand_wrap (profile : Profile) (d : Declaration) (position : Nat) :
    (wrap profile d position).isShorthand = Registry.builtin.isShorthand d.name := by
  rw [isShorthand, toDeclaration_wrap]

/-- The longhands of a declaration depend on its name and its value only, and so does whether it can be
split. -/
theorem longhands_wrap (profile : Profile) (d : Declaration) (position : Nat) :
    (wrap profile d position).longhands
        = (if Registry.builtin.isShorthand d.name then
            (Split.longhandsWithin? profile nesting d.name d.value).getD [(d.name, d.value)]
          else [(d.name, d.value)]) ∧
      (wrap profile d position).isOpaque
        = (Registry.builtin.isShorthand d.name
            && (Split.longhandsWithin? profile nesting d.name d.value).isNone) := by
  rw [isOpaque, isShorthand_wrap]
  cases h : Registry.builtin.isShorthand d.name with
  | false =>
      rw [wrap_of_not_isShorthand h, longhands_of_components_eq_nil rfl]
      exact ⟨rfl, rfl⟩
  | true =>
      rw [wrap_of_isShorthand h, ← components?_longhands profile d position]
      cases hc : components? profile (bare d position) with
      | none =>
          rw [longhands_of_components_eq_nil rfl]
          exact ⟨rfl, rfl⟩
      | some cs =>
          have hne : cs ≠ [] := (componentsWithin?_isSplit hc).ne_nil h
          rw [longhands_of_components_ne_nil hne]
          exact ⟨rfl, by simp [hne]⟩

theorem bound_wrap (profile : Profile) (d : Declaration) (position : Nat) :
    (wrap profile d position).Bound := by
  cases hd : Registry.builtin.isShorthand d.name with
  | false =>
      rw [wrap_of_not_isShorthand hd]
      exact bound_bare d position
  | true =>
      rw [wrap_of_isShorthand hd]
      cases hc : components? profile (bare d position) with
      | none => exact bound_bare d position
      | some cs =>
          have hsplit := componentsWithin?_isSplit hc
          exact IsSplit.bound hsplit (hsplit.ne_nil hd)

theorem regular_wrap {profile : Profile} {d : Declaration} {position : Nat}
    (h : (wrap profile d position).isOpaque = false) : (wrap profile d position).Regular := by
  cases hd : Registry.builtin.isShorthand d.name with
  | false =>
      rw [wrap_of_not_isShorthand hd]
      exact regular_of_not_isShorthand hd rfl
  | true =>
      rw [isOpaque, isShorthand_wrap, hd, wrap_of_isShorthand hd] at h
      rw [wrap_of_isShorthand hd]
      cases hc : components? profile (bare d position) with
      | none => simp [hc] at h
      | some cs =>
          have hsplit := componentsWithin?_isSplit hc
          exact IsSplit.regular hsplit (hsplit.ne_nil hd)

theorem setting?_wrap_congr {profile : Profile} {d e : Declaration} {i j : Nat} (hname : d.name = e.name)
    (hvalue : d.value = e.value) (longhand : String) :
    (wrap profile d i).setting? longhand = (wrap profile e j).setting? longhand := by
  have hleaf : (wrap profile d i).leafNames = (wrap profile e j).leafNames :=
    leafNames_congr (by rw [toDeclaration_wrap, toDeclaration_wrap, hname])
  rw [setting?, setting?, (longhands_wrap profile d i).1, (longhands_wrap profile d i).2,
    (longhands_wrap profile e j).1, (longhands_wrap profile e j).2, hleaf, toDeclaration_wrap,
    toDeclaration_wrap, hname, hvalue]

theorem leafNames_ne_nil (p : Property) : p.leafNames ≠ [] := by
  unfold leafNames
  cases hd : p.descriptor? with
  | none => simp
  | some d => exact Registry.leaves_ne_nil (Registry.mem_of_find? hd).1

theorem nodup_leafNames (p : Property) : p.leafNames.Nodup := by
  rw [leafNames]
  cases hd : p.descriptor? with
  | none => simp
  | some d => exact Registry.nodup_leaves (Registry.mem_of_find? hd).1

theorem mem_leafNames_iff {p : Property} (hp : p.Regular) {longhand : String} :
    longhand ∈ p.leafNames ↔ ∃ leaf ∈ p.leaves, leaf.name = longhand := by
  rw [← (regular_iff.mp hp).1, List.mem_map]

theorem map_fst_longhands {p : Property} (hp : p.Regular) : p.longhands.map Prod.fst = p.leafNames := by
  rw [← (regular_iff.mp hp).1, longhands, List.map_map]
  rfl

theorem setting?_of_mem_leaves {p leaf : Property} (hp : p.Regular) (hknown : p.isOpaque = false)
    (hleaf : leaf ∈ p.leaves) : p.setting? leaf.name = some (.own leaf.value) := by
  have hnodup : (p.longhands.map Prod.fst).Nodup := map_fst_longhands hp ▸ nodup_leafNames p
  have hmem : (leaf.name, leaf.value) ∈ p.longhands := List.mem_map_of_mem hleaf
  rw [setting?, hknown, if_neg (by simp), lookup_eq_some_of_mem hnodup hmem, Option.map_some]

/-- A property sets exactly the longhands that the table has for its name. -/
theorem isSome_setting? {p : Property} (h : p.isOpaque = false → p.Regular) (longhand : String) :
    (p.setting? longhand).isSome = true ↔ longhand ∈ p.leafNames := by
  cases hp : p.isOpaque with
  | true => simp [setting?, hp]
  | false =>
      rw [mem_leafNames_iff (h hp), setting?, hp, if_neg (by simp), Option.isSome_map,
        List.lookup_isSome_iff]
      simp only [longhands, List.mem_map, exists_exists_and_eq_and, beq_iff_eq]
      exact exists_congr fun leaf => and_congr_right fun _ => eq_comm

theorem setting?_eq_none {p : Property} (h : p.isOpaque = false → p.Regular) {longhand : String}
    (hmem : longhand ∉ p.leafNames) : p.setting? longhand = none := by
  rw [← Option.not_isSome_iff_eq_none, isSome_setting? h]
  exact hmem

end Property

namespace Declaration

theorem isSome_setting? (profile : Profile) (p : Property) (longhand : String) :
    (p.toDeclaration.setting? profile longhand).isSome = true ↔ longhand ∈ p.leafNames := by
  have hleaf : (Property.wrap profile p.toDeclaration 0).leafNames = p.leafNames :=
    Property.leafNames_congr (by rw [Property.toDeclaration_wrap])
  rw [setting?, Property.isSome_setting? Property.regular_wrap, hleaf]

theorem setting?_eq_none (profile : Profile) {p : Property} {longhand : String}
    (hmem : longhand ∉ p.leafNames) : p.toDeclaration.setting? profile longhand = none := by
  rw [← Option.not_isSome_iff_eq_none, isSome_setting?]
  exact hmem

end Declaration

end CssMinify
