import CssMinify.Selector.Overlap
import Mathlib.Data.Set.Insert

/-!
What selectors can match. A target is an element, or a pseudo-element below one. Two selectors are held to be apart
only if no target satisfies what both of their subjects say of types, ids, classes and pseudo-elements; and where
either subject can be satisfied by itself and has one pseudo-element at most, they are held to be apart if there is no
such target.
-/

namespace CssMinify

namespace Selector

/-- The pseudo-elements of a compound, from the outside to the inside. -/
def Compound.pseudoElements (c : Compound) : List String :=
  c.filterMap fun
    | .pseudoElement name _ => some name
    | _ => none

/-- An element with what selectors ask of it, and the way from there to a pseudo-element: none for the element
itself. -/
structure Target where
  element : String
  id : Option String
  classes : Set String
  pseudoElements : List String

namespace Target

/-- What a simple selector says of the element. Attributes and pseudo-classes are not compared, and pseudo-elements
are compared as a whole. -/
def Satisfies (t : Target) : Simple → Prop
  | .element name => Text.sameFolded t.element name = true
  | .id name => t.id = some name
  | .className name => name ∈ t.classes
  | .universal | .attribute .. | .pseudoClass .. | .pseudoElement .. => True

/-- The target is as a compound says. -/
structure Meets (t : Target) (c : Compound) : Prop where
  satisfies : ∀ s ∈ c, t.Satisfies s
  pseudoElements : c.pseudoElements = t.pseudoElements

/-- The target is as the subject of a selector says, if it has one. -/
def IsSubjectOf (t : Target) (s : Complex) : Prop := ∀ c ∈ s.subject?, t.Meets c

/-- All the classes belong to one block. -/
def HasOneBlock (t : Target) : Prop := ∃ block, ∀ name ∈ t.classes, bemBlock name = block

end Target

section Reading

variable {c : Compound} {name : String}

theorem mem_of_elementName? (h : c.elementName? = some name) : Simple.element name ∈ c := by
  obtain ⟨s, hs, hname⟩ := List.exists_of_findSome?_eq_some h
  cases s <;> cases hname
  exact hs

theorem elementName?_eq_none (h : c.elementName? = none) : Simple.element name ∉ c := by
  intro hmem
  have hnone := List.findSome?_eq_none_iff.mp h _ hmem
  cases hnone

theorem mem_ids : name ∈ c.ids ↔ Simple.id name ∈ c := by
  rw [Compound.ids, List.mem_filterMap]
  constructor
  · rintro ⟨s, hs, hname⟩
    cases s <;> cases hname
    exact hs
  · exact fun h => ⟨_, h, rfl⟩

theorem mem_classNames : name ∈ c.classNames ↔ Simple.className name ∈ c := by
  rw [Compound.classNames, List.mem_filterMap]
  constructor
  · rintro ⟨s, hs, hname⟩
    cases s <;> cases hname
    exact hs
  · exact fun h => ⟨_, h, rfl⟩

/-- Only the outermost pseudo-element is compared. -/
theorem pseudoElement?_eq (c : Compound) : c.pseudoElement? = c.pseudoElements.head? :=
  (List.head?_filterMap (l := c)).symm

end Reading

/-- Two sets are not apart if they share something, or one of them has nothing in it. -/
theorem apart_eq_false {a b : List String} :
    apart a b = false ↔ a = [] ∨ b = [] ∨ ∃ name, name ∈ a ∧ name ∈ b := by
  rw [apart, Bool.and_eq_false_iff, Bool.and_eq_false_iff, or_assoc]
  simp [List.any_eq_true]

theorem not_apart_of_forall {a b : List String} (h : ∀ x ∈ a, ∀ y ∈ b, x = y) : apart a b = false := by
  rw [apart_eq_false]
  cases a with
  | nil => exact .inl rfl
  | cons x a =>
      cases b with
      | nil => exact .inr (.inl rfl)
      | cons y b =>
          have hxy := h x List.mem_cons_self y List.mem_cons_self
          exact .inr (.inr ⟨x, List.mem_cons_self, hxy ▸ List.mem_cons_self⟩)

/-- What it takes for two compounds not to exclude each other. -/
theorem Compound.excludes_eq_false {semantic : Bool} {a b : Compound} :
    a.excludes semantic b = false ↔
      (∀ x ∈ a.elementName?, ∀ y ∈ b.elementName?, Text.sameFolded x y = true) ∧ apart a.ids b.ids = false ∧
        a.pseudoElement? = b.pseudoElement? ∧
        (semantic = true → apart (a.classNames.map bemBlock) (b.classNames.map bemBlock) = false) := by
  simp only [Compound.excludes, Bool.or_eq_false_iff, bne_eq_false_iff_eq, Bool.and_eq_false_imp, and_assoc]
  refine and_congr_left fun _ => ?_
  cases a.elementName? <;> cases b.elementName? <;> simp

namespace Target

section Sound

variable {t : Target} {a b : Compound}

theorem excludes_of_meets (ha : t.Meets a) (hb : t.Meets b) {semantic : Bool}
    (hblock : semantic = true → t.HasOneBlock) : a.excludes semantic b = false := by
  refine Compound.excludes_eq_false.mpr ⟨fun x hx y hy => ?_, ?_, ?_, fun hsemantic => ?_⟩
  · have hfirst : Text.sameFolded t.element x = true := ha.satisfies _ (mem_of_elementName? hx)
    have hsecond : Text.sameFolded t.element y = true := hb.satisfies _ (mem_of_elementName? hy)
    simp only [Text.sameFolded, beq_iff_eq] at hfirst hsecond ⊢
    exact hfirst.symm.trans hsecond
  · refine not_apart_of_forall fun x hx y hy => Option.some.inj ?_
    calc some x
      _ = t.id := (ha.satisfies _ (mem_ids.mp hx)).symm
      _ = some y := hb.satisfies _ (mem_ids.mp hy)
  · rw [pseudoElement?_eq, pseudoElement?_eq, ha.pseudoElements, hb.pseudoElements]
  · obtain ⟨block, hclasses⟩ := hblock hsemantic
    refine not_apart_of_forall fun x hx y hy => ?_
    obtain ⟨m, hm, rfl⟩ := List.mem_map.mp hx
    obtain ⟨n, hn, rfl⟩ := List.mem_map.mp hy
    rw [hclasses m (ha.satisfies _ (mem_classNames.mp hm)), hclasses n (hb.satisfies _ (mem_classNames.mp hn))]

end Sound

section Exact

variable {ta tb : Target} {a b : Compound} {semantic : Bool}

/-- A target for two compounds, made of one for either: what the first says of the type and the id, or else what the
second does, and no classes that neither asks for. -/
def joined (ta tb : Target) (a b : Compound) : Target where
  element := if a.elementName? = none then tb.element else ta.element
  id := if a.ids = [] then tb.id else ta.id
  classes := { name | name ∈ a.classNames ∨ name ∈ b.classNames }
  pseudoElements := a.pseudoElements

theorem meets_joined_left (ha : ta.Meets a) : (joined ta tb a b).Meets a := by
  refine ⟨fun s hs => ?_, rfl⟩
  cases s with
  | element name =>
      have hsome : a.elementName? ≠ none := fun hnone => elementName?_eq_none hnone hs
      simpa [Satisfies, joined, hsome] using ha.satisfies _ hs
  | id name =>
      have hsome : a.ids ≠ [] := List.ne_nil_of_mem (mem_ids.mpr hs)
      simpa [Satisfies, joined, hsome] using ha.satisfies _ hs
  | className name => exact .inl (mem_classNames.mpr hs)
  | _ => trivial

theorem meets_joined_right (ha : ta.Meets a) (hb : tb.Meets b) (hpseudo : a.pseudoElements = b.pseudoElements)
    (h : a.excludes semantic b = false) : (joined ta tb a b).Meets b := by
  obtain ⟨helement, hids, -⟩ := Compound.excludes_eq_false.mp h
  refine ⟨fun s hs => ?_, hpseudo.symm⟩
  cases s with
  | element name =>
      have hname : Text.sameFolded tb.element name = true := hb.satisfies _ hs
      cases hleft : a.elementName? with
      | none => simpa [Satisfies, joined, hleft] using hname
      | some x =>
          obtain ⟨y, hright⟩ : ∃ y, b.elementName? = some y :=
            Option.ne_none_iff_exists'.mp fun hnone => elementName?_eq_none hnone hs
          have hx : Text.sameFolded ta.element x = true := ha.satisfies _ (mem_of_elementName? hleft)
          have hy : Text.sameFolded tb.element y = true := hb.satisfies _ (mem_of_elementName? hright)
          have hxy := helement x hleft y hright
          simp only [Satisfies, joined, hleft, reduceCtorEq, if_false, Text.sameFolded, beq_iff_eq] at hname hx hy hxy ⊢
          rw [hx, hxy, ← hy, hname]
  | id name =>
      have hname : tb.id = some name := hb.satisfies _ hs
      rcases apart_eq_false.mp hids with hnil | hnil | ⟨shared, hleft, hright⟩
      · simpa [Satisfies, joined, hnil] using hname
      · exact absurd hnil (List.ne_nil_of_mem (mem_ids.mpr hs))
      · have hta : ta.id = some shared := ha.satisfies _ (mem_ids.mp hleft)
        have htb : tb.id = some shared := hb.satisfies _ (mem_ids.mp hright)
        have hne : a.ids ≠ [] := List.ne_nil_of_mem hleft
        simp only [Satisfies, joined, hne, if_false]
        rw [hta, ← htb, hname]
  | className name => exact .inr (mem_classNames.mpr hs)
  | _ => trivial

theorem hasOneBlock_joined (ha : ta.Meets a) (hb : tb.Meets b) (hta : ta.HasOneBlock) (htb : tb.HasOneBlock)
    (h : apart (a.classNames.map bemBlock) (b.classNames.map bemBlock) = false) : (joined ta tb a b).HasOneBlock := by
  obtain ⟨left, hleft⟩ := hta
  obtain ⟨right, hright⟩ := htb
  have hina : ∀ name ∈ a.classNames, bemBlock name = left :=
    fun name hname => hleft name (ha.satisfies _ (mem_classNames.mp hname))
  have hinb : ∀ name ∈ b.classNames, bemBlock name = right :=
    fun name hname => hright name (hb.satisfies _ (mem_classNames.mp hname))
  rcases apart_eq_false.mp h with hnil | hnil | ⟨block, hx, hy⟩
  · rw [List.map_eq_nil_iff] at hnil
    exact ⟨right, fun name hname => hinb name (hname.resolve_left (by simp [hnil]))⟩
  · rw [List.map_eq_nil_iff] at hnil
    exact ⟨left, fun name hname => hina name (hname.resolve_right (by simp [hnil]))⟩
  · obtain ⟨m, hm, rfl⟩ := List.mem_map.mp hx
    obtain ⟨n, hn, heq⟩ := List.mem_map.mp hy
    have hsame : left = right := by rw [← hina m hm, ← heq, hinb n hn]
    exact ⟨left, fun name hname => hname.elim (hina name) fun hname => (hinb name hname).trans hsame.symm⟩

/-- Lists of one name at most are the same if they start with the same. -/
theorem eq_of_head? {xs ys : List String} (hxs : xs.length ≤ 1) (hys : ys.length ≤ 1) (h : xs.head? = ys.head?) :
    xs = ys := by
  have hself {zs : List String} (hzs : zs.length ≤ 1) : zs = zs.head?.toList := by
    rcases zs with - | ⟨z, - | ⟨z', zs⟩⟩
    · rfl
    · rfl
    · simp at hzs
  rw [hself hxs, hself hys, h]

/-- Compounds that can be met by themselves, each with one pseudo-element at most, can be met together unless they
exclude each other. -/
theorem exists_meets (ha : ta.Meets a) (hb : tb.Meets b)
    (hblocks : semantic = true → ta.HasOneBlock ∧ tb.HasOneBlock) (hsingle : ta.pseudoElements.length ≤ 1)
    (hsingle' : tb.pseudoElements.length ≤ 1) (h : a.excludes semantic b = false) :
    ∃ t : Target, t.Meets a ∧ t.Meets b ∧ (semantic = true → t.HasOneBlock) := by
  obtain ⟨-, -, hpseudo, hclasses⟩ := Compound.excludes_eq_false.mp h
  rw [pseudoElement?_eq, pseudoElement?_eq] at hpseudo
  have hsame := eq_of_head? (ha.pseudoElements ▸ hsingle) (hb.pseudoElements ▸ hsingle') hpseudo
  refine ⟨joined ta tb a b, meets_joined_left ha, meets_joined_right ha hb hsame h, fun hsemantic => ?_⟩
  exact hasOneBlock_joined ha hb (hblocks hsemantic).1 (hblocks hsemantic).2 (hclasses hsemantic)

end Exact

/-- Selectors that target one element may overlap; under the naming by blocks, if its classes belong to one block. And
selectors that may overlap target one element in common, provided that either has a target of its own, with one
pseudo-element at most, and of one block if blocks count. -/
theorem mayOverlap_of_isSubjectOf (a b : Complex) :
    (∀ t : Target, t.IsSubjectOf a → t.IsSubjectOf b →
      a.mayOverlap false b = true ∧ (t.HasOneBlock → a.mayOverlap true b = true)) ∧
    ∀ (semantic : Bool) (ta tb : Target), ta.IsSubjectOf a → tb.IsSubjectOf b → ta.pseudoElements.length ≤ 1 →
      tb.pseudoElements.length ≤ 1 → (semantic = true → ta.HasOneBlock ∧ tb.HasOneBlock) →
      a.mayOverlap semantic b = true →
      ∃ t : Target, t.IsSubjectOf a ∧ t.IsSubjectOf b ∧ (semantic = true → t.HasOneBlock) := by
  cases hx : a.subject? with
  | none =>
      refine ⟨fun t _ _ => by simp [Complex.mayOverlap, hx], fun semantic ta tb _ hb _ _ hblocks _ => ?_⟩
      exact ⟨tb, by simp [IsSubjectOf, hx], hb, fun h => (hblocks h).2⟩
  | some x =>
      cases hy : b.subject? with
      | none =>
          refine ⟨fun t _ _ => by simp [Complex.mayOverlap, hx, hy], fun semantic ta tb ha _ _ _ hblocks _ => ?_⟩
          exact ⟨ta, ha, by simp [IsSubjectOf, hy], fun h => (hblocks h).1⟩
      | some y =>
          have hanswer (semantic : Bool) : a.mayOverlap semantic b = !x.excludes semantic y := by
            rw [Complex.mayOverlap, hx, hy]
          have hmeets (t : Target) : (t.IsSubjectOf a ↔ t.Meets x) ∧ (t.IsSubjectOf b ↔ t.Meets y) := by
            simp [IsSubjectOf, hx, hy]
          simp only [hanswer, hmeets, Bool.not_eq_true']
          refine ⟨fun t ha hb => ⟨excludes_of_meets ha hb nofun, fun h => excludes_of_meets ha hb fun _ => h⟩, ?_⟩
          exact fun semantic ta tb ha hb hsingle hsingle' hblocks h => exists_meets ha hb hblocks hsingle hsingle' h

/-- What stands before a link in a menu is targeted by two selectors, of which one asks for the type in capitals and
the other for the id twice. -/
theorem mayOverlap_of_isSubjectOf_menu :
    let t : Target :=
      { element := "a", id := some "x", classes := {"menu__item", "menu--active"}, pseudoElements := ["before"] }
    let a : Complex := ⟨[⟨[.element "A", .className "menu__item", .pseudoElement "before" true], some .child⟩,
      ⟨[.element "ul"], none⟩]⟩
    let b : Complex := ⟨[⟨[.universal, .id "x", .id "x", .className "menu--active", .pseudoClass "hover" none,
      .pseudoElement "before" false], none⟩]⟩
    t.IsSubjectOf a ∧ t.IsSubjectOf b ∧ t.HasOneBlock ∧ a.mayOverlap false b = true ∧ a.mayOverlap true b = true := by
  intro t a b
  have ha : t.IsSubjectOf a := by
    rintro c ⟨⟩
    refine ⟨?_, rfl⟩
    simp [Satisfies, t, show Text.sameFolded "a" "A" = true by decide]
  have hb : t.IsSubjectOf b := by
    rintro c ⟨⟩
    refine ⟨?_, rfl⟩
    simp [Satisfies, t]
  have hblock : t.HasOneBlock := by
    refine ⟨"menu", ?_⟩
    rintro name (rfl | rfl) <;> decide
  obtain ⟨hoverlap, hsemantic⟩ := (mayOverlap_of_isSubjectOf a b).1 t ha hb
  exact ⟨ha, hb, hblock, hoverlap, hsemantic hblock⟩

end Target

end Selector

end CssMinify
