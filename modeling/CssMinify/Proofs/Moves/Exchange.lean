import CssMinify.Cascade.Exchange
import CssMinify.Proofs.Effect.Longhands

/-! What is answered for declarations that set a longhand in common, under one selector. Their order matters
there, so they should stay as they are. They may nevertheless change places where nothing fixes their order
and one is `list-style` and the other one of its longhands, since the families of these differ; where their
values read the same, though a shorthand may give its longhands parts of its value; and where one property
has values for different vendors. In all other cases the table of properties and the families agree. -/

namespace CssMinify

namespace Selector

theorem apart_self (names : List String) : apart names names = false := by
  cases names with
  | nil => rfl
  | cons name rest => simp [apart]

theorem excludes_self (c : Compound) : c.excludes false c = false := by
  unfold Compound.excludes
  cases c.elementName? with
  | none => simp [apart_self]
  | some name => simp [apart_self, Text.sameFolded]

theorem mayOverlap_self (s : Complex) : s.mayOverlap false s = true := by
  unfold Complex.mayOverlap
  cases s.subject? with
  | none => rfl
  | some c => simp [excludes_self]

/-- A selector that can be read meets itself. -/
theorem neverMeet_self {s : String} {selectors : List Complex} (h : parseList s = .ok selectors) :
    neverMeet false [s] [s] = .ok false := by
  cases selectors with
  | nil => simp [neverMeet, List.allM, h, bind, Except.bind, pure, Except.pure]
  | cons l rest => simp [neverMeet, List.allM, h, mayOverlap_self, bind, Except.bind, pure, Except.pure]

theorem bindDifferently_self (s : String) :
    bindDifferently [s] [s] = (specificity s).map fun _ => false := by
  cases h : specificity s <;> simp [bindDifferently, List.allM, h, bind, Except.bind, pure, Except.pure, Except.map]

theorem exists_parseList_of_specificity {s : String} {strength : Specificity}
    (h : specificity s = .ok strength) : ∃ selectors, parseList s = .ok selectors := by
  rw [specificity, specificityWithin] at h
  cases hparse : parseList s with
  | error fault =>
      rw [hparse] at h
      cases h
  | ok selectors => exact ⟨selectors, rfl⟩

end Selector

namespace Touch

theorem differInPrefix_comm (a b : Touch) : a.differInPrefix b = b.differInPrefix a := by
  rw [differInPrefix, differInPrefix, BEq.comm, bne_comm]

theorem crossBorders_comm (a b : String) : crossBorders a b = crossBorders b a := by
  rw [crossBorders, crossBorders, Bool.or_comm, Bool.and_comm (aspectBorders.contains a),
    Bool.and_comm (sideBorders.contains a)]

theorem isFixed_comm (a b : Touch) : a.isFixed b = b.isFixed a := by
  rw [isFixed, isFixed, differInPrefix_comm, crossBorders_comm, bne_comm, Bool.and_comm a.isFlex]
  simp only [Bool.or_assoc, Bool.or_left_comm]

/-- Only the names of two declarations, and whether their values differ, tell whether their order is fixed. -/
theorem isFixed_congr {a b a' b' : Touch} (ha : a.name = a'.name) (hb : b.name = b'.name)
    (hfa : a.family = a'.family) (hfb : b.family = b'.family)
    (hvalue : (a.value != b.value) = (a'.value != b'.value)) : a.isFixed b = a'.isFixed b' := by
  have hvalue' : (b.value != a.value) = (b'.value != a'.value) := by
    rw [bne_comm, hvalue, bne_comm]
  simp only [isFixed, isFlex, differInPrefix, borderMeets, ha, hb, hfa, hfb, hvalue, hvalue']

/-- One is `list-style`, and the other is not. -/
def isListStylePair (a b : Touch) : Bool :=
  a.name != b.name && (a.name == "list-style" || b.name == "list-style")

/-- Properties whose order matters as long as their values differ: one gives its name to the family of
both, or their order is fixed. -/
def isKept (a b : Touch) : Bool :=
  (a.family == b.family && (a.name == a.family || b.name == b.family)) || a.isFixed b

/-- What families tell of different properties that set a longhand in common, if their values differ. -/
def isTold (a b : Touch) : Bool := if a.isListStylePair b then a.family != b.family else a.isKept b

theorem isTold_comm (a b : Touch) : a.isTold b = b.isTold a := by
  have hpair : a.isListStylePair b = b.isListStylePair a := by
    rw [isListStylePair, isListStylePair, bne_comm, Bool.or_comm]
  have hkept : a.isKept b = b.isKept a := by
    rw [isKept, isKept, isFixed_comm, BEq.comm, Bool.or_comm (a.name == a.family)]
  rw [isTold, isTold, hpair, hkept, bne_comm]

theorem isTold_congr {a b a' b' : Touch} (ha : a.name = a'.name) (hb : b.name = b'.name)
    (hfa : a.family = a'.family) (hfb : b.family = b'.family)
    (hvalue : (a.value != b.value) = (a'.value != b'.value)) : a.isTold b = a'.isTold b' := by
  have hpair : a.isListStylePair b = a'.isListStylePair b' := by
    rw [isListStylePair, isListStylePair, ha, hb]
  have hkept : a.isKept b = a'.isKept b' := by
    rw [isKept, isKept, isFixed_congr ha hb hfa hfb hvalue, ha, hb, hfa, hfb]
  rw [isTold, isTold, hpair, hkept, hfa, hfb]

/-- What a property with a value sets. -/
def ofName (name value : String) : Touch :=
  { name, value, family := Property.family name, selectors := [], important := false }

end Touch

namespace Registry

/-- The names in the table are in lower case, and families tell of all that set a longhand in common. -/
theorem builtin_isTold :
    (∀ a ∈ builtin.shorthands, ∀ name ∈ a.name :: a.leaves, Text.lower name = name) ∧
      (∀ a ∈ builtin.shorthands, ∀ longhand ∈ a.leaves,
        (Touch.ofName a.name "0").isTold (Touch.ofName longhand "1") = true) ∧
      ∀ a ∈ builtin.shorthands, ∀ b ∈ builtin.shorthands, a.leaves.any b.leaves.contains = true →
        a.name = b.name ∨ (Touch.ofName a.name "0").isTold (Touch.ofName b.name "1") = true := by
  decide +kernel

end Registry

namespace Declaration

/-- Two declarations give different settings to one longhand. -/
def Clashes (profile : Profile) (d e : Declaration) : Prop :=
  ∃ longhand x y, d.setting? profile longhand = some x ∧ e.setting? profile longhand = some y ∧ x ≠ y

variable {profile : Profile} {d e : Declaration}

theorem exists_mem_of_setting? {longhand : String} {x : Setting} (h : d.setting? profile longhand = some x) :
    (∃ a ∈ Registry.builtin.shorthands, a.name = d.name ∧ longhand ∈ a.leaves) ∨ longhand = d.name := by
  have hmem : longhand ∈ (Property.bare d 0).leafNames := by
    rw [← isSome_setting? profile]
    exact Option.isSome_of_eq_some h
  cases hshort : (Property.bare d 0).isShorthand with
  | false =>
      rw [Property.leafNames_of_not_isShorthand hshort] at hmem
      exact .inr (List.mem_singleton.mp hmem)
  | true =>
      obtain ⟨a, ha, hne⟩ := Property.isShorthand_iff.mp hshort
      rw [Property.leafNames_of_descriptor? ha] at hmem
      obtain ⟨ha, hname⟩ := Registry.mem_of_find? ha
      refine .inl ⟨a, List.mem_filter.mpr ⟨ha, ?_⟩, hname, hmem⟩
      simpa [Descriptor.isShorthand] using hne

theorem isTold_ofName {selectors : List String} (hd : Text.lower d.name = d.name) (he : Text.lower e.name = e.name)
    (hvalue : Value.print d.value ≠ Value.print e.value)
    (h : (Touch.ofName d.name "0").isTold (Touch.ofName e.name "1") = true) :
    (Touch.ofDeclaration selectors d).isTold (Touch.ofDeclaration selectors e) = true := by
  rw [← h]
  apply Touch.isTold_congr
  · exact hd
  · exact he
  · simp only [Touch.ofDeclaration, Touch.ofName, hd]
  · simp only [Touch.ofDeclaration, Touch.ofName, he]
  · have hdiffer : ("0" != "1") = true := by decide
    exact (bne_iff_ne.mpr hvalue).trans hdiffer.symm

/-- Names of different properties that set a longhand in common are in lower case, and families tell of
them. -/
theorem isTold_of_setting? {longhand : String} {x y : Setting} (hx : d.setting? profile longhand = some x)
    (hy : e.setting? profile longhand = some y) (hname : d.name ≠ e.name) :
    Text.lower d.name = d.name ∧ Text.lower e.name = e.name ∧
      ((Touch.ofName d.name "0").isTold (Touch.ofName e.name "1") = true ∨
        (Touch.ofName e.name "0").isTold (Touch.ofName d.name "1") = true) := by
  obtain ⟨hlower, hleaf, hshort⟩ := Registry.builtin_isTold
  rcases exists_mem_of_setting? hx with ⟨a, ha, had, hla⟩ | hld <;>
    rcases exists_mem_of_setting? hy with ⟨b, hb, hbe, hlb⟩ | hle
  -- A property that is no shorthand is its own only longhand, so two of them have the same name.
  · have hcommon : a.leaves.any b.leaves.contains = true :=
      List.any_eq_true.mpr ⟨longhand, hla, List.contains_iff_mem.mpr hlb⟩
    have htold := hshort a ha b hb hcommon
    rw [had, hbe] at htold
    exact ⟨had ▸ hlower a ha a.name List.mem_cons_self, hbe ▸ hlower b hb b.name List.mem_cons_self,
      .inl (htold.resolve_left hname)⟩
  · subst hle
    exact ⟨had ▸ hlower a ha a.name List.mem_cons_self, hlower a ha _ (List.mem_cons_of_mem _ hla),
      .inl (had ▸ hleaf a ha _ hla)⟩
  · subst hld
    exact ⟨hlower b hb _ (List.mem_cons_of_mem _ hlb), hbe ▸ hlower b hb b.name List.mem_cons_self,
      .inr (hbe ▸ hleaf b hb _ hlb)⟩
  · exact absurd (hld.symm.trans hle) hname

/-- Declarations that clash are of one property, or of properties of which families tell. -/
theorem Clashes.name_eq_or (h : d.Clashes profile e) (selectors : List String) :
    d.name = e.name ∨ (Text.lower d.name ≠ Text.lower e.name ∧
      (Value.print d.value ≠ Value.print e.value →
        (Touch.ofDeclaration selectors d).isTold (Touch.ofDeclaration selectors e) = true)) := by
  obtain ⟨longhand, x, y, hx, hy, -⟩ := h
  by_cases hname : d.name = e.name
  · exact .inl hname
  obtain ⟨hd, he, htold⟩ := isTold_of_setting? hx hy hname
  refine .inr ⟨by rwa [hd, he], ?_⟩
  intro hvalue
  rcases htold with htold | htold
  · exact isTold_ofName hd he hvalue htold
  · rw [Touch.isTold_comm]
    exact isTold_ofName he hd (Ne.symm hvalue) htold

end Declaration

namespace Touch

/-- Declarations that are taken to be independent although they set a longhand in common: `list-style` and
one of its longhands, those whose values read the same, and those of one property with values for different
vendors. -/
def isMistaken (a b : Touch) : Bool :=
  a.isListStylePair b || a.value == b.value || (a.name == b.name && vendorsDiffer a.value b.value)

variable {profile : Profile} {d e : Declaration}

theorem isIndependent_of_isTold {a b : Touch} (hname : a.name ≠ b.name) (hvalue : a.value ≠ b.value)
    (himportant : a.important = b.important) (hfixed : a.isFixed b = false) (htold : a.isTold b = true) :
    a.isIndependent b = a.isListStylePair b := by
  unfold isTold at htold
  split at htold
  · next hpair => rw [isIndependent, hpair, htold, Bool.true_or, Bool.true_or, Bool.true_or, Bool.true_or]
  · next hpair =>
      rw [isKept, hfixed, Bool.or_false, Bool.and_eq_true, beq_iff_eq] at htold
      obtain ⟨hfamily, hhead⟩ := htold
      have hheads : (a.name != b.name && a.name != a.family && b.name != b.family) = false := by
        rcases Bool.or_eq_true_iff.mp hhead with hhead | hhead
        · simp [beq_iff_eq.mp hhead]
        · simp [beq_iff_eq.mp hhead]
      rw [isIndependent, hheads]
      simp [hname, hvalue, himportant, hfamily, hpair]

theorem isIndependent_of_clashes (h : d.Clashes profile e) (himportant : d.important = e.important)
    (selectors : List String)
    (hfixed : (ofDeclaration selectors d).isFixed (ofDeclaration selectors e) = false) :
    (ofDeclaration selectors d).isIndependent (ofDeclaration selectors e)
      = (ofDeclaration selectors d).isMistaken (ofDeclaration selectors e) := by
  rcases h.name_eq_or selectors with hname | ⟨hname, htold⟩
  · simp [isIndependent, isMistaken, isListStylePair, ofDeclaration, hname, himportant]
  · by_cases hvalue : Value.print d.value = Value.print e.value
    · simp [isIndependent, isMistaken, ofDeclaration, hname, hvalue]
    · have hname' : ((ofDeclaration selectors d).name == (ofDeclaration selectors e).name) = false :=
        beq_eq_false_iff_ne.mpr hname
      have hvalue' : ((ofDeclaration selectors d).value == (ofDeclaration selectors e).value) = false :=
        beq_eq_false_iff_ne.mpr hvalue
      rw [isIndependent_of_isTold hname hvalue himportant hfixed (htold hvalue), isMistaken, hname', hvalue',
        Bool.false_and, Bool.or_false, Bool.or_false]

/-- Under one selector, declarations of equal importance that clash stay as they are, unless nothing fixes
their order and they are taken to be independent. -/
theorem mayExchange_of_clashes (h : d.Clashes profile e) (himportant : d.important = e.important)
    (s : String) :
    (ofDeclaration [s] d).mayExchange false (ofDeclaration [s] e)
      = if (ofDeclaration [s] d).isFixed (ofDeclaration [s] e) then .ok false
        else if (ofDeclaration [s] d).isMistaken (ofDeclaration [s] e) then .ok true
        else (Selector.specificity s).map fun _ => false := by
  unfold mayExchange
  cases hfixed : (ofDeclaration [s] d).isFixed (ofDeclaration [s] e) with
  | true => simp only [if_true, pure, Except.pure]
  | false =>
      rw [isIndependent_of_clashes h himportant [s] hfixed]
      cases hmistaken : (ofDeclaration [s] d).isMistaken (ofDeclaration [s] e) with
      | true => simp only [Bool.false_eq_true, if_false, if_true, pure, Except.pure]
      | false =>
          -- Both have the one selector, which binds as strongly as itself and meets itself.
          have hbind : Selector.bindDifferently (ofDeclaration [s] d).selectors (ofDeclaration [s] e).selectors
              = (Selector.specificity s).map fun _ => false := Selector.bindDifferently_self s
          simp only [hbind, Bool.false_eq_true, if_false]
          cases hspecificity : Selector.specificity s with
          | error fault => rfl
          | ok strength =>
              obtain ⟨selectors, hparse⟩ := Selector.exists_parseList_of_specificity hspecificity
              exact Selector.neverMeet_self hparse

/-- The longhand moves past its shorthand, although the two clash. -/
theorem mayExchange_listStyle :
    let shorthand : Declaration := { name := "list-style", value := ["square"] }
    let longhand : Declaration := { name := "list-style-type", value := ["circle"] }
    shorthand.Clashes .modern longhand ∧
      (ofDeclaration ["a"] shorthand).mayExchange false (ofDeclaration ["a"] longhand) = .ok true := by
  intro shorthand longhand
  have hclashes : shorthand.Clashes .modern longhand :=
    ⟨"list-style-type", .own ["square"], .own ["circle"], by decide +kernel, by decide +kernel, by decide⟩
  have hfixed : (ofDeclaration ["a"] shorthand).isFixed (ofDeclaration ["a"] longhand) = false := by
    decide +kernel
  have hmistaken : (ofDeclaration ["a"] shorthand).isMistaken (ofDeclaration ["a"] longhand) = true := by
    decide +kernel
  refine ⟨hclashes, ?_⟩
  rw [mayExchange_of_clashes hclashes rfl, hfixed, hmistaken, if_neg Bool.false_ne_true, if_pos rfl]

end Touch

end CssMinify
