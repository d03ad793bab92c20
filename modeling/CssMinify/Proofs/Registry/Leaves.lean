import CssMinify.Proofs.Effect.Longhands
import CssMinify.Proofs.Registry.Building
import Mathlib.Logic.Relation

/-! The longhands below a property. They are found by following components from row to row, nine times at most, and
no table is refused for its depth or for a cycle. So the leaves of a row are the longhands below it exactly if no ten
steps lead down from it; where some do, a row that nine steps reach counts as a longhand, whatever it lists. -/

namespace CssMinify

namespace Registry

/-- A row that another lists. -/
def IsComponent (r : Registry) (outer inner : Descriptor) : Prop :=
  inner ∈ r.descriptors ∧ inner.name ∈ outer.components

/-- A row that this many steps from component to component lead to. -/
def ReachedIn (r : Registry) : Nat → Descriptor → Descriptor → Prop
  | 0, d, e => d = e
  | n + 1, d, e => ∃ c, r.IsComponent d c ∧ r.ReachedIn n c e

/-- A row that steps from component to component lead to, however many they are. -/
abbrev Reached (r : Registry) : Descriptor → Descriptor → Prop := Relation.ReflTransGen r.IsComponent

section Steps

variable {r : Registry} {d e : Descriptor} {m n : Nat}

theorem reachedIn_add : r.ReachedIn (m + n) d e ↔ ∃ c, r.ReachedIn m d c ∧ r.ReachedIn n c e := by
  induction m generalizing d with
  | zero => simp [ReachedIn]
  | succ m ih =>
      rw [Nat.succ_add]
      simp only [ReachedIn, ih]
      constructor
      · rintro ⟨c, hc, b, hb, he⟩
        exact ⟨b, ⟨c, hc, hb⟩, he⟩
      · rintro ⟨b, ⟨c, hc, hb⟩, he⟩
        exact ⟨c, hc, b, hb, he⟩

theorem reachedIn_succ : r.ReachedIn (n + 1) d e ↔ ∃ c, r.ReachedIn n d c ∧ r.IsComponent c e := by
  rw [reachedIn_add]
  simp [ReachedIn]

theorem reached_iff : r.Reached d e ↔ ∃ n, r.ReachedIn n d e := by
  constructor
  · intro h
    induction h with
    | refl => exact ⟨0, rfl⟩
    | tail _ hstep ih =>
        obtain ⟨n, hn⟩ := ih
        exact ⟨n + 1, reachedIn_succ.mpr ⟨_, hn, hstep⟩⟩
  · rintro ⟨n, hn⟩
    induction n generalizing e with
    | zero => exact hn ▸ .refl
    | succ n ih =>
        obtain ⟨c, hc, hstep⟩ := reachedIn_succ.mp hn
        exact (ih hc).tail hstep

theorem ReachedIn.mem (h : r.ReachedIn n d e) (hd : d ∈ r.descriptors) : e ∈ r.descriptors := by
  cases n with
  | zero => exact h ▸ hd
  | succ n =>
      obtain ⟨c, -, hstep⟩ := reachedIn_succ.mp h
      exact hstep.1

/-- A longhand leads nowhere. -/
theorem ReachedIn.of_longhand (h : r.ReachedIn n d e) (hd : d.components = []) : n = 0 ∧ d = e := by
  cases n with
  | zero => exact ⟨rfl, h⟩
  | succ n =>
      obtain ⟨c, hc, -⟩ := h
      rw [IsComponent, hd] at hc
      cases hc.2

end Steps

section Built

variable {specs : List PropertySpec} {r : Registry} {d e : Descriptor}

theorem eq_of_name_eq (h : build specs = .ok r) (hd : d ∈ r.descriptors) (he : e ∈ r.descriptors)
    (hname : d.name = e.name) : d = e := by
  obtain ⟨hnodup, hknown, rfl⟩ := build_eq_ok_iff.mp h
  have hfound : ∀ {f : Descriptor}, f ∈ (ofSpecs specs).descriptors → (ofSpecs specs).find? f.name = some f := by
    intro f hf
    obtain ⟨i, hi⟩ := List.mem_iff_getElem?.mp hf
    exact ((describes_ofSpecs hnodup hknown).found i f hi).2
  rw [← Option.some_inj, ← hfound hd, ← hfound he, hname]

theorem exists_isComponent (h : build specs = .ok r) (hd : d ∈ r.descriptors) {name : String}
    (hname : name ∈ d.components) : ∃ c, r.IsComponent d c ∧ c.name = name := by
  obtain ⟨-, hknown, rfl⟩ := build_eq_ok_iff.mp h
  obtain ⟨spec, hspec, rfl⟩ := List.mem_map.mp hd
  obtain ⟨other, hother, rfl⟩ := List.mem_map.mp (hknown spec hspec hname)
  exact ⟨_, ⟨List.mem_map_of_mem hother, hname⟩, rfl⟩

theorem componentsIn_name (h : build specs = .ok r) (hd : d ∈ r.descriptors) :
    componentsIn specs d.name = d.components := by
  obtain ⟨hnodup, hknown, rfl⟩ := build_eq_ok_iff.mp h
  obtain ⟨i, hi⟩ := List.mem_iff_getElem?.mp hd
  have hfound := ((describes_ofSpecs hnodup hknown).found i d hi).2
  rw [find?, ofSpecs, List.find?_map, Option.map_eq_some_iff] at hfound
  obtain ⟨spec, hspec, rfl⟩ := hfound
  have hsame : specs.find? (·.name == spec.name) = some spec := hspec
  rw [componentsIn]
  simp only [hsame, Option.map_some, Option.getD_some]

/-- What is found by following components: the longhands that fewer steps than that reach, and whatever that many
reach. -/
theorem mem_leavesWithin (h : build specs = .ok r) (hd : d ∈ r.descriptors) {depth : Nat} {name : String} :
    name ∈ leavesWithin specs depth d.name ↔
      ∃ e, e.name = name ∧ ((∃ n < depth, r.ReachedIn n d e ∧ e.components = []) ∨ r.ReachedIn depth d e) := by
  induction depth generalizing d with
  | zero => simp [leavesWithin, ReachedIn, eq_comm]
  | succ depth ih =>
      simp only [leavesWithin, componentsIn_name h hd, List.isEmpty_iff]
      split
      case isTrue hlonghand =>
        rw [List.mem_singleton]
        constructor
        · rintro rfl
          exact ⟨d, rfl, .inl ⟨0, Nat.succ_pos depth, rfl, hlonghand⟩⟩
        · rintro ⟨e, rfl, ⟨n, -, hn, -⟩ | hn⟩
          · rw [(hn.of_longhand hlonghand).2]
          · rw [(hn.of_longhand hlonghand).2]
      case isFalse hshorthand =>
        rw [List.mem_flatMap]
        constructor
        · rintro ⟨component, hcomponent, hname⟩
          obtain ⟨c, hc, rfl⟩ := exists_isComponent h hd hcomponent
          obtain ⟨e, he, ⟨n, hlt, hn, hlonghand⟩ | hn⟩ := (ih hc.1).mp hname
          · exact ⟨e, he, .inl ⟨n + 1, Nat.succ_lt_succ hlt, ⟨c, hc, hn⟩, hlonghand⟩⟩
          · exact ⟨e, he, .inr ⟨c, hc, hn⟩⟩
        · rintro ⟨e, he, ⟨n, hlt, hn, hlonghand⟩ | ⟨c, hc, hn⟩⟩
          · cases n with
            | zero =>
                cases hn
                exact absurd hlonghand hshorthand
            | succ n =>
                obtain ⟨c, hc, hn⟩ := hn
                exact ⟨c.name, hc.2, (ih hc.1).mpr ⟨e, he, .inl ⟨n, Nat.lt_of_succ_lt_succ hlt, hn, hlonghand⟩⟩⟩
          · exact ⟨c.name, hc.2, (ih hc.1).mpr ⟨e, he, .inr hn⟩⟩

theorem leaves_eq (h : build specs = .ok r) (hd : d ∈ r.descriptors) :
    d.leaves = leavesWithin specs maxDepth d.name := by
  obtain ⟨-, -, rfl⟩ := build_eq_ok_iff.mp h
  obtain ⟨spec, -, rfl⟩ := List.mem_map.mp hd
  rfl

/-- A row is among the leaves of another if it is a longhand that fewer than nine steps reach, or if nine steps reach
it. -/
theorem name_mem_leaves_iff (h : build specs = .ok r) (hd : d ∈ r.descriptors) (he : e ∈ r.descriptors) :
    e.name ∈ d.leaves ↔
      (∃ n < maxDepth, r.ReachedIn n d e ∧ e.components = []) ∨ r.ReachedIn maxDepth d e := by
  rw [leaves_eq h hd, mem_leavesWithin h hd]
  constructor
  · rintro ⟨f, hname, hf⟩
    have hmem : f ∈ r.descriptors := by
      rcases hf with ⟨n, -, hn, -⟩ | hn
      · exact hn.mem hd
      · exact hn.mem hd
    rwa [eq_of_name_eq h hmem he hname] at hf
  · intro hf
    exact ⟨e, rfl, hf⟩

/-- All leaves are longhands exactly if the steps down from the row come to an end in time. -/
theorem leaves_longhands_iff (h : build specs = .ok r) (hd : d ∈ r.descriptors) :
    (∀ e ∈ r.descriptors, e.name ∈ d.leaves → e.components = []) ↔ ¬ ∃ e, r.ReachedIn (maxDepth + 1) d e := by
  constructor
  · rintro hall ⟨e, he⟩
    obtain ⟨c, hc, hstep⟩ := reachedIn_succ.mp he
    have hmem := hc.mem hd
    have hlonghand := hall c hmem ((name_mem_leaves_iff h hd hmem).mpr (.inr hc))
    rw [IsComponent, hlonghand] at hstep
    cases hstep.2
  · intro hends e he hleaf
    rcases (name_mem_leaves_iff h hd he).mp hleaf with ⟨n, -, -, hlonghand⟩ | hlast
    · exact hlonghand
    · rw [List.eq_nil_iff_forall_not_mem]
      intro name hname
      obtain ⟨c, hc, -⟩ := exists_isComponent h he hname
      exact hends ⟨c, reachedIn_succ.mpr ⟨e, hlast, hc⟩⟩

end Built

/-- The leaves of a row of a built table: always the longhands that fewer than nine steps reach and all rows that nine
reach. They are longhands, and exactly the longhands below the row, if and only if no ten steps lead down from it. -/
theorem leaves_exact_iff {specs : List PropertySpec} {r : Registry} (h : build specs = .ok r) {d : Descriptor}
    (hd : d ∈ r.descriptors) :
    (∀ name ∈ d.leaves, ∃ e ∈ r.descriptors, e.name = name) ∧
      (∀ e ∈ r.descriptors, e.name ∈ d.leaves ↔
        (∃ n < maxDepth, r.ReachedIn n d e ∧ e.components = []) ∨ r.ReachedIn maxDepth d e) ∧
      ((∀ e ∈ r.descriptors, e.name ∈ d.leaves → e.components = []) ↔ ¬ ∃ e, r.ReachedIn (maxDepth + 1) d e) ∧
      ((∀ e ∈ r.descriptors, e.name ∈ d.leaves ↔ e.components = [] ∧ r.Reached d e) ↔
        ¬ ∃ e, r.ReachedIn (maxDepth + 1) d e) := by
  refine ⟨?described, fun e he => name_mem_leaves_iff h hd he, leaves_longhands_iff h hd, ?exact⟩
  case described =>
    intro name hname
    rw [leaves_eq h hd, mem_leavesWithin h hd] at hname
    obtain ⟨e, he, ⟨n, -, hn, -⟩ | hn⟩ := hname
    · exact ⟨e, hn.mem hd, he⟩
    · exact ⟨e, hn.mem hd, he⟩
  case exact =>
    constructor
    · intro hall
      exact (leaves_longhands_iff h hd).mp fun e he hleaf => ((hall e he).mp hleaf).1
    · intro hends e he
      constructor
      · intro hleaf
        refine ⟨(leaves_longhands_iff h hd).mpr hends e he hleaf, reached_iff.mpr ?_⟩
        rcases (name_mem_leaves_iff h hd he).mp hleaf with ⟨n, -, hn, -⟩ | hn
        · exact ⟨n, hn⟩
        · exact ⟨maxDepth, hn⟩
      · rintro ⟨hlonghand, hreached⟩
        obtain ⟨n, hn⟩ := reached_iff.mp hreached
        -- More than nine steps would begin with ten.
        have hle : n ≤ maxDepth := by
          by_contra hlt
          obtain ⟨more, rfl⟩ := Nat.exists_eq_add_of_le (Nat.lt_of_not_le hlt)
          obtain ⟨c, hc, -⟩ := reachedIn_add.mp hn
          exact hends ⟨c, hc⟩
        rw [name_mem_leaves_iff h hd he]
        rcases Nat.eq_or_lt_of_le hle with rfl | hlt
        · exact .inr hn
        · exact .inl ⟨n, hlt, hn, hlonghand⟩

theorem build_table : build table = .ok builtin := by
  have hnames : builtin.descriptors.map (·.name) = namesOf table := by
    rw [builtin, ofSpecs, List.map_map]
    rfl
  refine build_eq_ok_iff.mpr ⟨hnames ▸ nodup_names, fun spec hspec name hname => ?_, rfl⟩
  obtain ⟨c, hc⟩ := exists_find?_of_mem_components (List.mem_map_of_mem hspec) hname
  obtain ⟨hmem, rfl⟩ := mem_of_find? hc
  exact hnames ▸ List.mem_map_of_mem hmem

theorem isShorthand_of_mem_leaves : ∀ d ∈ builtin.shorthands, ∀ name ∈ d.leaves, builtin.isShorthand name = false := by
  decide +kernel

/-- In the table of all properties the steps end in time, so the leaves are the longhands below. -/
theorem leaves_exact_builtin :
    build table = .ok builtin ∧ ∀ d ∈ builtin.descriptors, ∀ e ∈ builtin.descriptors,
      e.name ∈ d.leaves ↔ e.components = [] ∧ builtin.Reached d e := by
  refine ⟨build_table, fun d hd => ?_⟩
  obtain ⟨-, -, hends, hexact⟩ := leaves_exact_iff build_table hd
  refine hexact.mpr ?_
  by_cases hlonghand : d.components = []
  · rintro ⟨e, he⟩
    cases (he.of_longhand hlonghand).1
  · refine hends.mp fun e he hleaf => ?_
    have hshorthand : d ∈ builtin.shorthands := by
      simpa [shorthands, Descriptor.isShorthand] using ⟨hd, hlonghand⟩
    have hnot := isShorthand_of_mem_leaves d hshorthand e.name hleaf
    rw [isShorthand, find?_of_mem he] at hnot
    simpa [Descriptor.isShorthand] using hnot

/-- The first of ten shorthands, each with the next as its component and the last with a longhand, has the last
shorthand for its leaf. A shorthand that lists itself is its own leaf. -/
theorem leaves_not_longhands :
    let one (name component : String) : PropertySpec := .sides name [component] "0"
    let chain : List PropertySpec :=
      [one "a" "b", one "b" "c", one "c" "d", one "d" "e", one "e" "f", one "f" "g", one "g" "h", one "h" "i",
        one "i" "j", one "j" "k", .longhand "k" .unit "0"]
    (∃ r, build chain = .ok r ∧ ∃ d ∈ r.descriptors, d.name = "a" ∧ d.leaves = ["j"] ∧
        ¬ ∀ e ∈ r.descriptors, e.name ∈ d.leaves → e.components = []) ∧
      ∃ r, build [one "a" "a"] = .ok r ∧ ∃ d ∈ r.descriptors, d.leaves = ["a"] ∧
        ¬ ∀ e ∈ r.descriptors, e.name ∈ d.leaves → e.components = [] := by
  intro one chain
  exact ⟨⟨ofSpecs chain, by decide, by decide⟩, ofSpecs [one "a" "a"], by decide,
    by decide⟩

end Registry

end CssMinify
