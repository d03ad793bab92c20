import CssMinify.Registry
import Mathlib.Data.List.Flatten
import Mathlib.Data.List.Nodup

/-! Building a registry. A table is refused exactly if a name occurs twice in it or a component occurs nowhere, with
the first name that occurs again, or else the first component that is unknown. What is built has its rows in the order
of the table, finds each by its name, and refers back from components to the shorthands that list them, as often as
they do and in the order of the table. -/

namespace CssMinify

namespace Registry

/-- The names of the rows of a table. -/
def namesOf (specs : List PropertySpec) : List String := specs.map (·.name)

/-- The first row with a name that a row before it has has this name. -/
def RepeatsFirst (specs : List PropertySpec) (name : String) : Prop :=
  ∃ before spec after, specs = before ++ spec :: after ∧ (namesOf before).Nodup ∧ spec.name ∈ namesOf before ∧
    spec.name = name

/-- The first row with an unknown component belongs to this shorthand, and this is the first such component of it. -/
def MissesFirst (specs : List PropertySpec) (shorthand component : String) : Prop :=
  ∃ before spec after, specs = before ++ spec :: after ∧ (∀ s ∈ before, s.components ⊆ namesOf specs) ∧
    spec.name = shorthand ∧
      ∃ known more, spec.components = known ++ component :: more ∧ known ⊆ namesOf specs ∧
        component ∉ namesOf specs

section Checks

variable {seen names : List String} {specs : List PropertySpec}

theorem firstDuplicate?_eq_none_iff :
    firstDuplicate? seen specs = none ↔ (namesOf specs).Nodup ∧ ∀ name ∈ namesOf specs, name ∉ seen := by
  induction specs generalizing seen with
  | nil => simp [firstDuplicate?, namesOf]
  | cons spec rest ih =>
      rw [namesOf, List.map_cons, List.nodup_cons, List.forall_mem_cons, firstDuplicate?]
      split
      · next hseen =>
          have hmem : spec.name ∈ seen := by simpa using hseen
          simp [hmem]
      · next hseen =>
          have hmem : spec.name ∉ seen := by simpa using hseen
          rw [ih]
          constructor
          · rintro ⟨hnodup, hrest⟩
            refine ⟨⟨fun hagain => hrest _ hagain List.mem_cons_self, hnodup⟩, hmem, fun name hname hold => ?_⟩
            exact hrest name hname (List.mem_cons_of_mem _ hold)
          · rintro ⟨⟨hagain, hnodup⟩, -, hrest⟩
            refine ⟨hnodup, fun name hname hold => ?_⟩
            rcases List.mem_cons.mp hold with rfl | hold
            · exact hagain hname
            · exact hrest name hname hold

theorem firstDuplicate?_eq_some_iff {name : String} :
    firstDuplicate? seen specs = some name ↔
      ∃ before spec after, specs = before ++ spec :: after ∧ firstDuplicate? seen before = none ∧
        (spec.name ∈ seen ∨ spec.name ∈ namesOf before) ∧ spec.name = name := by
  induction specs generalizing seen with
  | nil => simp [firstDuplicate?]
  | cons spec rest ih =>
      rw [firstDuplicate?]
      split
      · next hseen =>
          have hmem : spec.name ∈ seen := by simpa using hseen
          rw [Option.some_inj]
          constructor
          · rintro rfl
            exact ⟨[], spec, rest, rfl, rfl, .inl hmem, rfl⟩
          · rintro ⟨before, again, after, hsplit, hnone, -, rfl⟩
            cases before with
            | nil => rw [(List.cons.inj hsplit).1]
            | cons first before =>
                rw [firstDuplicate?, ← (List.cons.inj hsplit).1, if_pos hseen] at hnone
                cases hnone
      · next hseen =>
          have hmem : spec.name ∉ seen := by simpa using hseen
          rw [ih]
          constructor
          · rintro ⟨before, again, after, rfl, hnone, hold, rfl⟩
            refine ⟨spec :: before, again, after, rfl, ?_, ?_, rfl⟩
            · rw [firstDuplicate?, if_neg hseen, hnone]
            · rw [List.mem_cons] at hold
              rw [namesOf, List.map_cons, List.mem_cons]
              tauto
          · rintro ⟨before, again, after, hsplit, hnone, hold, rfl⟩
            cases before with
            | nil =>
                obtain rfl := (List.cons.inj hsplit).1
                rcases hold with hold | hold
                · exact absurd hold hmem
                · cases hold
            | cons first before =>
                obtain ⟨rfl, rfl⟩ := List.cons.inj hsplit
                rw [firstDuplicate?, if_neg hseen] at hnone
                refine ⟨before, again, after, rfl, hnone, ?_, rfl⟩
                rw [namesOf, List.map_cons, List.mem_cons] at hold
                rw [List.mem_cons]
                tauto

theorem firstDuplicate?_nil_eq_none_iff : firstDuplicate? [] specs = none ↔ (namesOf specs).Nodup := by
  simp [firstDuplicate?_eq_none_iff]

theorem firstDuplicate?_nil_eq_some_iff {name : String} :
    firstDuplicate? [] specs = some name ↔ RepeatsFirst specs name := by
  simp [firstDuplicate?_eq_some_iff, firstDuplicate?_eq_none_iff, RepeatsFirst]

/-- What is first unknown of a row. -/
def unknownOf? (names : List String) (spec : PropertySpec) : Option (String × String) :=
  (spec.components.find? (!names.contains ·)).map (spec.name, ·)

theorem firstUnknown?_eq_findSome? (names : List String) (specs : List PropertySpec) :
    firstUnknown? names specs = specs.findSome? (unknownOf? names) := by
  induction specs with
  | nil => rfl
  | cons spec rest ih =>
      rw [firstUnknown?, List.findSome?_cons, unknownOf?]
      cases spec.components.find? (!names.contains ·) with
      | some component => rfl
      | none => exact ih

theorem unknownOf?_eq_none_iff {spec : PropertySpec} : unknownOf? names spec = none ↔ spec.components ⊆ names := by
  simp [unknownOf?, List.subset_def]

theorem unknownOf?_eq_some_iff {spec : PropertySpec} {shorthand component : String} :
    unknownOf? names spec = some (shorthand, component) ↔ spec.name = shorthand ∧
      ∃ known more, spec.components = known ++ component :: more ∧ known ⊆ names ∧ component ∉ names := by
  simp only [unknownOf?, Option.map_eq_some_iff, List.find?_eq_some_iff_append, Bool.not_eq_true', Bool.not_not,
    List.contains_iff_mem, Bool.eq_false_iff, ne_eq, Prod.mk.injEq, List.subset_def]
  constructor
  · rintro ⟨c, ⟨hunknown, known, more, hsplit, hknown⟩, hname, rfl⟩
    exact ⟨hname, known, more, hsplit, fun {a} => hknown a, hunknown⟩
  · rintro ⟨hname, known, more, hsplit, hknown, hunknown⟩
    exact ⟨component, ⟨hunknown, known, more, hsplit, fun a => hknown⟩, hname, rfl⟩

theorem firstUnknown?_eq_none_iff :
    firstUnknown? names specs = none ↔ ∀ spec ∈ specs, spec.components ⊆ names := by
  simp only [firstUnknown?_eq_findSome?, List.findSome?_eq_none_iff, unknownOf?_eq_none_iff]

theorem firstUnknown?_namesOf_eq_some_iff {shorthand component : String} :
    firstUnknown? (namesOf specs) specs = some (shorthand, component) ↔ MissesFirst specs shorthand component := by
  simp only [firstUnknown?_eq_findSome?, List.findSome?_eq_some_iff, unknownOf?_eq_none_iff, unknownOf?_eq_some_iff,
    MissesFirst]
  refine exists_congr fun before => exists_congr fun spec => exists_congr fun after => ?_
  tauto

theorem build_eq_duplicate_iff {name : String} :
    build specs = .error (.duplicateDescriptor name) ↔ RepeatsFirst specs name := by
  rw [← firstDuplicate?_nil_eq_some_iff, build]
  cases firstDuplicate? [] specs with
  | some again => simp
  | none => cases firstUnknown? (specs.map PropertySpec.name) specs <;> simp

theorem build_eq_unknown_iff {shorthand component : String} :
    build specs = .error (.unknownComponent shorthand component) ↔
      (namesOf specs).Nodup ∧ MissesFirst specs shorthand component := by
  rw [← firstUnknown?_namesOf_eq_some_iff, ← firstDuplicate?_nil_eq_none_iff, build, namesOf]
  cases firstDuplicate? [] specs with
  | some again => simp
  | none => cases firstUnknown? (specs.map PropertySpec.name) specs <;> simp [Prod.ext_iff]

theorem build_eq_ok_iff {r : Registry} : build specs = .ok r ↔
    (namesOf specs).Nodup ∧ (∀ spec ∈ specs, spec.components ⊆ namesOf specs) ∧ r = ofSpecs specs := by
  rw [← firstUnknown?_eq_none_iff, ← firstDuplicate?_nil_eq_none_iff, build, namesOf]
  cases firstDuplicate? [] specs with
  | some again => simp
  | none => cases firstUnknown? (specs.map PropertySpec.name) specs <;> simp [eq_comm]

end Checks

/-- The number of a row: its place in the table. -/
def number? (r : Registry) (name : String) : Option Nat := r.descriptors.findIdx? (·.name == name)

/-- The numbers of rows that are given by their names. -/
def numbersOf (r : Registry) (names : List String) : List Nat := names.filterMap r.number?

/-- What is built from a table: its rows, each with the number of its place and found by its name, and found under no
other name; every name that a row refers to has a number; and a row refers back to another as often as that one has
it as a component, in the order of the table. -/
structure Describes (r : Registry) (specs : List PropertySpec) : Prop where
  rows : r.descriptors.map (·.toPropertySpec) = specs
  found : ∀ i d, r.descriptors[i]? = some d → r.number? d.name = some i ∧ r.find? d.name = some d
  missing : ∀ name, name ∉ namesOf specs → r.number? name = none ∧ r.find? name = none
  referred : ∀ d ∈ r.descriptors, ∀ name ∈ d.components ++ d.componentOf, (r.number? name).isSome = true
  converse : ∀ i j d e, r.descriptors[i]? = some d → r.descriptors[j]? = some e →
    (r.numbersOf e.componentOf).count i = (r.numbersOf d.components).count j
  ascending : ∀ d ∈ r.descriptors, (r.numbersOf d.componentOf).Pairwise (· ≤ ·)

section Numbers

variable {r : Registry} {names : List String}

theorem number?_eq_some_iff (hnodup : (r.descriptors.map (·.name)).Nodup) {name : String} {i : Nat} :
    r.number? name = some i ↔ ∃ d, r.descriptors[i]? = some d ∧ d.name = name := by
  rw [number?, List.findIdx?_eq_some_iff_getElem]
  constructor
  · rintro ⟨hlt, hname, -⟩
    exact ⟨_, List.getElem?_eq_getElem hlt, by simpa using hname⟩
  · rintro ⟨d, hd, rfl⟩
    obtain ⟨hlt, rfl⟩ := List.getElem?_eq_some_iff.mp hd
    refine ⟨hlt, by simp, fun j hj hsame => ?_⟩
    have hi : i < (r.descriptors.map (·.name)).length := by simpa using hlt
    have hj' : j < (r.descriptors.map (·.name)).length := Nat.lt_trans hj hi
    have hname : (r.descriptors.map (·.name))[j] = (r.descriptors.map (·.name))[i] := by simpa using hsame
    exact Nat.ne_of_lt hj (hnodup.getElem_inj_iff.mp hname)

theorem number?_getElem (hnodup : (r.descriptors.map (·.name)).Nodup) {i : Nat} (hi : i < r.descriptors.length) :
    r.number? r.descriptors[i].name = some i :=
  (number?_eq_some_iff hnodup).mpr ⟨_, List.getElem?_eq_getElem hi, rfl⟩

/-- A row is found at its number. -/
theorem find?_eq_bind (r : Registry) (name : String) : r.find? name = (r.number? name).bind (r.descriptors[·]?) :=
  List.find?_eq_bind_findIdx?_getElem?

theorem number?_isSome_iff {name : String} :
    (r.number? name).isSome = true ↔ name ∈ r.descriptors.map (·.name) := by
  simp [number?, List.findIdx?_isSome]

/-- A number occurs as often as the name of its row. -/
theorem count_numbersOf (hnodup : (r.descriptors.map (·.name)).Nodup) {i : Nat} {d : Descriptor}
    (hd : r.descriptors[i]? = some d) : (r.numbersOf names).count i = names.count d.name := by
  rw [numbersOf, List.count_filterMap, List.count_eq_countP]
  refine List.countP_congr fun name _ => ?_
  rw [beq_iff_eq, beq_iff_eq, number?_eq_some_iff hnodup, hd]
  simp [eq_comm]

end Numbers

section References

variable {specs : List PropertySpec} {name : String}

/-- A row refers back to a shorthand as often as that one lists it. -/
theorem count_parentsIn (hnodup : (namesOf specs).Nodup) {spec : PropertySpec} (hspec : spec ∈ specs) :
    (parentsIn specs name).count spec.name = spec.components.count name := by
  have hone (s : PropertySpec) : ((s.components.filter (· == name)).map fun _ => s.name).count spec.name
      = if s.name = spec.name then s.components.count name else 0 := by
    rw [List.map_const', List.count_replicate, ← List.countP_eq_length_filter, ← List.count_eq_countP]
    simp only [beq_iff_eq]
  induction specs with
  | nil => cases hspec
  | cons s rest ih =>
      rw [namesOf, List.map_cons, List.nodup_cons] at hnodup
      rw [parentsIn, List.flatMap_cons, List.count_append, hone]
      rcases List.mem_cons.mp hspec with rfl | hmem
      · have hnone : spec.name ∉ parentsIn rest name := by
          intro hparent
          obtain ⟨t, ht, hname⟩ := List.mem_flatMap.mp hparent
          obtain ⟨-, -, hname⟩ := List.mem_map.mp hname
          exact hnodup.1 (List.mem_map.mpr ⟨t, ht, hname⟩)
        rw [if_pos rfl, show rest.flatMap _ = parentsIn rest name from rfl, List.count_eq_zero.mpr hnone, Nat.add_zero]
      · have hne : s.name ≠ spec.name := by
          intro hsame
          exact hnodup.1 (hsame ▸ List.mem_map_of_mem hmem)
        rw [if_neg hne, Nat.zero_add]
        exact ih hnodup.2 hmem

theorem mem_namesOf_of_mem_parentsIn {parent : String} (h : parent ∈ parentsIn specs name) :
    parent ∈ namesOf specs := by
  obtain ⟨spec, hspec, hparent⟩ := List.mem_flatMap.mp h
  obtain ⟨-, -, rfl⟩ := List.mem_map.mp hparent
  exact List.mem_map_of_mem hspec

/-- Rows refer back in the order of the table. -/
theorem pairwise_parentsIn {R : String → String → Prop} (hrefl : ∀ name ∈ namesOf specs, R name name)
    (hspecs : (namesOf specs).Pairwise R) : (parentsIn specs name).Pairwise R := by
  rw [parentsIn, List.pairwise_flatMap]
  constructor
  · intro spec hspec
    rw [List.map_const', List.pairwise_replicate]
    exact .inr (hrefl spec.name (List.mem_map_of_mem hspec))
  · refine (List.pairwise_map.mp hspecs).imp fun hR a ha b hb => ?_
    obtain ⟨-, -, rfl⟩ := List.mem_map.mp ha
    obtain ⟨-, -, rfl⟩ := List.mem_map.mp hb
    exact hR

theorem describes_ofSpecs (hnodup : (namesOf specs).Nodup)
    (hknown : ∀ spec ∈ specs, spec.components ⊆ namesOf specs) :
    (ofSpecs specs).Describes specs := by
  have hrows : (ofSpecs specs).descriptors.map (·.toPropertySpec) = specs := by
    rw [ofSpecs, List.map_map]
    exact List.map_id specs
  have hnames : (ofSpecs specs).descriptors.map (·.name) = namesOf specs := by
    conv_rhs => rw [← hrows, namesOf, List.map_map]
    rfl
  have hnodup' : ((ofSpecs specs).descriptors.map (·.name)).Nodup := hnames ▸ hnodup
  have hmem : ∀ d ∈ (ofSpecs specs).descriptors,
      d.toPropertySpec ∈ specs ∧ d.componentOf = parentsIn specs d.name := by
    intro d hd
    obtain ⟨spec, hspec, rfl⟩ := List.mem_map.mp hd
    exact ⟨hspec, rfl⟩
  constructor
  case rows => exact hrows
  case found =>
    intro i d hd
    have hnumber := (number?_eq_some_iff hnodup').mpr ⟨d, hd, rfl⟩
    exact ⟨hnumber, by rw [find?_eq_bind, hnumber, Option.bind_some, hd]⟩
  case missing =>
    intro name hname
    rw [← hnames, ← number?_isSome_iff, Option.not_isSome_iff_eq_none] at hname
    exact ⟨hname, by rw [find?_eq_bind, hname, Option.bind_none]⟩
  case referred =>
    intro d hd name hname
    rw [number?_isSome_iff, hnames]
    rcases List.mem_append.mp hname with hname | hname
    · exact hknown d.toPropertySpec (hmem d hd).1 hname
    · rw [(hmem d hd).2] at hname
      exact mem_namesOf_of_mem_parentsIn hname
  case converse =>
    intro i j d e hd he
    have hd' := hmem d (List.mem_of_getElem? hd)
    rw [count_numbersOf hnodup' hd, count_numbersOf hnodup' he, (hmem e (List.mem_of_getElem? he)).2]
    exact count_parentsIn hnodup hd'.1
  case ascending =>
    intro d hd
    rw [(hmem d hd).2, numbersOf, List.pairwise_filterMap]
    refine pairwise_parentsIn (fun name _ i hi j hj => ?_) ?_
    · rw [hi] at hj
      exact Nat.le_of_eq (Option.some.inj hj)
    · -- Names that stand one before the other have numbers in this order.
      rw [← hnames, List.pairwise_map, List.pairwise_iff_getElem]
      intro i j hi hj hlt k hk l hl
      rw [number?_getElem hnodup' hi, Option.some_inj] at hk
      rw [number?_getElem hnodup' hj, Option.some_inj] at hl
      omega

end References

/-- What building comes to, for every table. -/
theorem build_outcome (specs : List PropertySpec) :
    ((∃ r, build specs = .ok r) ↔
        (namesOf specs).Nodup ∧ ∀ spec ∈ specs, spec.components ⊆ namesOf specs) ∧
      ((∃ name, build specs = .error (.duplicateDescriptor name)) ↔ ¬ (namesOf specs).Nodup) ∧
      (∀ name, build specs = .error (.duplicateDescriptor name) ↔ RepeatsFirst specs name) ∧
      (∀ shorthand component, build specs = .error (.unknownComponent shorthand component) ↔
        (namesOf specs).Nodup ∧ MissesFirst specs shorthand component) ∧
      ∀ r, build specs = .ok r → r.Describes specs := by
  refine ⟨?succeeds, ?repeated, fun _ => build_eq_duplicate_iff, fun _ _ => build_eq_unknown_iff, ?describes⟩
  case succeeds =>
    simp only [build_eq_ok_iff, exists_and_left, exists_eq, and_true]
  case repeated =>
    simp only [build_eq_duplicate_iff, ← firstDuplicate?_nil_eq_some_iff, ← firstDuplicate?_nil_eq_none_iff,
      Option.ne_none_iff_exists']
  case describes =>
    intro r hr
    obtain ⟨hnodup, hknown, rfl⟩ := build_eq_ok_iff.mp hr
    exact describes_ofSpecs hnodup hknown

/-- A shorthand that lists itself and lists a row behind it twice. -/
theorem build_outcome_twice :
    ∃ r, build [.sides "a" ["b", "a", "b"] "0", .longhand "b" .unit "0"] = .ok r ∧
      (r.descriptors.map fun d => (r.numbersOf d.components, r.numbersOf d.componentOf))
        = [([1, 0, 1], [0]), ([], [0, 0])] ∧
      r.Describes [.sides "a" ["b", "a", "b"] "0", .longhand "b" .unit "0"] := by
  obtain ⟨hsucceeds, -, -, -, hdescribes⟩ := build_outcome [.sides "a" ["b", "a", "b"] "0", .longhand "b" .unit "0"]
  obtain ⟨r, hr⟩ := hsucceeds.mpr (by decide)
  obtain ⟨-, -, rfl⟩ := build_eq_ok_iff.mp hr
  exact ⟨_, hr, by decide, hdescribes _ hr⟩

end Registry

end CssMinify
