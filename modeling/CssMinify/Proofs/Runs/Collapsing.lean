import CssMinify.Proofs.Runs.Repeats
import CssMinify.Proofs.Size.Bodies

/-! What collapsing does to one declaration: four sides are put into their shortest form, which depends on what the
declaration says and not on where it stands, and is as short as it gets. -/

namespace CssMinify

namespace Property

section Sides

variable {profile : Profile} {d d' : Declaration} {row : Descriptor} {values : List Value}

/-- The value that four sides are put together to depends on what they are split into only. -/
theorem SplitInto.restore?_congr (h : SplitInto profile d row values) (h' : SplitInto profile d' row values)
    (hkind : row.restore = some .fourValues) (i j : Nat) :
    (wrap profile d i).restore? = (wrap profile d' j).restore? := by
  have hshared : Restore.sharedGlobal? (wrap profile d i).leaves = Restore.sharedGlobal? (wrap profile d' j).leaves := by
    refine Option.ext fun value => ?_
    rw [h.sharedGlobal?_leaves, h'.sharedGlobal?_leaves]
  have hsides : restoreAs? row (longhandComponents d i row.components values) .fourValues
      = restoreAs? row (longhandComponents d' j row.components values) .fourValues := by
    rw [restoreAs?, restoreAs?, longhandComponents, longhandComponents]
    generalize row.components.zip values = parts
    rcases parts with - | ⟨a, - | ⟨b, - | ⟨c, - | ⟨e, - | ⟨f, parts⟩⟩⟩⟩⟩ <;> rfl
  rw [h.restore?_eq hkind, h'.restore?_eq hkind, hshared, h.any_isGlobal_leaves, h'.any_isGlobal_leaves, h.components,
    h'.components, hsides]

/-- Four sides that have a form with fewer tokens. -/
structure Collapses (profile : Profile) (d : Declaration) (value : Value) : Prop where
  hack : d.hack = .none
  plain : d.value.isLayered = false
  split : ∃ row values, SplitInto profile d row values ∧ row.restore = some .fourValues
  restored : (wrap profile d 0).restore? = some value
  shorter : value.length < d.value.length

theorem Collapses.congr {value : Value} (h : Collapses profile d value) (hname : d'.name = d.name)
    (hvalue : d'.value = d.value) (hhack : d'.hack = d.hack) : Collapses profile d' value := by
  obtain ⟨row, values, hinto, hkind⟩ := h.split
  have hinto' : SplitInto profile d' row values :=
    ⟨hname ▸ hinto.described, hinto.paired, hinto.composed, hvalue ▸ hinto.static, hvalue ▸ hinto.split⟩
  exact ⟨hhack.trans h.hack, hvalue ▸ h.plain, ⟨row, values, hinto', hkind⟩,
    (hinto'.restore?_congr hinto hkind 0 0).trans h.restored, hvalue ▸ h.shorter⟩

theorem Collapses.unique {value value' : Value} (h : Collapses profile d value) (h' : Collapses profile d value') :
    value = value' :=
  Option.some.inj (h.restored.symm.trans h'.restored)

/-- What was collapsed does not collapse again. -/
theorem Collapses.not_again {value : Value} (h : Collapses profile d value) (again : Value) :
    ¬ Collapses profile { d with value } again := by
  intro h'
  obtain ⟨row, values, hinto, hkind⟩ := h.split
  have hrestored := (hinto.again_of_restore? h.restored).restore?_congr hinto hkind 0 0
  rw [h'.restored, h.restored, Option.some.injEq] at hrestored
  have hshorter := h'.shorter
  rw [hrestored] at hshorter
  exact Nat.lt_irrefl _ hshorter

/-- Collapsing a property that was split puts four sides into their shortest form, wherever they stand. -/
theorem collapse_wrap_cases (profile : Profile) (d : Declaration) (position : Nat) :
    (∀ value, ¬ Collapses profile d value) ∧ ((wrap profile d position).collapse profile).toDeclaration = d ∨
      ∃ value, Collapses profile d value ∧
        ((wrap profile d position).collapse profile).toDeclaration = { d with value } := by
  have hlayered : (wrap profile d position).layered = d.value.isLayered := by
    rw [wrap]
    split <;> rfl
  rw [collapse]
  simp only [unused_wrap, toDeclaration_wrap, hlayered, descriptor?]
  split
  · next hguard =>
      refine .inl ⟨fun value h => ?_, toDeclaration_wrap profile d position⟩
      obtain ⟨row, values, hinto, hkind⟩ := h.split
      simp [hinto.described, hkind, h.hack, h.plain, hinto.isAnalysed] at hguard
  next hguard =>
  simp only [Bool.false_or, Bool.or_eq_true, Bool.not_eq_true', not_or, Bool.not_eq_false, bne_iff_ne, ne_eq,
    not_not, Bool.not_eq_true] at hguard
  obtain ⟨⟨⟨hfour, hhack⟩, hplain⟩, hanalysed⟩ := hguard
  obtain ⟨row, values, hinto, hkind, -⟩ := exists_splitInto_fourValues hfour hanalysed
  have hhere := hinto.restore?_congr hinto hkind position 0
  cases hrestore : (wrap profile d position).restore? with
  | none =>
      refine .inl ⟨fun value h => ?_, toDeclaration_wrap profile d position⟩
      rw [hhere, h.restored] at hrestore
      cases hrestore
  | some value =>
      have hverifies := hinto.verifies position (hinto.again_of_restore? hrestore)
      simp only [hverifies, Bool.and_true, decide_eq_true_eq]
      split
      · next hshorter =>
          exact .inr ⟨value, ⟨hhack, hplain, ⟨row, values, hinto, hkind⟩, hhere ▸ hrestore, hshorter⟩, rfl⟩
      · next hnot =>
          refine .inl ⟨fun value' h => ?_, toDeclaration_wrap profile d position⟩
          rw [hhere, h.restored, Option.some.injEq] at hrestore
          exact hnot (hrestore ▸ h.shorter)

end Sides

end Property

namespace Declaration

variable {profile : Profile} {d d' : Declaration}

/-- The declaration with four sides in their shortest form. -/
def collapse (profile : Profile) (d : Declaration) : Declaration :=
  ((Property.wrap profile d 0).collapse profile).toDeclaration

theorem collapse_cases (profile : Profile) (d : Declaration) :
    (∀ value, ¬ Property.Collapses profile d value) ∧ d.collapse profile = d ∨
      ∃ value, Property.Collapses profile d value ∧ d.collapse profile = { d with value } :=
  Property.collapse_wrap_cases profile d 0

theorem collapse_wrap (profile : Profile) (d : Declaration) (position : Nat) :
    ((Property.wrap profile d position).collapse profile).toDeclaration = d.collapse profile := by
  rcases Property.collapse_wrap_cases profile d position with ⟨hnone, hsame⟩ | ⟨value, hvalue, hcollapse⟩ <;>
    rcases d.collapse_cases profile with ⟨hnone', hsame'⟩ | ⟨value', hvalue', hcollapse'⟩
  · rw [hsame, hsame']
  · exact absurd hvalue' (hnone value')
  · exact absurd hvalue (hnone' value)
  · rw [hcollapse, hcollapse', hvalue.unique hvalue']

theorem collapse_collapse (profile : Profile) (d : Declaration) :
    (d.collapse profile).collapse profile = d.collapse profile := by
  rcases d.collapse_cases profile with ⟨-, hsame⟩ | ⟨value, hvalue, hcollapse⟩
  · rw [hsame, hsame]
  · rw [hcollapse]
    rcases ({ d with value } : Declaration).collapse_cases profile with ⟨-, hsame⟩ | ⟨again, hagain, -⟩
    · exact hsame
    · exact absurd hagain (hvalue.not_again again)

/-- What repeats a declaration repeats it in its shortest form too. -/
theorem Repeats.collapse (h : d'.Repeats d) : (d'.collapse profile).Repeats (d.collapse profile) := by
  obtain ⟨hname, hvalue, hhack, himportant⟩ := h
  rcases d.collapse_cases profile with ⟨hnone, hsame⟩ | ⟨value, hcollapses, hcollapse⟩ <;>
    rcases d'.collapse_cases profile with ⟨hnone', hsame'⟩ | ⟨value', hcollapses', hcollapse'⟩
  · rw [hsame, hsame']
    exact ⟨hname, hvalue, hhack, himportant⟩
  · exact absurd (hcollapses'.congr hname hvalue hhack) (hnone value')
  · exact absurd (hcollapses.congr hname.symm hvalue.symm hhack.symm) (hnone' value)
  · have hagree := hcollapses.unique (hcollapses'.congr hname hvalue hhack)
    rw [hcollapse, hcollapse']
    exact ⟨hname, hagree, hhack, himportant⟩

end Declaration

end CssMinify
