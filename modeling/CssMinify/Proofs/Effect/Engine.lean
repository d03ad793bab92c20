import CssMinify.Proofs.Effect.Replacing

/-! Engines, given by the values that they understand. An engine honours a declaration only if it understands
all that the declaration sets. Whatever it understands, it understands the values that may replace it. -/

namespace CssMinify

/-- An engine, given by the values that it understands. It understands what may replace something that it
understands. -/
structure Engine (profile : Profile) where
  understands : String → Value → Bool
  closed : ∀ {name : String} {left right : Value}, canOverride profile name left right = true →
    understands name left = true → understands name right = true

namespace Override

variable {profile : Profile} {kind : OverrideKind}

/-- Separators, and tokens that every engine understands. -/
def isPlain (profile : Profile) (kind : OverrideKind) (token : String) : Bool :=
  isSeparator token || Reach.of profile kind token == .universal

theorem isPlain_of_token {left right : String} (h : token profile kind left right = true)
    (hleft : isPlain profile kind left = true) : isPlain profile kind right = true := by
  unfold token at h
  split at h
  · next heq =>
      rw [beq_iff_eq] at heq
      exact heq ▸ hleft
  split at h
  · cases h
  next hseparator =>
  rw [Bool.or_eq_true, not_or, Bool.not_eq_true] at hseparator
  have hreach : Reach.of profile kind left = .universal := by
    simpa [isPlain, hseparator.1] using hleft
  rw [isPlain, Bool.or_eq_true, beq_iff_eq]
  right
  cases hright : Reach.of profile kind right <;> simp [hright, hreach] at h ⊢

theorem isPlain_of_tokens {left right : Value} (h : tokens profile kind left right = true)
    (hleft : left.all (isPlain profile kind) = true) : right.all (isPlain profile kind) = true := by
  unfold tokens at h
  split at h
  · next hlength =>
      rw [beq_iff_eq] at hlength
      induction left generalizing right with
      | nil =>
          cases right with
          | nil => rfl
          | cons r right => cases hlength
      | cons l left ih =>
          cases right with
          | nil => cases hlength
          | cons r right =>
              simp only [List.zip_cons_cons, List.all_cons, Bool.and_eq_true] at h hleft ⊢
              exact ⟨isPlain_of_token h.1 hleft.1, ih hleft.2 (by simpa using hlength) h.2⟩
  · exact h

/-- What every engine understands is replaced only by what every engine understands. -/
theorem isPlain_of_guarded {left right : Value} (h : guarded left right (tokens profile kind left right) = true)
    (hleft : (!left.any Word.isVariable && left.all (isPlain profile kind)) = true) :
    (!right.any Word.isVariable && right.all (isPlain profile kind)) = true := by
  rw [Bool.and_eq_true, Bool.not_eq_true'] at hleft ⊢
  unfold guarded at h
  split at h
  · next heq =>
      rw [beq_iff_eq] at heq
      exact heq ▸ hleft
  rw [hleft.1] at h
  simp only [Bool.false_eq_true, if_false] at h
  split at h
  · cases h
  next hvariable =>
  split at h
  · cases h
  · exact ⟨by simpa using hvariable, isPlain_of_tokens h hleft.2⟩

end Override

/-- An engine that understands nothing but what every engine does, where values are compared token by
token. -/
def Engine.basic (profile : Profile) : Engine profile where
  understands name value :=
    let kind := ((Registry.builtin.find? name).map (·.override)).getD .sameValue
    match kind with
    | .sameValue | .border => true
    | kind => !value.any Word.isVariable && value.all (Override.isPlain profile kind)
  closed := by
    intro name left right
    simp only [canOverride, Override.values]
    cases ((Registry.builtin.find? name).map (·.override)).getD .sameValue with
    | sameValue | border => exact fun _ _ => rfl
    | unit | unitOrKeyword | keyword | color | image | tokens => exact Override.isPlain_of_guarded
namespace Engine

variable {profile : Profile} (engine : Engine profile)

/-- A declaration is honoured if every longhand that it sets is understood, or its whole value if it cannot
be split. -/
def honours (d : Declaration) : Bool :=
  (Property.wrap profile d 0).longhands.all fun (name, value) => engine.understands name value

/-- What the engine reads of the declarations with one hack. -/
def reads (hack : Hack) (d : Declaration) : Bool := d.hack == hack && engine.honours d

end Engine

namespace Property

variable {profile : Profile} {p : Property}

theorem isAnalysed_eq (p : Property) : p.isAnalysed = (p.isShorthand && !p.isOpaque) := by
  rw [isAnalysed, isOpaque]
  cases p.isShorthand <;> rfl

theorem longhands_of_not_isAnalysed (hp : p.isOpaque = false → p.Regular) (h : p.isAnalysed = false) :
    p.longhands = [(p.name, p.value)] := by
  apply longhands_of_components_eq_nil
  by_contra hne
  have hknown := isOpaque_of_components_ne_nil hne
  rw [isAnalysed_eq, hknown, (regular_iff.mp (hp hknown)).2.2 hne] at h
  cases h

/-- Whether a property that is faithful can be split shows in its declaration. -/
theorem Faithful.isOpaque_wrap (hp : Faithful profile p) :
    (wrap profile p.toDeclaration 0).isOpaque = p.isOpaque := by
  obtain ⟨l, hl⟩ := List.exists_mem_of_ne_nil _ (leafNames_ne_nil p)
  have hl' : (wrap profile p.toDeclaration 0).leafNames.contains l = true := by
    rw [leafNames_congr (q := p) (by rw [toDeclaration_wrap])]
    exact List.contains_iff_mem.mpr hl
  have hsettings : (wrap profile p.toDeclaration 0).setting? l = p.setting? l := hp.settings l
  rw [setting?, setting?, hl', List.contains_iff_mem.mpr hl] at hsettings
  cases hwrap : (wrap profile p.toDeclaration 0).isOpaque <;> cases hopen : p.isOpaque
  · rfl
  · simp [hwrap, hopen] at hsettings
  · simp [hwrap, hopen, eq_comm] at hsettings
  · rfl

/-- What holds of all longhands holds of all that is given to them. -/
theorem forall_leaves_iff (hp : p.Regular) (hknown : p.isOpaque = false) {P : String → Value → Prop} :
    (∀ leaf ∈ p.leaves, P leaf.name leaf.value) ↔ ∀ l v, p.setting? l = some (.own v) → P l v := by
  constructor
  · intro h l v hset
    have hmem := (isSome_setting? (fun _ => hp) l).mp (Option.isSome_of_eq_some hset)
    obtain ⟨leaf, hleaf, rfl⟩ := (mem_leafNames_iff hp).mp hmem
    rw [setting?_of_mem_leaves hp hknown hleaf] at hset
    cases hset
    exact h leaf hleaf
  · intro h leaf hleaf
    exact h leaf.name leaf.value (setting?_of_mem_leaves hp hknown hleaf)

theorem Faithful.isAnalysed_wrap (hp : Faithful profile p) :
    (wrap profile p.toDeclaration 0).isAnalysed = p.isAnalysed := by
  rw [isAnalysed_eq, isAnalysed_eq, hp.isOpaque_wrap, isShorthand_wrap]
  rfl

theorem Faithful.isNone_longhandsWithin? (hp : Faithful profile p) (hshort : p.isShorthand = true) :
    (Split.longhandsWithin? profile nesting p.name p.value).isNone = p.isOpaque := by
  have hshort' : Registry.builtin.isShorthand p.toDeclaration.name = true := hshort
  rw [← hp.isOpaque_wrap, (longhands_wrap profile p.toDeclaration 0).2, hshort', Bool.true_and]

end Property

namespace Engine

open Property

variable {profile : Profile} (engine : Engine profile) {p q : Property}

theorem honours_of_not_isAnalysed (hp : Faithful profile p) (h : p.isAnalysed = false) :
    engine.honours p.toDeclaration = engine.understands p.name p.value := by
  rw [← hp.isAnalysed_wrap] at h
  rw [honours, longhands_of_not_isAnalysed regular_wrap h, toDeclaration_wrap]
  exact Bool.and_true _

theorem honours_iff_settings (hp : Faithful profile p) (hknown : p.isOpaque = false) :
    engine.honours p.toDeclaration = true ↔
      ∀ l v, p.setting? l = some (.own v) → engine.understands l v = true := by
  have hknown' : (wrap profile p.toDeclaration 0).isOpaque = false := by rw [hp.isOpaque_wrap, hknown]
  have hsettings (l : String) : (wrap profile p.toDeclaration 0).setting? l = p.setting? l := hp.settings l
  simp only [← hsettings]
  rw [← forall_leaves_iff (regular_wrap hknown') hknown', honours, longhands, List.all_map, List.all_eq_true]
  rfl

theorem honours_iff_leaves (hp : Faithful profile p) (hknown : p.isOpaque = false) :
    engine.honours p.toDeclaration = true ↔
      ∀ leaf ∈ p.leaves, engine.understands leaf.name leaf.value = true := by
  rw [honours_iff_settings engine hp hknown]
  exact (forall_leaves_iff (hp.regular hknown) hknown).symm

/-- What may be replaced longhand by longhand is replaced by something that is understood. -/
theorem understands_of_leavesReplaceable (hp : p.Regular) (hq : q.Regular) (hname : p.name = q.name)
    (hover : leavesReplaceable profile p q = true)
    (h : ∀ leaf ∈ p.leaves, engine.understands leaf.name leaf.value = true) :
    ∀ leaf ∈ q.leaves, engine.understands leaf.name leaf.value = true := by
  intro leaf hleaf
  obtain ⟨before, hbefore, hbname, hover⟩ := exists_of_leavesReplaceable hp hq hname hover hleaf
  have hunderstood := h before hbefore
  rw [hbname] at hunderstood
  exact engine.closed hover hunderstood

end Engine

end CssMinify
