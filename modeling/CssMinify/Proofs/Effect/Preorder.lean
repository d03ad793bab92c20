import CssMinify.Proofs.Codec.LineRoundTrip
import CssMinify.Proofs.Effect.Engine

/-!
Replacing in two steps. What may replace a value that may replace another one may replace that one as well, unless
the first and the last have as many tokens, but with separators in other places: values of one length are compared
token by token, where a separator stands for itself only, while a value of another length need only be understood by
every engine.
-/

namespace CssMinify

theorem forall₂_trans {α : Type} {R : α → α → Prop} {as bs cs : List α} (hR : ∀ {a b c}, R a b → R b c → R a c)
    (hab : List.Forall₂ R as bs) (hbc : List.Forall₂ R bs cs) : List.Forall₂ R as cs := by
  induction hab generalizing cs with
  | nil => exact hbc
  | cons h _ ih =>
      cases hbc with
      | cons h' hbc => exact .cons (hR h h') (ih hbc)

namespace Override

variable {profile : Profile} {kind : OverrideKind}

/-- What the reach of two tokens says about replacing the one by the other, given whether they are the same
function. -/
def permits (left right : Reach) (same : Bool) : Bool :=
  match right with
  | .universal => true
  | .unknown => false
  | .function => (left == .unknown || left == .function) && same
  | .translucent => left != .universal

theorem permits_trans {a b c : Reach} {ab bc ac : Bool} (hab : permits a b ab = true) (hbc : permits b c bc = true)
    (hsame : ab = true → bc = true → ac = true) : permits a c ac = true := by
  revert hab hbc hsame
  cases a <;> cases b <;> cases c <;> cases ab <;> cases bc <;> cases ac <;> decide

theorem sameFunction_iff {a b : String} : sameFunction a b = true ↔
    ∃ f g, Word.functionName? a = some f ∧ Word.functionName? b = some g ∧ Text.lower f = Text.lower g := by
  unfold sameFunction
  cases Word.functionName? a <;> cases Word.functionName? b <;> simp [Text.sameFolded]

theorem sameFunction_trans {a b c : String} (h : sameFunction a b = true) (h' : sameFunction b c = true) :
    sameFunction a c = true := by
  obtain ⟨f, g, hf, hg, hfold⟩ := sameFunction_iff.mp h
  obtain ⟨g', k, hg', hk, hfold'⟩ := sameFunction_iff.mp h'
  cases hg.symm.trans hg'
  exact sameFunction_iff.mpr ⟨f, k, hf, hk, hfold.trans hfold'⟩

theorem token_iff {left right : String} : token profile kind left right = true ↔
    left = right ∨ (isSeparator left = false ∧ isSeparator right = false) ∧
      permits (Reach.of profile kind left) (Reach.of profile kind right) (sameFunction left right) = true := by
  have heq : token profile kind left right = (left == right || !(isSeparator left || isSeparator right) &&
      permits (Reach.of profile kind left) (Reach.of profile kind right) (sameFunction left right)) := by
    unfold token permits
    cases left == right <;> cases isSeparator left || isSeparator right <;> rfl
  rw [heq]
  simp [Bool.or_eq_true, and_assoc]

theorem token_trans {a b c : String} (hab : token profile kind a b = true) (hbc : token profile kind b c = true) :
    token profile kind a c = true := by
  rcases token_iff.mp hab with rfl | ⟨⟨ha, hb⟩, hpermits⟩
  · exact hbc
  rcases token_iff.mp hbc with rfl | ⟨⟨-, hc⟩, hpermits'⟩
  · exact hab
  exact token_iff.mpr (.inr ⟨⟨ha, hc⟩, permits_trans hpermits hpermits' sameFunction_trans⟩)

/-- Values of one length with their separators in the same places. -/
def Aligned (left right : Value) : Prop :=
  left.length = right.length →
    List.Forall₂ (fun l r => l = r ∨ isSeparator l = false ∧ isSeparator r = false) left right

theorem aligned_refl (value : Value) : Aligned value value :=
  fun _ => List.forall₂_same.mpr fun _ _ => .inl rfl

theorem tokens_iff {left right : Value} : tokens profile kind left right = true ↔
    (left.length = right.length → List.Forall₂ (fun l r => token profile kind l r = true) left right) ∧
      (left.length ≠ right.length → right.all (isPlain profile kind) = true) := by
  rw [tokens]
  split
  · next hlength =>
      rw [beq_iff_eq] at hlength
      simp [List.forall₂_iff_zip, hlength]
  · next hlength =>
      rw [beq_iff_eq] at hlength
      simp only [hlength, false_implies, true_and, ne_eq, not_false_eq_true, true_implies]
      rfl

theorem aligned_of_tokens {left right : Value} (h : tokens profile kind left right = true) : Aligned left right := by
  intro hlength
  exact ((tokens_iff.mp h).1 hlength).imp fun _ _ htoken => (token_iff.mp htoken).imp_right And.left

/-- A token that every engine understands replaces everything but a separator. -/
theorem token_of_isPlain {left right : String} (hright : isPlain profile kind right = true)
    (h : left = right ∨ isSeparator left = false ∧ isSeparator right = false) :
    token profile kind left right = true := by
  refine token_iff.mpr (h.imp_right fun hseparator => ⟨hseparator, ?_⟩)
  rw [isPlain, hseparator.2, Bool.false_or, beq_iff_eq] at hright
  rw [hright]
  rfl

theorem tokens_trans {a b c : Value} (hab : tokens profile kind a b = true) (hbc : tokens profile kind b c = true)
    (haligned : Aligned a c) : tokens profile kind a c = true := by
  have hplain (hlength : a.length ≠ c.length ∨ a.length ≠ b.length) : c.all (isPlain profile kind) = true := by
    by_cases hsame : b.length = c.length
    · refine isPlain_of_tokens hbc ((tokens_iff.mp hab).2 ?_)
      rw [hsame] at hlength ⊢
      exact hlength.elim id id
    · exact (tokens_iff.mp hbc).2 hsame
  refine tokens_iff.mpr ⟨fun hlength => ?_, fun hlength => hplain (.inl hlength)⟩
  by_cases hsame : a.length = b.length
  · exact forall₂_trans token_trans ((tokens_iff.mp hab).1 hsame) ((tokens_iff.mp hbc).1 (hsame.symm.trans hlength))
  · have hall := List.all_eq_true.mp (hplain (.inr hsame))
    refine List.forall₂_iff_zip.mpr ⟨hlength, fun {l r} hmem => ?_⟩
    exact token_of_isPlain (hall r (List.of_mem_zip hmem).2) ((List.forall₂_iff_zip.mp (haligned hlength)).2 hmem)

section Guarded

variable {a b c : Value}

theorem guarded_iff {left right : Value} {otherwise : Bool} : guarded left right otherwise = true ↔
    left = right ∨ left.any Word.isVariable = true ∨
      right.any Word.isVariable = false ∧ vendors left = vendors right ∧ otherwise = true := by
  have heq : guarded left right otherwise = (left == right || left.any Word.isVariable
      || (!right.any Word.isVariable && (vendors left == vendors right && otherwise))) := by
    unfold guarded bne
    cases left == right <;> cases left.any Word.isVariable <;> cases right.any Word.isVariable <;>
      cases vendors left == vendors right <;> rfl
  rw [heq]
  simp [or_assoc]

/-- What the guard adds is kept in two steps. -/
theorem guarded_trans (otherwise : Value → Value → Bool) (hab : guarded a b (otherwise a b) = true)
    (hbc : guarded b c (otherwise b c) = true) (h : otherwise a b = true → otherwise b c = true → otherwise a c = true) :
    guarded a c (otherwise a c) = true := by
  rcases guarded_iff.mp hab with rfl | hvariable | ⟨hstatic, hvendors, hab'⟩
  · exact hbc
  · exact guarded_iff.mpr (.inr (.inl hvariable))
  rcases guarded_iff.mp hbc with rfl | hvariable | ⟨hstatic', hvendors', hbc'⟩
  · exact hab
  · rw [hstatic] at hvariable
    cases hvariable
  · exact guarded_iff.mpr (.inr (.inr ⟨hstatic', hvendors.trans hvendors', h hab' hbc'⟩))

theorem guarded_tokens_trans (hab : guarded a b (tokens profile kind a b) = true)
    (hbc : guarded b c (tokens profile kind b c) = true) (haligned : Aligned a c) :
    guarded a c (tokens profile kind a c) = true :=
  guarded_trans (tokens profile kind) hab hbc fun hab hbc => tokens_trans hab hbc haligned

end Guarded

section Lines

open Property

/-- A border that can be split has no separators, and three parts of one token each. -/
theorem exists_parts_of_border {value : Value} (h : (wrap profile { name := "border", value } 0).components ≠ []) :
    (∀ t ∈ value, isSeparator t = false) ∧ ∃ width style color : String,
      (∀ t ∈ [width, style, color], isSeparator t = false) ∧
        (wrap profile { name := "border", value } 0).components.map (·.value) = [[width], [style], [color]] := by
  have hname : "border" ∈ Registry.lines.map Prod.fst := by decide
  have hshort : Registry.builtin.isShorthand "border" = true := by decide
  have hanalysed : (wrap profile { name := "border", value } 0).isAnalysed = true := by
    rw [isAnalysed, isShorthand_wrap, hshort, Bool.true_and, Bool.not_eq_true', List.isEmpty_eq_false_iff]
    exact h
  obtain ⟨row, names, values, hinto⟩ := exists_lineInto hname hanalysed
  obtain ⟨line, hread, htokens, -⟩ := hinto.exists_read?
  refine ⟨fun t ht => (htokens t ((Split.Line.perm_tokens_of_read? hread).mem_iff.mpr ht)).2, ?_⟩
  have hlength : values.length = 3 := by
    rw [hinto.length_values]
    rcases hinto.line.order with ⟨-, hnames, -⟩ | ⟨-, hnames, -⟩ <;> rw [hnames] <;> rfl
  have hsingle := Split.single_of_values? hinto.line hinto.split
  rw [hinto.map_value_components]
  obtain ⟨width, style, color, rfl⟩ := List.length_eq_three.mp hlength
  simp only [List.forall_mem_cons] at hsingle
  obtain ⟨⟨width, rfl, hwidth, -⟩, ⟨style, rfl, hstyle, -⟩, ⟨color, rfl, hcolor, -⟩, -⟩ := hsingle
  exact ⟨width, style, color, by simp [hwidth, hstyle, hcolor], rfl⟩

theorem lines_iff {left right : Value} : lines profile left right = true ↔
    ((wrap profile { name := "border", value := left } 0).components ≠ [] ∧
      (wrap profile { name := "border", value := right } 0).components ≠ []) ∧
    ((((wrap profile { name := "border", value := left } 0).components.map (·.value)).zip
      ((wrap profile { name := "border", value := right } 0).components.map (·.value))).zip lineKinds).all
        (fun ((l, r), kind) => guarded l r (tokens profile kind l r)) = true := by
  rw [lines, List.zip_map, List.zip_map_left, List.all_map]
  simp only [Bool.and_eq_true, Bool.not_eq_true', List.isEmpty_eq_false_iff]
  rfl

theorem aligned_of_lines {left right : Value} (h : lines profile left right = true) : Aligned left right := by
  obtain ⟨⟨hleft, hright⟩, -⟩ := lines_iff.mp h
  refine fun hlength => List.forall₂_iff_zip.mpr ⟨hlength, fun hmem => .inr ?_⟩
  exact ⟨(exists_parts_of_border hleft).1 _ (List.of_mem_zip hmem).1,
    (exists_parts_of_border hright).1 _ (List.of_mem_zip hmem).2⟩

theorem aligned_singletons {left right : String} (hleft : isSeparator left = false)
    (hright : isSeparator right = false) : Aligned [left] [right] :=
  fun _ => .cons (.inr ⟨hleft, hright⟩) .nil

theorem lines_trans {a b c : Value} (hab : lines profile a b = true) (hbc : lines profile b c = true) :
    lines profile a c = true := by
  rw [lines_iff] at hab hbc ⊢
  obtain ⟨⟨ha, hb⟩, hab⟩ := hab
  obtain ⟨⟨-, hc⟩, hbc⟩ := hbc
  refine ⟨⟨ha, hc⟩, ?_⟩
  obtain ⟨-, width, style, color, hseparator, hparts⟩ := exists_parts_of_border ha
  obtain ⟨-, width', style', color', -, hparts'⟩ := exists_parts_of_border hb
  obtain ⟨-, width'', style'', color'', hseparator'', hparts''⟩ := exists_parts_of_border hc
  rw [hparts, hparts'] at hab
  rw [hparts', hparts''] at hbc
  rw [hparts, hparts'']
  simp only [lineKinds, List.zip_cons_cons, List.zip_nil_left, List.all_cons, List.all_nil, Bool.and_true,
    Bool.and_eq_true, List.forall_mem_cons] at hab hbc hseparator hseparator'' ⊢
  exact ⟨guarded_tokens_trans hab.1 hbc.1 (aligned_singletons hseparator.1 hseparator''.1),
    guarded_tokens_trans hab.2.1 hbc.2.1 (aligned_singletons hseparator.2.1 hseparator''.2.1),
    guarded_tokens_trans hab.2.2 hbc.2.2 (aligned_singletons hseparator.2.2.1 hseparator''.2.2.1)⟩

end Lines

theorem aligned_of_guarded {left right : Value} {otherwise : Bool} (h : guarded left right otherwise = true)
    (hotherwise : otherwise = true → Aligned left right) : left.any Word.isVariable = true ∨ Aligned left right := by
  rcases guarded_iff.mp h with rfl | hvariable | ⟨-, -, h⟩
  · exact .inr (aligned_refl left)
  · exact .inl hvariable
  · exact .inr (hotherwise h)

theorem aligned_of_values {left right : Value} (h : values profile kind left right = true) :
    left.any Word.isVariable = true ∨ Aligned left right := by
  cases kind with
  | sameValue => exact aligned_of_guarded h fun h => nomatch h
  | border => exact aligned_of_guarded h aligned_of_lines
  | unit | unitOrKeyword | keyword | color | image | tokens => exact aligned_of_guarded h aligned_of_tokens

/-- Replacing in two steps, and in one. -/
theorem values_trans_iff {a b c : Value} (hab : values profile kind a b = true) (hbc : values profile kind b c = true) :
    values profile kind a c = true ↔ a.any Word.isVariable = true ∨ Aligned a c := by
  refine ⟨aligned_of_values, fun h => ?_⟩
  rcases h with hvariable | haligned
  · exact guarded_iff.mpr (.inr (.inl hvariable))
  cases kind with
  | sameValue => exact guarded_trans (fun _ _ => false) hab hbc fun h => nomatch h
  | border => exact guarded_trans (lines profile) hab hbc lines_trans
  | unit | unitOrKeyword | keyword | color | image | tokens => exact guarded_tokens_trans hab hbc haligned

end Override

/-- A value may replace itself, and what may replace it in two steps may replace it in one, if no separators are in
the way. -/
theorem canOverride_trans_iff (profile : Profile) (name : String) :
    (∀ value, canOverride profile name value value = true) ∧
      ∀ {a b c : Value}, canOverride profile name a b = true → canOverride profile name b c = true →
        (canOverride profile name a c = true ↔ a.any Word.isVariable = true ∨ Override.Aligned a c) :=
  ⟨fun _ => Override.guarded_iff.mpr (.inl rfl), Override.values_trans_iff⟩

/-- Over a value of another length. -/
theorem canOverride_trans_iff_positions :
    canOverride Profile.modern "background-position" ["left", "0", "top"] ["0"] = true ∧
      canOverride Profile.modern "background-position" ["0"] ["right", "0", "1px"] = true ∧
      canOverride Profile.modern "background-position" ["left", "0", "top"] ["right", "0", "1px"] = true := by
  have hshorter : canOverride Profile.modern "background-position" ["left", "0", "top"] ["0"] = true := by
    decide +kernel
  have hlonger : canOverride Profile.modern "background-position" ["0"] ["right", "0", "1px"] = true := by
    decide +kernel
  refine ⟨hshorter, hlonger, ((canOverride_trans_iff _ _).2 hshorter hlonger).mpr (.inr fun _ => ?_)⟩
  exact .cons (.inr (by decide)) (.cons (.inl rfl) (.cons (.inr (by decide)) .nil))

/-- Two layers have a separator where the one layer before has a token, though every engine understands them. -/
theorem canOverride_not_trans :
    canOverride Profile.modern "background-position" ["left", "0", "top"] ["0"] = true ∧
      canOverride Profile.modern "background-position" ["0"] ["0", ",", "0"] = true ∧
      canOverride Profile.modern "background-position" ["left", "0", "top"] ["0", ",", "0"] = false := by
  decide +kernel

end CssMinify
