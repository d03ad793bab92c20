import CssMinify.Profile.Parser
import Mathlib.Data.List.TakeDrop
import Mathlib.Data.List.TakeWhile
import Mathlib.Logic.Relation

/-! Profile strings. What stands between commas is trimmed, and empty parts do not count. A first part without a sign
names the preset; each of the others switches one flag, and the last one that names a flag decides on it. The first
part that cannot be read is the one that is reported. -/

namespace CssMinify

namespace Text

variable {c : Char} {s before after : String}

theorem cutAtFirst?_eq_some_iff : cutAtFirst? c s = some (before, after) ↔
    s = before ++ String.singleton c ++ after ∧ c ∉ before.toList := by
  rw [cutAtFirst?, List.span_eq_takeWhile_dropWhile, ← String.toList_inj]
  simp only [String.toList_append, String.toList_singleton, List.append_assoc, List.singleton_append]
  constructor
  · intro h
    split at h
    · cases h
    · next d rest hspan =>
        obtain ⟨rfl, hdrop⟩ := Prod.mk.inj hspan
        cases h
        have hstop := List.head?_dropWhile_not (· != c) s.toList
        rw [hdrop] at hstop
        have hd : d = c := by simpa using hstop
        subst hd
        rw [String.toList_ofList, String.toList_ofList, ← hdrop, List.takeWhile_append_dropWhile]
        refine ⟨rfl, fun hmem => ?_⟩
        simpa using List.mem_takeWhile_imp hmem
  · rintro ⟨hs, hfree⟩
    have hbefore : ∀ x ∈ before.toList, (x != c) = true := by
      intro x hx
      rw [bne_iff_ne]
      rintro rfl
      exact hfree hx
    rw [hs, List.takeWhile_append_of_pos hbefore, List.dropWhile_append_of_pos hbefore]
    simp

theorem cutAtFirst?_eq_none_iff : cutAtFirst? c s = none ↔ c ∉ s.toList := by
  rw [cutAtFirst?, List.span_eq_takeWhile_dropWhile]
  constructor
  · intro h hmem
    split at h
    · next hspan =>
        have hall := List.dropWhile_eq_nil_iff.mp (Prod.mk.inj hspan).2
        simpa using hall c hmem
    · cases h
  · intro hfree
    have hnil : s.toList.dropWhile (· != c) = [] := by
      rw [List.dropWhile_eq_nil_iff]
      intro x hx
      rw [bne_iff_ne]
      rintro rfl
      exact hfree hx
    rw [hnil]

theorem toList_joined_splitWhere (c : Char) (l : List Char) :
    (joined (String.singleton c) ((splitWhere (· == c) l).map String.ofList)).toList = l := by
  induction l with
  | nil => rfl
  | cons a l ih =>
      rw [splitWhere]
      obtain ⟨piece, pieces, hpieces⟩ := List.exists_cons_of_ne_nil (splitWhere_ne_nil (· == c) l)
      rw [hpieces] at ih ⊢
      split
      · next ha =>
          have hc : a = c := by simpa using ha
          rw [List.map_cons, List.map_cons, joined, ← List.map_cons, String.toList_append, ih, hc]
          simp
      · cases pieces <;> simp_all [joined]

theorem not_mem_of_mem_splitWhere {l piece : List Char} (h : piece ∈ splitWhere (· == c) l) : c ∉ piece := by
  induction l generalizing piece with
  | nil =>
      obtain rfl := List.mem_singleton.mp h
      exact List.not_mem_nil
  | cons a l ih =>
      rw [splitWhere] at h
      obtain ⟨first, pieces, hpieces⟩ := List.exists_cons_of_ne_nil (splitWhere_ne_nil (· == c) l)
      rw [hpieces] at ih h
      split at h
      · rcases List.mem_cons.mp h with rfl | h
        · exact List.not_mem_nil
        · exact ih h
      · next ha =>
          rcases List.mem_cons.mp h with rfl | h
          · rw [List.mem_cons, not_or]
            exact ⟨fun hc => ha (beq_iff_eq.mpr hc.symm), ih List.mem_cons_self⟩
          · exact ih (List.mem_cons_of_mem first h)

end Text

namespace Flag

/-- The group that a flag belongs to. -/
def group : Flag → String
  | opacity => "colors"
  | backgroundClipMerging | backgroundOriginMerging | backgroundSizeMerging | colors | merging | zeroUnits =>
    "properties"
  | multiplePseudoMerging => "selectors"
  | ch | inch | pc | pt | rem | vh | vm | vmax | vmin => "units"

/-- The name of a flag in lower case, without underscores and hyphens. -/
def key : Flag → String
  | opacity => "opacity"
  | backgroundClipMerging => "backgroundclipmerging"
  | backgroundOriginMerging => "backgroundoriginmerging"
  | backgroundSizeMerging => "backgroundsizemerging"
  | colors => "colors"
  | merging => "merging"
  | zeroUnits => "zerounits"
  | multiplePseudoMerging => "multiplepseudomerging"
  | ch => "ch"
  | inch => "in"
  | pc => "pc"
  | pt => "pt"
  | rem => "rem"
  | vh => "vh"
  | vm => "vm"
  | vmax => "vmax"
  | vmin => "vmin"

/-- What counts of a name: neither underscores nor hyphens, nor the case of its letters. -/
def folded (name : String) : String := Text.lower (String.ofList (name.toList.filter fun c => c != '_' && c != '-'))

set_option linter.auxLemma false in
theorem ofPath?_eq_some_iff {path name : String} {flag : Flag} :
    ofPath? path name = some flag ↔ path = flag.group ∧ folded name = flag.key := by
  constructor
  · intro h
    -- One split over all the flags is slow: the group comes first, and then the names one by one.
    unfold ofPath? ofPath?.match_1 at h
    rw [folded]
    generalize Text.lower _ = key at h ⊢
    by_cases hgroup : path ∈ ["colors", "properties", "selectors", "units"]
    · simp only [List.mem_cons, List.not_mem_nil, or_false] at hgroup
      rcases hgroup with rfl | rfl | rfl | rfl
      all_goals
        simp only [String.reduceEq, reduceDIte] at h
        repeat
          rw [dite_eq_iff] at h
          rcases h with ⟨rfl, hflag⟩ | ⟨-, h⟩
          · cases hflag
            exact ⟨rfl, rfl⟩
        cases h
    · simp only [List.mem_cons, List.not_mem_nil, or_false, not_or] at hgroup
      obtain ⟨hcolors, hproperties, hselectors, hunits⟩ := hgroup
      rw [dif_neg hcolors, dif_neg hproperties, dif_neg hselectors, dif_neg hunits] at h
      cases h
  · rintro ⟨rfl, hkey⟩
    rw [folded] at hkey
    unfold ofPath?
    rw [hkey]
    cases flag <;> rfl

theorem not_mem_group (flag : Flag) : '.' ∉ flag.group.toList := by
  cases flag <;> decide

end Flag

namespace Toggle

/-- How a toggle starts. -/
def sign (on : Bool) : String := if on then "+" else "-"

/-- A part that starts with a sign. -/
def HasSign (part : String) : Prop := ∃ on path, part = sign on ++ path

/-- A part that names a flag and what it is switched to: a sign, the group, a dot and the name in any spelling. -/
def Writes (part : String) (t : Toggle) : Prop :=
  ∃ name, part = sign t.on ++ (t.flag.group ++ "." ++ name) ∧ Flag.folded name = t.flag.key

/-- A part with a sign and then a path, which has a dot in it. -/
def HasPath (part path : String) : Prop := (∃ on, part = sign on ++ path) ∧ '.' ∈ path.toList

/-- What is wrong with a part: the sign or the dot is missing, or else the path names no flag. -/
def Faults (part : String) : ProfileError → Prop
  | .unknownPreset _ => False
  | .malformedToggle text => text = part ∧ ¬ ∃ path, HasPath part path
  | .unknownFlag path => HasPath part path ∧ ¬ ∃ t, Writes part t

variable {part path : String} {on : Bool}

theorem toList_sign (on : Bool) : (sign on).toList = [if on then '+' else '-'] := by
  cases on <;> rfl

theorem readSign?_eq_some_iff : readSign? part = some (on, path) ↔ part = sign on ++ path := by
  rw [readSign?, ← String.toList_inj, String.toList_append, toList_sign, List.singleton_append]
  constructor
  · intro h
    split at h
    · next rest hpart =>
        cases h
        rw [hpart, String.toList_ofList]
        rfl
    · next rest hpart =>
        cases h
        rw [hpart, String.toList_ofList]
        rfl
    · cases h
  · intro h
    rw [h]
    cases on <;> simp

theorem readSign?_eq_none_iff : readSign? part = none ↔ ¬ HasSign part := by
  rw [Option.eq_none_iff_forall_ne_some]
  simp only [HasSign, ne_eq, Prod.forall, readSign?_eq_some_iff, not_exists]

theorem sign_append_inj {on' : Bool} {path' : String} (h : sign on ++ path = sign on' ++ path') :
    on = on' ∧ path = path' := by
  have hread := readSign?_eq_some_iff.mpr h
  rw [readSign?_eq_some_iff.mpr rfl] at hread
  exact Prod.mk.inj (Option.some.inj hread)

theorem parse_eq_ok_iff {t : Toggle} : parse part = .ok t ↔ Writes part t := by
  have hdot : String.singleton '.' = "." := rfl
  constructor
  · intro h
    rw [parse] at h
    split at h
    · cases h
    next on path hsign =>
    split at h
    · cases h
    next group name hcut =>
    split at h
    · cases h
    next flag hflag =>
    cases h
    obtain ⟨rfl, hkey⟩ := Flag.ofPath?_eq_some_iff.mp hflag
    refine ⟨name, ?_, hkey⟩
    rw [readSign?_eq_some_iff.mp hsign, (Text.cutAtFirst?_eq_some_iff.mp hcut).1, hdot]
  · rintro ⟨name, hpart, hkey⟩
    have hcut := Text.cutAtFirst?_eq_some_iff.mpr
      (⟨rfl, t.flag.not_mem_group⟩ : t.flag.group ++ String.singleton '.' ++ name = _ ∧ _)
    rw [hdot] at hcut
    rw [parse, readSign?_eq_some_iff.mpr hpart]
    simp only [hcut, Flag.ofPath?_eq_some_iff.mpr ⟨rfl, hkey⟩]

theorem Writes.unique {t u : Toggle} (ht : Writes part t) (hu : Writes part u) : t = u := by
  have hparse := parse_eq_ok_iff.mpr ht
  rw [parse_eq_ok_iff.mpr hu] at hparse
  exact (Except.ok.inj hparse).symm

theorem HasPath.unique {path' : String} (h : HasPath part path) (h' : HasPath part path') : path = path' := by
  obtain ⟨⟨on, rfl⟩, -⟩ := h
  obtain ⟨⟨on', h'⟩, -⟩ := h'
  exact (sign_append_inj h').2

theorem parse_of_not_hasPath (h : ¬ ∃ path, HasPath part path) : parse part = .error (.malformedToggle part) := by
  rw [parse]
  split
  · rfl
  next on path hsign =>
  have hcut : Text.cutAtFirst? '.' path = none := by
    rw [Text.cutAtFirst?_eq_none_iff]
    exact fun hdot => h ⟨path, ⟨on, readSign?_eq_some_iff.mp hsign⟩, hdot⟩
  rw [hcut]

theorem parse_of_hasPath (h : HasPath part path) :
    parse part = .error (.unknownFlag path) ∨ ∃ t, parse part = .ok t := by
  obtain ⟨⟨on, hpart⟩, hdot⟩ := h
  obtain ⟨⟨group, name⟩, hcut⟩ : ∃ sides, Text.cutAtFirst? '.' path = some sides := by
    rw [← Option.isSome_iff_exists, ← Option.ne_none_iff_isSome, ne_eq, Text.cutAtFirst?_eq_none_iff, not_not]
    exact hdot
  rw [parse, readSign?_eq_some_iff.mpr hpart]
  simp only [hcut]
  cases Flag.ofPath? group name with
  | none => exact .inl rfl
  | some flag => exact .inr ⟨_, rfl⟩

theorem parse_eq_error_iff {e : ProfileError} : parse part = .error e ↔ Faults part e := by
  have hwrites : (∃ t, Writes part t) ↔ ∃ t, parse part = .ok t := by simp only [parse_eq_ok_iff]
  by_cases hpath : ∃ path, HasPath part path
  · obtain ⟨path, hpath⟩ := hpath
    have hunique {other : String} : HasPath part other ↔ path = other :=
      ⟨fun hother => hpath.unique hother, fun hother => hother ▸ hpath⟩
    rcases parse_of_hasPath hpath with hparse | ⟨t, hparse⟩
    · cases e <;> simp [Faults, hwrites, hunique, hparse]
    · cases e <;> simp [Faults, hwrites, hunique, hparse]
  · have hnone {other : String} : ¬ HasPath part other := fun hother => hpath ⟨other, hother⟩
    cases e <;> simp [Faults, hnone, parse_of_not_hasPath hpath, eq_comm]

/-- Neighbours that name different flags change places. -/
inductive Exchange : List String → List String → Prop
  | swap (before after : List String) {first second : String} {t u : Toggle} (hfirst : Writes first t)
      (hsecond : Writes second u) (hne : t.flag ≠ u.flag) :
      Exchange (before ++ first :: second :: after) (before ++ second :: first :: after)

end Toggle

namespace Profile

open Toggle

/-- The fields of a profile that no toggle reaches. -/
def fixed (p : Profile) : Nat × List String × List String × Pattern :=
  (p.selectors.mergeLimit, p.selectors.mergeablePseudoClasses, p.selectors.mergeablePseudoElements, p.selectors.special)

section Flags

variable {p q : Profile}

/-- A profile is its flags and the fields that no toggle reaches. -/
theorem eq_of_get (hget : ∀ flag, p.get flag = q.get flag) (hfixed : p.fixed = q.fixed) : p = q := by
  obtain ⟨opacity, ⟨⟩, ⟨⟩, ⟨⟩⟩ := p
  obtain ⟨opacity', ⟨⟩, ⟨⟩, ⟨⟩⟩ := q
  have hall := hget
  simp only [fixed, Prod.mk.injEq] at hfixed
  obtain ⟨rfl, rfl, rfl, rfl⟩ := hfixed
  obtain rfl := hall .opacity
  obtain rfl := hall .backgroundClipMerging
  obtain rfl := hall .backgroundOriginMerging
  obtain rfl := hall .backgroundSizeMerging
  obtain rfl := hall .colors
  obtain rfl := hall .merging
  obtain rfl := hall .zeroUnits
  obtain rfl := hall .multiplePseudoMerging
  obtain rfl := hall .ch
  obtain rfl := hall .inch
  obtain rfl := hall .pc
  obtain rfl := hall .pt
  obtain rfl := hall .rem
  obtain rfl := hall .vh
  obtain rfl := hall .vm
  obtain rfl := hall .vmax
  obtain rfl := hall .vmin
  rfl

theorem fixed_set (p : Profile) (flag : Flag) (on : Bool) : (p.set flag on).fixed = p.fixed := by
  cases flag <;> rfl

theorem set_comm (p : Profile) {flag other : Flag} (h : flag ≠ other) (on on' : Bool) :
    (p.set flag on).set other on' = (p.set other on').set flag on := by
  refine eq_of_get (fun f => ?_) (by simp only [fixed_set])
  simp only [get_set]
  by_cases hflag : f = flag
  · subst hflag
    simp [h]
  · simp [hflag]

end Flags

section Run

variable {p q : Profile} {parts : List String}

theorem applyAll_append (p : Profile) (front back : List String) :
    p.applyAll (front ++ back) = p.applyAll front >>= fun q => q.applyAll back := by
  induction front generalizing p with
  | nil => rfl
  | cons part front ih =>
      rw [List.cons_append, applyAll, applyAll]
      cases Toggle.parse part with
      | error e => rfl
      | ok t => exact ih (p.set t.flag t.on)

theorem applyAll_cons_eq_ok_iff {part : String} :
    p.applyAll (part :: parts) = .ok q ↔ ∃ t, Writes part t ∧ (p.set t.flag t.on).applyAll parts = .ok q := by
  rw [applyAll]
  constructor
  · intro h
    split at h
    · next t ht => exact ⟨t, parse_eq_ok_iff.mp ht, h⟩
    · cases h
  · rintro ⟨t, ht, h⟩
    rw [parse_eq_ok_iff.mpr ht]
    exact h

theorem exists_applyAll_iff : (∃ q, p.applyAll parts = .ok q) ↔ ∀ part ∈ parts, ∃ t, Writes part t := by
  induction parts generalizing p with
  | nil => simp [applyAll]
  | cons part parts ih =>
      simp only [applyAll_cons_eq_ok_iff, List.forall_mem_cons]
      constructor
      · rintro ⟨q, t, ht, hq⟩
        exact ⟨⟨t, ht⟩, ih.mp ⟨q, hq⟩⟩
      · rintro ⟨⟨t, ht⟩, hparts⟩
        obtain ⟨q, hq⟩ := ih.mpr hparts
        exact ⟨q, t, ht, hq⟩

/-- A flag that no part names keeps its value. -/
theorem get_of_applyAll {flag : Flag} (h : p.applyAll parts = .ok q)
    (hflag : ∀ part ∈ parts, ∀ on, ¬ Writes part ⟨flag, on⟩) : q.get flag = p.get flag := by
  induction parts generalizing p with
  | nil =>
      cases h
      rfl
  | cons part parts ih =>
      rw [List.forall_mem_cons] at hflag
      obtain ⟨t, ht, h⟩ := applyAll_cons_eq_ok_iff.mp h
      have hne : flag ≠ t.flag := by
        rintro rfl
        exact hflag.1 t.on ht
      rw [ih h hflag.2, get_set, if_neg hne]

theorem fixed_of_applyAll (h : p.applyAll parts = .ok q) : q.fixed = p.fixed := by
  induction parts generalizing p with
  | nil =>
      cases h
      rfl
  | cons part parts ih =>
      obtain ⟨t, -, h⟩ := applyAll_cons_eq_ok_iff.mp h
      rw [ih h, fixed_set]

/-- The first part with a fault is the one that is reported. -/
def FailsWith (parts : List String) (e : ProfileError) : Prop :=
  ∃ before part after, parts = before ++ part :: after ∧ (∀ q ∈ before, ∃ t, Writes q t) ∧ Faults part e

theorem applyAll_eq_error_iff {e : ProfileError} : p.applyAll parts = .error e ↔ FailsWith parts e := by
  induction parts generalizing p with
  | nil => simp [applyAll, FailsWith]
  | cons part parts ih =>
      rw [applyAll]
      constructor
      · intro h
        split at h
        · next t ht =>
            obtain ⟨before, bad, after, rfl, hbefore, hbad⟩ := ih.mp h
            refine ⟨part :: before, bad, after, rfl, ?_, hbad⟩
            exact List.forall_mem_cons.mpr ⟨⟨t, parse_eq_ok_iff.mp ht⟩, hbefore⟩
        · next e' he' =>
            cases h
            exact ⟨[], part, parts, rfl, by simp, parse_eq_error_iff.mp he'⟩
      · rintro ⟨before, bad, after, hparts, hbefore, hbad⟩
        cases before with
        | nil =>
            obtain ⟨rfl, rfl⟩ := List.cons.inj hparts
            rw [parse_eq_error_iff.mpr hbad]
        | cons first before =>
            obtain ⟨rfl, rfl⟩ := List.cons.inj hparts
            rw [List.forall_mem_cons] at hbefore
            obtain ⟨⟨t, ht⟩, hbefore⟩ := hbefore
            rw [parse_eq_ok_iff.mpr ht]
            exact ih.mpr ⟨before, bad, after, rfl, hbefore, hbad⟩

/-- What toggles make of a profile: a flag has the sign of the last part that names it, or else the value it had, and
nothing else changes. -/
structure Switched (p : Profile) (parts : List String) (q : Profile) : Prop where
  last : ∀ before part after t, parts = before ++ part :: after → Writes part t →
    (∀ later ∈ after, ∀ on, ¬ Writes later ⟨t.flag, on⟩) → q.get t.flag = t.on
  unnamed : ∀ flag, (∀ part ∈ parts, ∀ on, ¬ Writes part ⟨flag, on⟩) → q.get flag = p.get flag
  rest : q.fixed = p.fixed

theorem switched_of_applyAll (h : p.applyAll parts = .ok q) : Switched p parts q := by
  constructor
  case last =>
    rintro before part after t rfl ht hafter
    rw [applyAll_append] at h
    cases hbefore : p.applyAll before with
    | error e =>
        rw [hbefore] at h
        cases h
    | ok middle =>
        rw [hbefore] at h
        obtain ⟨u, hu, h⟩ := applyAll_cons_eq_ok_iff.mp h
        obtain rfl := hu.unique ht
        rw [get_of_applyAll h hafter, get_set, if_pos rfl]
  case unnamed => exact fun flag hflag => get_of_applyAll h hflag
  case rest => exact fixed_of_applyAll h

theorem applyAll_exchange {parts' : List String} (h : Relation.ReflTransGen Exchange parts parts') (p : Profile) :
    p.applyAll parts' = p.applyAll parts := by
  induction h with
  | refl => rfl
  | tail _ hstep ih =>
      rw [← ih]
      obtain ⟨before, after, hfirst, hsecond, hne⟩ := hstep
      rw [applyAll_append, applyAll_append]
      cases p.applyAll before with
      | error e => rfl
      | ok q =>
          change applyAll q _ = applyAll q _
          simp only [applyAll, parse_eq_ok_iff.mpr hfirst, parse_eq_ok_iff.mpr hsecond, set_comm q hne]

end Run

/-- The parts of a text: what stands between its commas, trimmed, without what is blank. -/
def Divides (text : String) (parts : List String) : Prop :=
  ∃ pieces, pieces ≠ [] ∧ text = Text.joined "," pieces ∧ (∀ piece ∈ pieces, ',' ∉ piece.toList) ∧
    parts = (pieces.map Text.trim).filter (!·.isEmpty)

theorem divides_parts (text : String) : Divides text (parts text) := by
  refine ⟨Text.splitAtEach ',' text, ?_, ?_, ?_, rfl⟩
  · rw [Text.splitAtEach, ne_eq, List.map_eq_nil_iff]
    exact splitWhere_ne_nil _ _
  · rw [← String.toList_inj]
    exact (Text.toList_joined_splitWhere ',' text.toList).symm
  · intro piece hpiece
    obtain ⟨chars, hchars, rfl⟩ := List.mem_map.mp hpiece
    rw [String.toList_ofList]
    exact Text.not_mem_of_mem_splitWhere hchars

/-- The profile that toggles start from and the toggles: a first part without a sign names a preset. -/
inductive Opens : List String → Profile → List String → Prop
  | preset {name : String} {base : Profile} {toggles : List String} (hsign : ¬ HasSign name)
      (hpreset : preset? name = some base) : Opens (name :: toggles) base toggles
  | plain {toggles : List String} (hsign : ∀ first ∈ toggles.head?, HasSign first) : Opens toggles modern toggles

theorem startsWithSign_iff {part : String} :
    (Text.startsWith part "+" || Text.startsWith part "-") = true ↔ HasSign part := by
  have hstarts (on : Bool) : Text.startsWith part (sign on) = true ↔ ∃ path, part = sign on ++ path := by
    rw [Text.startsWith, List.isPrefixOf_iff_prefix]
    constructor
    · rintro ⟨rest, hrest⟩
      exact ⟨String.ofList rest, by rw [← String.toList_inj, String.toList_append, String.toList_ofList, hrest]⟩
    · rintro ⟨path, rfl⟩
      exact ⟨path.toList, String.toList_append.symm⟩
  rw [Bool.or_eq_true]
  constructor
  · rintro (h | h)
    · exact ⟨true, (hstarts true).mp h⟩
    · exact ⟨false, (hstarts false).mp h⟩
  · rintro ⟨on, hpath⟩
    cases on with
    | true => exact .inl ((hstarts true).mpr hpath)
    | false => exact .inr ((hstarts false).mpr hpath)

theorem parse_of_opens {text : String} {base : Profile} {toggles : List String}
    (h : Opens (parts text) base toggles) : parse text = base.applyAll toggles := by
  rw [parse]
  generalize parts text = all at h
  cases h with
  | preset hsign hpreset =>
      simp only
      rw [if_neg (mt startsWithSign_iff.mp hsign), hpreset]
  | plain hsign =>
      cases toggles with
      | nil => rfl
      | cons first rest =>
          simp only
          rw [if_pos (startsWithSign_iff.mpr (hsign first rfl))]

theorem parse_of_preset?_eq_none {text name : String} {rest : List String} (hparts : parts text = name :: rest)
    (hsign : ¬ HasSign name) (hpreset : preset? name = none) : parse text = .error (.unknownPreset name) := by
  rw [parse, hparts]
  simp only
  rw [if_neg (mt startsWithSign_iff.mp hsign), hpreset]

/-- A preset is missing, or there is a profile to start from. -/
theorem opens_or (all : List String) :
    (∃ name rest, all = name :: rest ∧ ¬ HasSign name ∧ preset? name = none) ∨
      ∃ base toggles, Opens all base toggles := by
  cases all with
  | nil => exact .inr ⟨modern, [], .plain (by simp)⟩
  | cons first rest =>
      by_cases hsign : HasSign first
      · exact .inr ⟨modern, first :: rest, .plain (by simpa using hsign)⟩
      · cases hpreset : preset? first with
        | none => exact .inl ⟨first, rest, rfl, hsign, hpreset⟩
        | some base => exact .inr ⟨base, rest, .preset hsign hpreset⟩

theorem not_unknownPreset_of_opens {text name : String} {base : Profile} {toggles : List String}
    (h : Opens (parts text) base toggles) : parse text ≠ .error (.unknownPreset name) := by
  rw [parse_of_opens h, ne_eq, applyAll_eq_error_iff]
  rintro ⟨-, -, -, -, -, ⟨⟩⟩

/-- What a profile string comes to. It divides into parts. Either a first part without a sign names no preset, which is
reported, or there is a profile to start from. Then the first part that is no toggle is reported; without one there is
a result, in which the last toggle of each flag decides; and toggles of different flags may change places. -/
theorem parse_resolves (text : String) :
    Divides text (parts text) ∧
      (∀ name, parse text = .error (.unknownPreset name) ↔
        ∃ rest, parts text = name :: rest ∧ ¬ HasSign name ∧ preset? name = none) ∧
      ((∀ name, parse text ≠ .error (.unknownPreset name)) ↔ ∃ base toggles, Opens (parts text) base toggles) ∧
      ∀ base toggles, Opens (parts text) base toggles →
        (∀ e, parse text = .error e ↔ FailsWith toggles e) ∧
          ((∃ p, parse text = .ok p) ↔ ∀ part ∈ toggles, ∃ t, Writes part t) ∧
          (∀ p, parse text = .ok p → Switched base toggles p) ∧
          ∀ other toggles', Opens (parts other) base toggles' → Relation.ReflTransGen Exchange toggles toggles' →
            parse other = parse text := by
  refine ⟨divides_parts text, fun name => ⟨fun h => ?_, ?_⟩, ⟨fun h => ?_, ?_⟩, fun base toggles hopens => ?_⟩
  · rcases opens_or (parts text) with ⟨other, rest, hparts, hsign, hpreset⟩ | ⟨base, toggles, hopens⟩
    · rw [parse_of_preset?_eq_none hparts hsign hpreset] at h
      cases h
      exact ⟨rest, hparts, hsign, hpreset⟩
    · exact absurd h (not_unknownPreset_of_opens hopens)
  · rintro ⟨rest, hparts, hsign, hpreset⟩
    exact parse_of_preset?_eq_none hparts hsign hpreset
  · rcases opens_or (parts text) with ⟨name, rest, hparts, hsign, hpreset⟩ | hopens
    · exact absurd (parse_of_preset?_eq_none hparts hsign hpreset) (h name)
    · exact hopens
  · rintro ⟨base, toggles, hopens⟩ name
    exact not_unknownPreset_of_opens hopens
  · rw [parse_of_opens hopens]
    refine ⟨fun e => applyAll_eq_error_iff, exists_applyAll_iff, fun p hp => switched_of_applyAll hp, ?_⟩
    intro other toggles' hother hexchange
    rw [parse_of_opens hother]
    exact applyAll_exchange hexchange base

/-- The second toggle of a flag decides, and another between the two may as well stand before them. -/
theorem parse_resolves_ie8 :
    let text := "IE8, +units.rem ,-properties.zero_Units,,-units.Rem"
    let toggles := ["+units.rem", "-properties.zero_Units", "-units.Rem"]
    Opens (parts text) ie8 toggles ∧ ∃ p, parse text = .ok p ∧ p.get .rem = false ∧ p.get .zeroUnits = false ∧
      p.get .pt = ie8.get .pt ∧ p.fixed = ie8.fixed ∧
        parse "ie8,-properties.zero_Units,+units.rem,-units.Rem" = .ok p := by
  intro text toggles
  have hrem : Writes "+units.rem" ⟨.rem, true⟩ := parse_eq_ok_iff.mp (by decide +kernel)
  have hzero : Writes "-properties.zero_Units" ⟨.zeroUnits, false⟩ := parse_eq_ok_iff.mp (by decide +kernel)
  have hlast : Writes "-units.Rem" ⟨.rem, false⟩ := parse_eq_ok_iff.mp (by decide +kernel)
  have hopen {all rest : List String} (name : String) (hall : all = name :: rest)
      (hsign : (Text.startsWith name "+" || Text.startsWith name "-") = false) (hpreset : preset? name = some ie8) :
      Opens all ie8 rest := by
    subst hall
    exact .preset (by rw [← startsWithSign_iff, hsign]; decide) hpreset
  have hopens : Opens (parts text) ie8 toggles := hopen "IE8" (by decide +kernel) (by decide +kernel) rfl
  obtain ⟨-, -, -, hresolves⟩ := parse_resolves text
  obtain ⟨-, hsucceeds, hswitched, hpermutes⟩ := hresolves ie8 toggles hopens
  obtain ⟨p, hp⟩ := hsucceeds.mpr (by simpa [toggles] using ⟨⟨_, hrem⟩, ⟨_, hzero⟩, ⟨_, hlast⟩⟩)
  obtain ⟨hdecides, hunnamed, hrest⟩ := hswitched p hp
  have hexchange : Relation.ReflTransGen Exchange toggles ["-properties.zero_Units", "+units.rem", "-units.Rem"] :=
    .single (.swap [] ["-units.Rem"] hrem hzero (by decide))
  refine ⟨hopens, p, hp, ?_, ?_, ?_, hrest, ?_⟩
  · exact hdecides ["+units.rem", "-properties.zero_Units"] _ [] _ rfl hlast (by simp)
  · refine hdecides ["+units.rem"] _ ["-units.Rem"] _ rfl hzero ?_
    simp only [List.forall_mem_singleton, ← parse_eq_ok_iff]
    decide +kernel
  · refine hunnamed .pt ?_
    simp only [toggles, List.forall_mem_cons, ← parse_eq_ok_iff]
    decide +kernel
  · rw [← hp]
    exact hpermutes _ _ (hopen "ie8" (by decide +kernel) (by decide +kernel) rfl) hexchange

end Profile

end CssMinify
