import CssMinify.Proofs.Effect.Claim
import CssMinify.Property.Shadowing

/-!
The longhands of a property as a stretch of its tree of components. A component that is found by its name
holds a stretch of the longhands, and changing it changes that stretch and nothing around it.
-/

namespace CssMinify

namespace Property

theorem leavesOfAll_eq (ps : List Property) : leavesOfAll ps = ps.flatMap leaves := by
  induction ps with
  | nil => simp [leavesOfAll]
  | cons p ps ih => rw [leavesOfAll, ih, List.flatMap_cons]

theorem leaves_of_components_eq_nil {p : Property} (h : p.components = []) : p.leaves = [p] := by
  obtain ⟨⟩ := p
  subst h
  simp [leaves]

theorem leaves_of_components_ne_nil {p : Property} (h : p.components ≠ []) :
    p.leaves = p.components.flatMap leaves := by
  obtain ⟨_, components⟩ := p
  rw [leaves, leavesOfAll_eq]
  simp only [ne_eq] at h
  simp [h]

theorem find?_eq (name : String) (p : Property) : p.find? name = findAmong? name p.components := by
  obtain ⟨⟩ := p
  rw [find?]

theorem modify?_eq (name : String) (change : Property → Property) (p : Property) :
    p.modify? name change
      = (modifyAmong? name change p.components).map fun components => { p with components } := by
  obtain ⟨⟩ := p
  rw [modify?]

theorem mapComponents_eq (change : Property → Property) (p : Property) :
    p.mapComponents change
      = { p with components := p.components.map fun c => change (c.mapComponents change) } := by
  have hall (ps : List Property) :
      mapComponentsOfAll change ps = ps.map fun c => change (c.mapComponents change) := by
    induction ps with
    | nil => simp [mapComponentsOfAll]
    | cons c ps ih => rw [mapComponentsOfAll, ih, List.map_cons]
  obtain ⟨⟩ := p
  rw [mapComponents, hall]

mutual

/-- The longhands of the property are those that the table has for its name, only a shorthand has
components, and so it is for every component at any depth. -/
def Regular : Property → Prop
  | p@(.mk _ components ..) => p.leaves.map (·.name) = p.leafNames ∧ AllRegular components ∧
      (components ≠ [] → p.isShorthand = true)

def AllRegular : List Property → Prop
  | [] => True
  | p :: rest => p.Regular ∧ AllRegular rest

end

theorem allRegular_iff {ps : List Property} : AllRegular ps ↔ ∀ p ∈ ps, p.Regular := by
  induction ps with
  | nil => simp [AllRegular]
  | cons p ps ih => simp [AllRegular, ih]

theorem regular_iff {p : Property} :
    p.Regular ↔ p.leaves.map (·.name) = p.leafNames ∧ (∀ c ∈ p.components, c.Regular) ∧
      (p.components ≠ [] → p.isShorthand = true) := by
  obtain ⟨⟩ := p
  rw [Regular, allRegular_iff]

mutual

theorem find?_regular {name : String} : ∀ {p c : Property}, p.Regular → p.find? name = some c →
    c.Regular ∧ c.name = name ∧ ∃ before after, p.leaves = before ++ c.leaves ++ after
  | .mk d components unused rebuilt layered free dynamic position, c, hp, h => by
      rw [find?_eq] at h
      rw [regular_iff] at hp
      obtain ⟨hc, hname, before, after, hleaves⟩ := findAmong?_regular hp.2.1 h
      have hne : components ≠ [] := by
        rintro rfl
        simp [findAmong?] at h
      refine ⟨hc, hname, before, after, ?_⟩
      rw [leaves_of_components_ne_nil hne, hleaves]

theorem findAmong?_regular {name : String} : ∀ {ps : List Property} {c : Property},
    (∀ p ∈ ps, p.Regular) → findAmong? name ps = some c →
    c.Regular ∧ c.name = name ∧ ∃ before after, ps.flatMap leaves = before ++ c.leaves ++ after
  | [], c, _, h => by simp [findAmong?] at h
  | p :: ps, c, hps, h => by
      rw [findAmong?] at h
      split at h
      · next hname =>
          cases h
          exact ⟨hps p List.mem_cons_self, by simpa using hname, [], ps.flatMap leaves, by simp⟩
      · split at h
        · next found hfound =>
            cases h
            obtain ⟨hc, hname, before, after, hleaves⟩ :=
              find?_regular (hps p List.mem_cons_self) hfound
            exact ⟨hc, hname, before, after ++ ps.flatMap leaves, by simp [hleaves]⟩
        · obtain ⟨hc, hname, before, after, hleaves⟩ :=
            findAmong?_regular (fun q hq => hps q (List.mem_cons_of_mem p hq)) h
          exact ⟨hc, hname, p.leaves ++ before, after, by simp [hleaves]⟩

end

theorem leafNames_congr {p q : Property} (h : p.name = q.name) : p.leafNames = q.leafNames := by
  rw [leafNames, leafNames, descriptor?, descriptor?, h]

theorem map_name_leaves_congr {p q : Property} (hp : p.Regular) (hq : q.Regular) (h : p.name = q.name) :
    p.leaves.map (·.name) = q.leaves.map (·.name) := by
  rw [(regular_iff.mp hp).1, (regular_iff.mp hq).1, leafNames_congr h]

mutual

theorem isSome_modify? (name : String) (change : Property → Property) :
    ∀ p : Property, (p.modify? name change).isSome = (p.find? name).isSome
  | .mk d components unused rebuilt layered free dynamic position => by
      rw [modify?_eq, find?_eq, Option.isSome_map]
      exact isSome_modifyAmong? name change components

theorem isSome_modifyAmong? (name : String) (change : Property → Property) :
    ∀ ps : List Property, (modifyAmong? name change ps).isSome = (findAmong? name ps).isSome
  | [] => by simp [modifyAmong?, findAmong?]
  | p :: ps => by
      have hp := isSome_modify? name change p
      rw [modifyAmong?, findAmong?]
      split
      · rfl
      · cases hm : p.modify? name change <;> cases hf : p.find? name <;>
          simp only [hm, hf, Option.isSome_none, Option.isSome_some, reduceCtorEq] at hp ⊢
        rw [Option.isSome_map]
        exact isSome_modifyAmong? name change ps

end

mutual

/-- Putting `r` in the place of a component of the same name exchanges their stretches of longhands. -/
theorem modify?_regular {name : String} {r : Property} (hr : r.Regular) (hrname : r.name = name) :
    ∀ {p p' : Property}, p.Regular → p.modify? name (fun _ => r) = some p' →
    p'.Regular ∧ p'.components ≠ [] ∧ p' = { p with components := p'.components } ∧
      ∃ c before after, p.find? name = some c ∧ p.leaves = before ++ c.leaves ++ after ∧
        p'.leaves = before ++ r.leaves ++ after
  | .mk d components unused rebuilt layered free dynamic position, p', hp, h => by
      rw [modify?_eq] at h
      obtain ⟨components', hmodify, rfl⟩ := Option.map_eq_some_iff.mp h
      have hreg := regular_iff.mp hp
      obtain ⟨hall, hne', c, before, after, hfind, hleaves, hleaves'⟩ :=
        modifyAmong?_regular hr hrname hreg.2.1 hmodify
      have hne : components ≠ [] := by
        rintro rfl
        simp [findAmong?] at hfind
      rw [leaves_of_components_ne_nil hne, hleaves] at hreg
      have hc := (findAmong?_regular (regular_iff.mp hp).2.1 hfind).1
      have hcname := (findAmong?_regular (regular_iff.mp hp).2.1 hfind).2.1
      refine ⟨regular_iff.mpr ⟨?_, hall, fun _ => hreg.2.2 hne⟩, hne', rfl, c, before, after, ?_, ?_, ?_⟩
      · rw [leaves_of_components_ne_nil hne', hleaves']
        have hnames := map_name_leaves_congr hr hc (by rw [hrname, hcname])
        simp only [List.map_append, hnames] at hreg ⊢
        exact hreg.1
      · rw [find?_eq]
        exact hfind
      · rw [leaves_of_components_ne_nil hne, hleaves]
      · rw [leaves_of_components_ne_nil hne', hleaves']

theorem modifyAmong?_regular {name : String} {r : Property} (hr : r.Regular) (hrname : r.name = name) :
    ∀ {ps ps' : List Property}, (∀ p ∈ ps, p.Regular) →
    modifyAmong? name (fun _ => r) ps = some ps' →
    (∀ p ∈ ps', p.Regular) ∧ ps' ≠ [] ∧
      ∃ c before after, findAmong? name ps = some c ∧ ps.flatMap leaves = before ++ c.leaves ++ after ∧
        ps'.flatMap leaves = before ++ r.leaves ++ after
  | [], ps', _, h => by simp [modifyAmong?] at h
  | p :: ps, ps', hps, h => by
      have hp := hps p List.mem_cons_self
      have hrest : ∀ q ∈ ps, q.Regular := fun q hq => hps q (List.mem_cons_of_mem p hq)
      rw [modifyAmong?] at h
      by_cases hname : p.name = name
      · rw [if_pos (by simpa using hname)] at h
        cases h
        refine ⟨by simpa using ⟨hr, hrest⟩, by simp, p, [], ps.flatMap leaves, ?_, by simp, by simp⟩
        rw [findAmong?, if_pos (by simpa using hname)]
      · rw [if_neg (by simpa using hname)] at h
        cases hmodify : p.modify? name (fun _ => r) with
        | some changed =>
            simp only [hmodify, Option.some.injEq] at h
            subst h
            obtain ⟨hreg, -, -, c, before, after, hfind, hleaves, hleaves'⟩ :=
              modify?_regular hr hrname hp hmodify
            refine ⟨by simpa using ⟨hreg, hrest⟩, by simp, c, before, after ++ ps.flatMap leaves, ?_,
              by simp [hleaves], by simp [hleaves']⟩
            rw [findAmong?, if_neg (by simpa using hname), hfind]
        | none =>
            simp only [hmodify, Option.map_eq_some_iff] at h
            obtain ⟨ps'', hmodify', rfl⟩ := h
            obtain ⟨hall, -, c, before, after, hfind, hleaves, hleaves'⟩ :=
              modifyAmong?_regular hr hrname hrest hmodify'
            refine ⟨by simpa using ⟨hp, hall⟩, by simp, c, p.leaves ++ before, after, ?_,
              by simp [hleaves], by simp [hleaves']⟩
            have hnone : p.find? name = none := by
              simpa [hmodify] using (isSome_modify? name (fun _ => r) p).symm
            rw [findAmong?, if_neg (by simpa using hname), hnone]
            exact hfind

end

mutual

/-- A change that leaves components alone changes the leaves one by one. -/
theorem leaves_mapComponents (change : Property → Property)
    (hchange : ∀ q, (change q).components = q.components) :
    ∀ p : Property, (change (p.mapComponents change)).leaves = p.leaves.map change
  | .mk d components unused rebuilt layered free dynamic position => by
      rw [mapComponents_eq]
      by_cases h : components = []
      · subst h
        rw [leaves_of_components_eq_nil (by simp [hchange]), leaves_of_components_eq_nil rfl]
        simp
      · rw [leaves_of_components_ne_nil (by simp [hchange, h]), leaves_of_components_ne_nil h, hchange]
        exact flatMap_leaves_mapComponents change hchange components

theorem flatMap_leaves_mapComponents (change : Property → Property)
    (hchange : ∀ q, (change q).components = q.components) :
    ∀ ps : List Property,
      (ps.map fun c => change (c.mapComponents change)).flatMap leaves = (ps.flatMap leaves).map change
  | [] => rfl
  | p :: ps => by
      rw [List.map_cons, List.flatMap_cons, List.flatMap_cons, List.map_append,
        leaves_mapComponents change hchange p, flatMap_leaves_mapComponents change hchange ps]

end

mutual

theorem regular_mapComponents (change : Property → Property)
    (hchange : ∀ q, (change q).components = q.components) (hname : ∀ q, (change q).name = q.name) :
    ∀ {p : Property}, p.Regular → (change (p.mapComponents change)).Regular
  | .mk d components unused rebuilt layered free dynamic position, hp => by
      rw [regular_iff] at hp ⊢
      rw [leaves_mapComponents change hchange, hchange, leafNames_congr (hname _), mapComponents_eq,
        List.map_map, show (·.name) ∘ change = (·.name) from funext hname]
      refine ⟨hp.1, allRegular_mapComponents change hchange hname hp.2.1, ?_⟩
      intro hne
      rw [isShorthand, hname]
      exact hp.2.2 (by simpa using hne)

theorem allRegular_mapComponents (change : Property → Property)
    (hchange : ∀ q, (change q).components = q.components) (hname : ∀ q, (change q).name = q.name) :
    ∀ {ps : List Property}, (∀ p ∈ ps, p.Regular) →
      ∀ p ∈ ps.map (fun c => change (c.mapComponents change)), p.Regular
  | [], _, p, h => by cases h
  | q :: ps, hps, p, h => by
      rcases List.mem_cons.mp h with rfl | h
      · exact regular_mapComponents change hchange hname (hps q List.mem_cons_self)
      · exact allRegular_mapComponents change hchange hname (fun r hr => hps r (List.mem_cons_of_mem q hr)) p h

end

end Property

end CssMinify
