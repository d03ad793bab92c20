import CssMinify.Proofs.Moves.Hoisting
import CssMinify.Proofs.Runs.Edit
import CssMinify.Proofs.Size.Bodies

/-! The size of a sheet. Every edit of a run leaves the text as long as it was or makes it shorter, if no fold in
a body takes more bytes than the two declarations it is made of; so a run never makes a sheet longer where folds
do not. -/

namespace CssMinify

namespace Text

/-- Joined texts, each of which is counted with a separator of one byte, have one too many. -/
theorem byteLength_joined {separator : String} (h : byteLength separator = 1) (texts : List String) :
    byteLength (joined separator texts) = total (fun s => byteLength s + 1) texts - 1 := by
  induction texts using joined.induct with
  | case1 => rfl
  | case2 s =>
      simp only [joined, total]
      omega
  | case3 s t rest ih =>
      simp only [joined, byteLength_append, ih, h, total]
      omega

end Text

open Text

theorem Declaration.byteLength_printBody (ds : List Declaration) :
    byteLength (printBody ds) = Hoist.bodySize ds - 1 := by
  rw [printBody, byteLength_joined (by decide), total_map]
  rfl

namespace Selector

/-- A list without repetitions that is made of others is no longer than they are. -/
theorem total_key_le (measure : String → Nat) (selectors : List String) :
    total measure (key selectors) ≤ total measure selectors := by
  have hnodup : (key selectors).Nodup := (pairwise_key selectors).imp fun {s t} h => by
    rintro rfl
    exact String.lt_irrefl s h
  exact total_le_of_subperm measure (List.subperm_of_subset hnodup fun _ hs => mem_key.mp hs)

end Selector

namespace Rule

section Items

/-- The bytes of an item, a declaration with a semicolon after it. -/
def Item.size : Item → Nat
  | declaration d => d.size + 1
  | nested text => byteLength text

def Item.isDeclaration : Item → Bool
  | declaration _ => true
  | nested _ => false

/-- Is the last item a declaration, which has no semicolon? -/
def endsBare (items : List Item) : Bool := (items.map Item.isDeclaration).getLast?.getD false

theorem endsBare_cons {item : Item} {rest : List Item} (h : rest ≠ []) : endsBare (item :: rest) = endsBare rest := by
  rw [endsBare, List.map_cons, List.getLast?_cons_of_ne_nil (mt List.map_eq_nil_iff.mp h), endsBare]

theorem byteLength_printItems (items : List Item) :
    byteLength (printItems items) + (endsBare items).toNat = total Item.size items := by
  induction items using printItems.induct with
  | case1 => rfl
  | case2 d => rfl
  | case3 d rest hne ih =>
      have hrest : rest ≠ [] := fun h => hne h
      have hsemicolon : byteLength ";" = 1 := by decide
      rw [printItems, endsBare_cons hrest, total, Item.size, Declaration.size, byteLength_append, byteLength_append]
      · omega
      · exact hne
  | case4 text rest ih =>
      rw [printItems, total, Item.size, byteLength_append]
      by_cases hrest : rest = []
      · subst hrest
        rfl
      · rw [endsBare_cons hrest]
        omega

theorem total_itemsFrom (count : Nat) (ds : List Declaration) (nested : List NestedText) :
    total Item.size (itemsFrom count ds nested) = Hoist.bodySize ds + total (byteLength ·.text) nested := by
  induction ds generalizing count nested with
  | nil =>
      rw [itemsFrom, total_map, Hoist.bodySize, total, Nat.zero_add]
      rfl
  | cons d ds ih =>
      have hsplit : total (byteLength ·.text) nested
          = total (byteLength ·.text) (nested.takeWhile (·.position ≤ count))
            + total (byteLength ·.text) (nested.dropWhile (·.position ≤ count)) := by
        rw [← total_append, List.takeWhile_append_dropWhile]
      have hbefore : total Item.size ((nested.takeWhile (·.position ≤ count)).map (Item.nested ·.text))
          = total (byteLength ·.text) (nested.takeWhile (·.position ≤ count)) := total_map _ _ _
      rw [itemsFrom, List.span_eq_takeWhile_dropWhile]
      simp only [total_append, total, ih, hbefore, Hoist.bodySize, Item.size] at hsplit ⊢
      omega

theorem map_isDeclaration_itemsFrom {ds es : List Declaration} (h : ds.length = es.length) (count : Nat)
    (nested : List NestedText) :
    (itemsFrom count ds nested).map Item.isDeclaration = (itemsFrom count es nested).map Item.isDeclaration := by
  induction ds generalizing es count nested with
  | nil => rw [List.length_eq_zero_iff.mp h.symm]
  | cons d ds ih =>
      obtain ⟨e, es, rfl⟩ := List.exists_cons_of_length_eq_add_one h.symm
      simp only [itemsFrom, List.map_append, List.map_cons, Item.isDeclaration]
      rw [ih (Nat.succ.inj h)]

/-- A body with fewer bytes is no longer in its place among nested texts. -/
theorem byteLength_printBody_le {ds : List Declaration} (r : Rule) (h : Body.Slim ds r.declarations) :
    byteLength ({ r with declarations := ds } : Rule).printBody ≤ byteLength r.printBody := by
  have hnew := byteLength_printItems (itemsFrom 0 ds r.nested)
  have hold := byteLength_printItems (itemsFrom 0 r.declarations r.nested)
  rw [total_itemsFrom] at hnew hold
  change byteLength (printItems (itemsFrom 0 ds r.nested)) ≤ byteLength (printItems (itemsFrom 0 r.declarations r.nested))
  rcases h with ⟨hlength, hle⟩ | hlt
  · have hends : endsBare (itemsFrom 0 ds r.nested) = endsBare (itemsFrom 0 r.declarations r.nested) := by
      rw [endsBare, map_isDeclaration_itemsFrom hlength, endsBare]
    rw [hends] at hnew
    omega
  · have hone := (endsBare (itemsFrom 0 r.declarations r.nested)).toNat_le
    omega

/-- The body of a rule without nested texts. -/
theorem byteLength_printBody_of_nested {r : Rule} (h : r.nested = []) :
    byteLength r.printBody = Hoist.bodySize r.declarations - 1 := by
  have hitems : ∀ (ds : List Declaration) (count : Nat), itemsFrom count ds [] = ds.map .declaration := by
    intro ds
    induction ds with
    | nil => exact fun _ => rfl
    | cons d ds ih => exact fun count => congrArg (Item.declaration d :: ·) (ih (count + 1))
  have hsize := byteLength_printItems (itemsFrom 0 r.declarations r.nested)
  rw [total_itemsFrom, h, total, hitems] at hsize
  rw [printBody, items, h, hitems]
  cases hds : r.declarations with
  | nil => rfl
  | cons d ds =>
      have hends : endsBare (r.declarations.map .declaration) = true := by
        rw [endsBare, List.map_map, List.getLast?_map, hds, List.getLast?_cons]
        rfl
      rw [hends, hds] at hsize
      simp only [Bool.toNat_true] at hsize
      omega

theorem byteLength_print (r : Rule) :
    byteLength r.print = byteLength (joined "," r.selectors) + byteLength r.printBody + 2 := by
  have hopen : byteLength "\x7b" = 1 := by decide
  have hclose : byteLength "\x7d" = 1 := by decide
  simp only [print, byteLength_append]
  omega

end Items

end Rule

namespace Node

mutual

/-- All declarations in a node, at any depth. -/
def declarations : Node → List Declaration
  | rule r => r.declarations
  | block _ children => declarationsOfAll children
  | fields _ declarations => declarations
  | statement _ | comment _ => []

def declarationsOfAll : List Node → List Declaration
  | [] => []
  | node :: rest => node.declarations ++ declarationsOfAll rest

end

/-- The bytes of the text of siblings. -/
def sizeOfAll (nodes : List Node) : Nat := byteLength (printAll nodes)

section Siblings

variable (as bs : List Node)

theorem declarationsOfAll_append :
    declarationsOfAll (as ++ bs) = declarationsOfAll as ++ declarationsOfAll bs := by
  induction as with
  | nil => rfl
  | cons a as ih => rw [List.cons_append, declarationsOfAll, ih, declarationsOfAll, List.append_assoc]

theorem sizeOfAll_cons (a : Node) : sizeOfAll (a :: as) = byteLength a.print + sizeOfAll as := by
  rw [sizeOfAll, printAll, byteLength_append, sizeOfAll]

theorem sizeOfAll_append : sizeOfAll (as ++ bs) = sizeOfAll as + sizeOfAll bs := by
  induction as with
  | nil => exact (Nat.zero_add _).symm
  | cons a as ih => rw [List.cons_append, sizeOfAll_cons, ih, sizeOfAll_cons, Nat.add_assoc]

theorem sizeOfAll_singleton (a : Node) : sizeOfAll [a] = byteLength a.print := by
  rw [sizeOfAll_cons]
  rfl

theorem sizeOfAll_eq_total : sizeOfAll as = total (fun a => byteLength a.print) as := by
  induction as with
  | nil => rfl
  | cons a as ih => rw [sizeOfAll_cons, ih, total]

theorem size_block (head : String) (children : List Node) :
    byteLength (block head children).print = byteLength head + sizeOfAll children + 2 := by
  have hopen : byteLength "\x7b" = 1 := by decide
  have hclose : byteLength "\x7d" = 1 := by decide
  simp only [print, byteLength_append, sizeOfAll]
  omega

/-- A rule with a body that takes fewer bytes. -/
theorem size_rule_le {r : Rule} {ds : List Declaration} (h : Body.Slim ds r.declarations) :
    sizeOfAll [.rule { r with declarations := ds }] ≤ sizeOfAll [.rule r] := by
  have hbody := r.byteLength_printBody_le h
  simp only [sizeOfAll_singleton, Node.print, Rule.byteLength_print]
  omega

theorem mem_declarationsOfAll {nodes : List Node} {d : Declaration} :
    d ∈ declarationsOfAll nodes ↔ ∃ node ∈ nodes, d ∈ node.declarations := by
  induction nodes with
  | nil => simp [declarationsOfAll]
  | cons node nodes ih => simp [declarationsOfAll, ih]

end Siblings

end Node

namespace Hoist

open Body Node

variable {config : Config} {source : List Declaration} {nodes : List Node} {h : Hoist}

/-- The rules whose loss is counted are the rules that lose something. -/
theorem Sound.rulesAt_perm (hsound : Sound config.options.mergeSemantically nodes h) :
    (rulesAt nodes h.holders).Perm (markedRules (h.marks nodes (h.holders.headD 0))) := by
  obtain ⟨-, hleast, -⟩ := hsound.exists_first
  let kept := (nodes.zipIdx.drop (h.holders.headD 0)).filter fun pair => h.holders.contains pair.2
  have hmarked : markedRules (h.marks nodes (h.holders.headD 0))
      = (kept.map Prod.snd).filterMap fun place => nodes[place]?.bind Node.rule? := by
    rw [markedRules, marks, List.filter_map, List.filterMap_map, List.filterMap_map]
    refine List.filterMap_congr fun pair hpair => ?_
    have hnode := List.mem_zipIdx_iff_getElem?.mp (List.mem_of_mem_drop (List.mem_filter.mp hpair).1)
    rw [Function.comp_apply, Function.comp_apply, hnode]
    rfl
  have hnodup : h.holders.Nodup := by
    obtain ⟨d, hd⟩ := List.exists_mem_of_ne_nil _ hsound.nonempty
    exact (hsound.movable d hd).sorted.imp fun hlt => Nat.ne_of_lt hlt
  have hnodupKept : (kept.map Prod.snd).Nodup := by
    have hall : (nodes.zipIdx.map Prod.snd).Nodup := by
      rw [List.zipIdx_map_snd]
      exact List.nodup_range'
    exact hall.sublist ((List.filter_sublist.trans (List.drop_sublist _ _)).map Prod.snd)
  have hmem (place : Nat) : place ∈ h.holders ↔ place ∈ kept.map Prod.snd := by
    constructor
    · intro hplace
      obtain ⟨r, hr, -⟩ := hsound.ready hplace
      refine List.mem_map.mpr ⟨(.rule r, place), List.mem_filter.mpr ⟨?_, List.contains_iff_mem.mpr hplace⟩, rfl⟩
      obtain ⟨k, rfl⟩ := Nat.exists_eq_add_of_le (hleast place hplace)
      refine List.mem_of_getElem? (i := k) ?_
      rw [List.getElem?_drop, List.getElem?_zipIdx, hr, Option.map_some, Nat.zero_add]
    · intro hplace
      obtain ⟨pair, hpair, rfl⟩ := List.mem_map.mp hplace
      exact List.contains_iff_mem.mp (List.mem_filter.mp hpair).2
  rw [hmarked]
  exact ((List.perm_ext_iff_of_nodup hnodup hnodupKept).mpr hmem).filterMap _

theorem bodySize_pos {ds : List Declaration} (h : ds ≠ []) : 0 < bodySize ds := by
  obtain ⟨d, hd⟩ := List.exists_mem_of_ne_nil ds h
  exact Nat.lt_of_lt_of_le (Nat.succ_pos _) (le_total_of_mem (fun d : Declaration => d.size + 1) hd)

/-- A holder loses exactly what is counted as its loss. -/
theorem size_remnant {ds : List Declaration} {between : List Node} {r : Rule} (hready : Ready config ds between r)
    (hnodup : ds.Nodup) :
    sizeOfAll (remnant ds r) + lossOf ds r = byteLength r.print := by
  let left := r.declarations.filter fun d => !ds.contains d
  have hperm : (ds ++ left).Perm r.declarations := perm_append_filter_not_contains hnodup hready.once
  have hbody : bodySize ds + bodySize left = bodySize r.declarations := by
    rw [bodySize, bodySize, ← total_append]
    exact total_perm _ hperm
  have hlength : ds.length + left.length = r.declarations.length := by
    rw [← List.length_append]
    exact hperm.length_eq
  have hprint := r.byteLength_print
  rw [Rule.byteLength_printBody_of_nested hready.nested] at hprint
  by_cases hleft : left = []
  · -- Nothing is left, so the holder goes with its selectors and its braces.
    have hremnant : remnant ds r = [] := if_pos (List.isEmpty_iff.mpr hleft)
    rw [hleft, List.length_nil] at hlength
    rw [hremnant, lossOf, if_pos (by simpa using hlength.symm)]
    exact Nat.zero_add _
  · -- The holder stays, and each declaration goes with a semicolon.
    have hremnant : remnant ds r = [.rule { r with declarations := left }] :=
      if_neg (mt List.isEmpty_iff.mp hleft)
    have hmore : ¬ r.declarations.length = ds.length := by
      have := List.length_pos_iff.mpr hleft
      omega
    have hpos := bodySize_pos hleft
    have hkept := Rule.byteLength_print { r with declarations := left }
    rw [Rule.byteLength_printBody_of_nested (r := { r with declarations := left }) hready.nested] at hkept
    rw [hremnant, lossOf, if_neg (by simpa using hmore), sizeOfAll_singleton, Node.print, hkept, hprint]
    simp only
    omega

/-- A rule that gives away declarations gets shorter by what is counted as its loss. -/
theorem size_strip_le {between : List Node} {r : Rule} (hready : Ready config h.declarations between r)
    (hnodup : h.declarations.Nodup)
    (hslim : Slim (Body.optimize config (r.declarations.filter fun d => !h.declarations.contains d))
      (r.declarations.filter fun d => !h.declarations.contains d)) :
    sizeOfAll (h.strip config (.rule r)).toList + lossOf h.declarations r ≤ byteLength r.print := by
  let left := r.declarations.filter fun d => !h.declarations.contains d
  have hremnant := size_remnant hready hnodup
  have hle : sizeOfAll (h.strip config (.rule r)).toList ≤ sizeOfAll (remnant h.declarations r) := by
    rw [strip_rule]
    split
    · exact Nat.zero_le _
    · next hkept =>
        have hleft : ¬ left.isEmpty = true := by
          intro hnil
          have hnone : (h.remainder config r).declarations = [] :=
            (Body.optimize_eq_nil_iff config left).mpr (List.isEmpty_iff.mp hnil)
          have hnested : (h.remainder config r).nested = [] := hready.nested
          refine hkept ?_
          simp [Node.isEmpty, hnone, hnested]
        have hsome : remnant h.declarations r = [.rule { r with declarations := left }] := if_neg hleft
        rw [hsome]
        exact size_rule_le (r := { r with declarations := left }) hslim
  omega

/-- Every holder loses what is counted, and the other nodes stay. -/
theorem size_stripped_le (hthrifty : Property.Thrifty config source) (hnodup : h.declarations.Nodup)
    {between : List Node} {marks : List (Node × Bool)} (hready : AllReady config h.declarations between marks)
    (hknown : AreKnown config source (declarationsOfAll (marks.map Prod.fst))) :
    sizeOfAll (stripped config h marks) + total (lossOf h.declarations) (markedRules marks)
        ≤ sizeOfAll (marks.map Prod.fst) ∧
      AreKnown config source (declarationsOfAll (stripped config h marks)) := by
  induction marks generalizing between with
  | nil => exact ⟨Nat.le_refl _, hknown⟩
  | cons mark marks ih =>
      obtain ⟨node, isMarked⟩ := mark
      simp only [AreKnown, List.map_cons, declarationsOfAll, List.forall_mem_append] at hknown
      obtain ⟨hrest, hknownRest⟩ := ih hready.tail hknown.2
      cases isMarked with
      | false =>
          have hmarked : markedRules ((node, false) :: marks) = markedRules marks := rfl
          simp only [stripped_cons_false, hmarked, List.map_cons, sizeOfAll_cons]
          refine ⟨by omega, ?_⟩
          simp only [AreKnown, declarationsOfAll, List.forall_mem_append]
          exact ⟨hknown.1, hknownRest⟩
      | true =>
          obtain ⟨r, rfl, hr⟩ := hready [] node marks rfl
          have hmarked : markedRules ((.rule r, true) :: marks) = r :: markedRules marks := rfl
          have hleft : AreKnown config source (r.declarations.filter fun d => !h.declarations.contains d) :=
            fun d hd => hknown.1 d (List.mem_filter.mp hd).1
          obtain ⟨hslim, hknownLeft⟩ := hleft.optimize hthrifty
          have hstrip := size_strip_le hr hnodup hslim
          rw [stripped_cons_true, hmarked, List.map_cons, sizeOfAll_append, sizeOfAll_cons, total, Node.print]
          refine ⟨by omega, ?_⟩
          rw [declarationsOfAll_append, strip_rule]
          simp only [AreKnown, List.forall_mem_append]
          refine ⟨?_, hknownRest⟩
          split
          · exact fun d hd => absurd hd List.not_mem_nil
          · rw [declarationsOfAll, declarationsOfAll, List.append_nil]
            exact hknownLeft

/-- A move that pays makes siblings shorter. -/
theorem size_apply_le (hthrifty : Property.Thrifty config source) (hbest : best? config nodes = .ok (some h))
    (hknown : AreKnown config source (declarationsOfAll nodes)) :
    sizeOfAll (h.apply config nodes) ≤ sizeOfAll nodes ∧
      AreKnown config source (declarationsOfAll (h.apply config nodes)) := by
  have hsound := sound_of_best? hbest
  obtain ⟨pairs, -, -, -, -, hgain⟩ := group_of_best? hbest
  obtain ⟨hfirst, -, -⟩ := hsound.exists_first
  obtain ⟨r, hr, hready⟩ := hsound.ready hfirst
  let first := h.holders.headD 0
  have hnodes : nodes.take first ++ (h.marks nodes first).map Prod.fst = nodes := by
    rw [map_fst_marks, List.take_append_drop]
  have hsize : sizeOfAll (nodes.take first) + sizeOfAll ((h.marks nodes first).map Prod.fst) = sizeOfAll nodes := by
    rw [← sizeOfAll_append, hnodes]
  have hboth : AreKnown config source (declarationsOfAll (nodes.take first)) ∧
      AreKnown config source (declarationsOfAll ((h.marks nodes first).map Prod.fst)) := by
    rw [← hnodes, declarationsOfAll_append] at hknown
    exact List.forall_mem_append.mp hknown
  have hmoved : AreKnown config source h.declarations := fun d hd =>
    hknown d (mem_declarationsOfAll.mpr ⟨.rule r, List.mem_of_getElem? hr, hready.subset hd⟩)
  obtain ⟨hslim, hknownRule⟩ := hmoved.optimize hthrifty
  obtain ⟨hstripped, hknownStripped⟩ := size_stripped_le hthrifty hsound.nodup hsound.allReady hboth.2
  have hlost := total_perm (lossOf h.declarations) hsound.rulesAt_perm
  have hrule : byteLength (h.rule config).print
      ≤ byteLength (joined "," h.selectors) + 2 + bodySize h.declarations - 1 := by
    have hle := hslim.bodySize_le
    have hpos := bodySize_pos hsound.nonempty
    rw [Rule.byteLength_print, Rule.byteLength_printBody_of_nested rfl]
    simp only [rule]
    omega
  have hpays : byteLength (joined "," h.selectors) + 2 + bodySize h.declarations - 1
      < total (lossOf h.declarations) (rulesAt nodes h.holders) := by
    simp only [gain?] at hgain
    split at hgain
    · assumption
    · cases hgain
  rw [apply_eq]
  refine ⟨?_, ?_⟩
  · rw [sizeOfAll_append, sizeOfAll_cons, Node.print]
    simp only [first] at hsize
    omega
  · rw [declarationsOfAll_append, declarationsOfAll]
    simp only [AreKnown, List.forall_mem_append]
    exact ⟨hboth.1, hknownRule, hknownStripped⟩

end Hoist

namespace Siblings

open Body Node

variable {config : Config} {source : List Declaration}

/-- What siblings become is no longer, and nothing unknown comes into it. -/
def Shrinks (config : Config) (source : List Declaration) (xs ys : List Node) : Prop :=
  AreKnown config source (declarationsOfAll xs) →
    sizeOfAll ys ≤ sizeOfAll xs ∧ AreKnown config source (declarationsOfAll ys)

theorem areKnown_append {as bs : List Node} : AreKnown config source (declarationsOfAll (as ++ bs)) ↔
    AreKnown config source (declarationsOfAll as) ∧ AreKnown config source (declarationsOfAll bs) := by
  rw [declarationsOfAll_append]
  exact List.forall_mem_append

theorem areKnown_rule {r : Rule} : AreKnown config source (declarationsOfAll [.rule r]) ↔
    AreKnown config source r.declarations := by
  rw [declarationsOfAll, declarationsOfAll, List.append_nil, Node.declarations]

theorem areKnown_rules {r s : Rule} : AreKnown config source (declarationsOfAll [.rule r, .rule s]) ↔
    AreKnown config source (r.declarations ++ s.declarations) := by
  rw [declarationsOfAll, declarationsOfAll, declarationsOfAll, List.append_nil, Node.declarations, Node.declarations]

theorem areKnown_block {head : String} {children : List Node} :
    AreKnown config source (declarationsOfAll [.block head children]) ↔
      AreKnown config source (declarationsOfAll children) := by
  rw [declarationsOfAll, declarationsOfAll, List.append_nil, Node.declarations]

/-- Siblings change their order without a byte more, and those that are left out take their bytes along. -/
theorem shrinks_of_subperm {xs ys : List Node} (h : ys.Subperm xs) : Shrinks config source xs ys := by
  intro hknown
  refine ⟨?_, fun d hd => ?_⟩
  · rw [sizeOfAll_eq_total, sizeOfAll_eq_total]
    exact total_le_of_subperm _ h
  · obtain ⟨node, hnode, hd⟩ := mem_declarationsOfAll.mp hd
    exact hknown d (mem_declarationsOfAll.mpr ⟨node, h.subset hnode, hd⟩)

/-- One rule with the declarations of two takes the place of both. -/
theorem shrinks_joinBodies (hthrifty : Property.Thrifty config source) {r s t : Rule} (hr : r.nested = [])
    (hs : s.nested = []) (ht : t = r ∨ t = s) :
    Shrinks config source [.rule r, .rule s] [.rule { t with declarations := r.bodyWith config s }] := by
  intro hknown
  obtain ⟨hslim, hafter⟩ := (areKnown_rules.mp hknown).optimize hthrifty
  refine ⟨?_, areKnown_rule.mpr hafter⟩
  have hle := hslim.bodySize_le
  have hboth : Hoist.bodySize (r.declarations ++ s.declarations)
      = Hoist.bodySize r.declarations + Hoist.bodySize s.declarations := total_append _ _ _
  have hnested : t.nested = [] := by rcases ht with rfl | rfl <;> assumption
  have hselectors : byteLength (joined "," t.selectors)
      ≤ byteLength (joined "," r.selectors) + byteLength (joined "," s.selectors) := by
    rcases ht with rfl | rfl <;> omega
  simp only [sizeOfAll_cons, Node.print, Rule.byteLength_print, Rule.byteLength_printBody_of_nested hr,
    Rule.byteLength_printBody_of_nested hs,
    Rule.byteLength_printBody_of_nested (r := { t with declarations := r.bodyWith config s }) hnested]
  simp only [Rule.bodyWith]
  omega

/-- One rule with the selectors of two takes the place of both. -/
theorem shrinks_joinSelectors {r s t : Rule} (ht : t = r ∨ t = s) :
    Shrinks config source [.rule r, .rule s] [.rule { t with selectors := r.selectorsWith s }] := by
  intro hknown
  have hall := List.forall_mem_append.mp (areKnown_rules.mp hknown)
  refine ⟨?_, areKnown_rule.mpr (by rcases ht with rfl | rfl; exacts [hall.1, hall.2])⟩
  have hselectors : byteLength (joined "," (r.selectorsWith s))
      ≤ byteLength (joined "," r.selectors) + byteLength (joined "," s.selectors) + 1 := by
    have hle := Selector.total_key_le (fun s => byteLength s + 1) (r.selectors ++ s.selectors)
    rw [total_append] at hle
    have hcomma : byteLength "," = 1 := by decide
    rw [byteLength_joined hcomma, byteLength_joined hcomma, byteLength_joined hcomma, Rule.selectorsWith, Selector.union]
    omega
  have hbody : byteLength t.printBody ≤ byteLength r.printBody + byteLength s.printBody := by
    rcases ht with rfl | rfl <;> omega
  have hsame : byteLength ({ t with selectors := r.selectorsWith s } : Rule).printBody = byteLength t.printBody := rfl
  simp only [sizeOfAll_cons, Node.print, Rule.byteLength_print, hsame]
  omega

/-- No edit makes siblings longer, if no fold takes more bytes than what it is made of. -/
theorem Edit.shrinks (hthrifty : Property.Thrifty config source) {xs ys : List Node} (h : Edit config xs ys) :
    Shrinks config source xs ys := by
  induction h with
  | within before after _ ih =>
      intro hknown
      obtain ⟨hbefore, hmore⟩ := areKnown_append.mp hknown
      obtain ⟨hxs, hafter⟩ := areKnown_append.mp hmore
      obtain ⟨hle, hys⟩ := ih hxs
      refine ⟨?_, areKnown_append.mpr ⟨hbefore, areKnown_append.mpr ⟨hys, hafter⟩⟩⟩
      simp only [sizeOfAll_append]
      omega
  | inside head _ ih =>
      intro hknown
      obtain ⟨hle, hys⟩ := ih (areKnown_block.mp hknown)
      refine ⟨?_, areKnown_block.mpr hys⟩
      simp only [sizeOfAll_singleton, size_block]
      omega
  | sink _ => exact shrinks_of_subperm (List.perm_append_singleton _ _).subperm
  | rise _ => exact shrinks_of_subperm (List.perm_append_singleton _ _).symm.subperm
  | dropRule => exact shrinks_of_subperm (List.sublist_cons_self _ _).subperm
  | dropMedia => exact shrinks_of_subperm (List.sublist_cons_self _ _).subperm
  | dropFont => exact shrinks_of_subperm ((List.sublist_append_left _ _).cons_cons _).subperm
  | dropEmpty => exact shrinks_of_subperm (List.sublist_cons_self _ _).subperm
  | joinBodies hr hs _ ht => exact shrinks_joinBodies hthrifty hr hs ht
  | joinSelectors _ _ _ ht => exact shrinks_joinSelectors ht
  | @joinMedia head cs ds _ =>
      intro hknown
      rw [← List.singleton_append, areKnown_append] at hknown
      obtain ⟨hcs, hds⟩ := hknown
      refine ⟨?_, areKnown_block.mpr (areKnown_append.mpr ⟨areKnown_block.mp hcs, areKnown_block.mp hds⟩)⟩
      simp only [sizeOfAll_cons, size_block, sizeOfAll_append]
      omega
  | hoist hbest => exact fun hknown => Hoist.size_apply_le hthrifty hbest hknown
  | optimizeBody r =>
      intro hknown
      obtain ⟨hslim, hafter⟩ := (areKnown_rule.mp hknown).optimize hthrifty
      exact ⟨size_rule_le hslim, areKnown_rule.mpr hafter⟩
  | minifyBody r =>
      intro hknown
      have hslim : Slim (r.declarations.map (Declaration.minify config.profile)) r.declarations :=
        slim_map fun d _ => d.size_minify_le config.profile
      exact ⟨size_rule_le hslim, areKnown_rule.mpr (areKnown_rule.mp hknown).map_minify⟩
  | optimizeFields head ds =>
      intro hknown
      rw [declarationsOfAll, declarationsOfAll, List.append_nil, Node.declarations] at hknown
      obtain ⟨hslim, hafter⟩ := hknown.optimize hthrifty
      have hle := hslim.bodySize_le
      refine ⟨?_, ?_⟩
      · simp only [sizeOfAll_singleton, Node.print, byteLength_append, Declaration.byteLength_printBody]
        omega
      · rw [declarationsOfAll, declarationsOfAll, List.append_nil, Node.declarations]
        exact hafter

end Siblings

open Siblings in
/-- A run makes no sheet longer, if no fold takes more bytes than the two declarations it is made of. -/
theorem Sheet.size_optimize_le {config : Config} {sheet out : Sheet} (h : Sheet.optimize config sheet = .ok out)
    (hthrifty : Property.Thrifty config (Node.declarationsOfAll sheet)) :
    byteLength out.print ≤ byteLength sheet.print := by
  -- Along the edits of the run the text gets shorter and shorter, and only known declarations come up.
  have hall : Node.sizeOfAll out ≤ Node.sizeOfAll sheet ∧
      Body.AreKnown config (Node.declarationsOfAll sheet) (Node.declarationsOfAll out) := by
    refine (Sheet.edits_optimize h).invariant (P := fun nodes => Node.sizeOfAll nodes ≤ Node.sizeOfAll sheet ∧
      Body.AreKnown config (Node.declarationsOfAll sheet) (Node.declarationsOfAll nodes)) ?_
      ⟨Nat.le_refl _, Body.areKnown_source config _⟩
    intro xs ys hedit hxs
    obtain ⟨hle, hknown⟩ := hedit.shrinks hthrifty hxs.2
    exact ⟨hle.trans hxs.1, hknown⟩
  exact hall.1

/-- Values are shortened, a rule is merged with a distant one, and a shared declaration moves into a rule of its
own. -/
theorem Sheet.size_optimize_le_shared :
    let wraps : Declaration := { name := "white-space", value := ["pre-wrap"] }
    let color (shade : String) : Declaration := { name := "color", value := [shade] }
    let top (length : String) : Declaration := { name := "top", value := [length] }
    let config : Config := { options := { mergeMedia := false, restructureRules := true } }
    let sheet : Sheet := [.rule { selectors := ["a"], declarations := [wraps, color "#FF0000", top "0px"] },
      .rule { selectors := ["b"], declarations := [wraps, top "1.0px"] },
      .rule { selectors := ["a"], declarations := [top "2px"] }]
    let out : Sheet := [.rule { selectors := ["a", "b"], declarations := [wraps] },
      .rule { selectors := ["b"], declarations := [top "1px"] },
      .rule { selectors := ["a"], declarations := [color "red", top "2px"] }]
    Sheet.optimize config sheet = .ok out ∧ byteLength out.print ≤ byteLength sheet.print := by
  intro wraps color top config sheet out
  have hrun : Sheet.optimize config sheet = .ok out := by decide +kernel
  refine ⟨hrun, Sheet.size_optimize_le hrun ?_⟩
  exact Property.thrifty_of_names ["white-space", "color", "top"] (by decide) (by decide +kernel) (by decide +kernel)

/-- The value of a margin of which one side is set again stands there twice. -/
theorem Sheet.size_optimize_folded :
    let margin (sides : Value) : Declaration := { name := "margin", value := sides }
    let config : Config := { options := { mergeMedia := false } }
    let sheet : Sheet := [.rule
      { selectors := ["a"], declarations := [margin ["123456789px"], { name := "margin-top", value := ["0"] }] }]
    let out : Sheet := [.rule
      { selectors := ["a"], declarations := [margin ["0", "123456789px", "123456789px"]] }]
    Sheet.optimize config sheet = .ok out ∧ byteLength sheet.print = 34 ∧ byteLength out.print = 35 := by
  decide +kernel

end CssMinify
