import CssMinify.Optimizer
import CssMinify.Proofs.Effect.Body
import CssMinify.Proofs.Stability.Bodies
import Mathlib.Data.List.Forall2
import Mathlib.Logic.Function.Iterate

/-! What a sheet defines by name, animations and fonts, and where. Of several definitions of one name the last
one counts, so it matters in what order they stand. A run optimizes a definition some number of times and may
take what is empty out of it; the two commute, so definitions that have one origin can always be brought
together again. -/

namespace CssMinify

namespace Text

theorem occursIn_of_infix {needle cs : List Char} (h : needle <:+: cs) : occursIn needle cs = true := by
  induction cs with
  | nil =>
      rw [List.infix_nil.mp h]
      rfl
  | cons c cs ih =>
      rw [occursIn, Bool.or_eq_true, List.isPrefixOf_iff_prefix]
      exact (List.infix_cons_iff.mp h).imp id ih

end Text

namespace Node

section Heads

/-- The head of a block that defines an animation: `@keyframes`, with the prefix of a vendor or without, and a
name after it. -/
def isAnimationHead (head : String) : Bool :=
  let keyword := (Text.lower head).toList.takeWhile (!Text.isBlank ·)
  keyword == "@keyframes".toList ||
    "@-".toList.isPrefixOf keyword && "-keyframes".toList.isSuffixOf keyword

/-- The head of a block for media. -/
def isMediaHead (head : String) : Bool := Text.startsWith (Text.lower head) "@media"

theorem isSome_media? (head : String) (children : List Node) :
    (block head children).media?.isSome = isMediaHead head := by
  simp only [media?, isMediaHead]
  split <;> simp_all

variable {head : String}

theorem isKeyframesHead_of_isAnimationHead (h : isAnimationHead head = true) : isKeyframesHead head = true := by
  have hkeyword : (Text.lower head).toList.takeWhile (!Text.isBlank ·) <:+: (Text.lower head).toList :=
    (List.takeWhile_prefix _).isInfix
  simp only [isAnimationHead, Bool.or_eq_true, Bool.and_eq_true, beq_iff_eq, List.isSuffixOf_iff_suffix] at h
  apply Text.occursIn_of_infix
  refine List.IsInfix.trans ?_ hkeyword
  rcases h with h | ⟨-, h⟩
  · rw [h]
    exact ⟨['@'], [], rfl⟩
  · have hname : "keyframes".toList <:+ "-keyframes".toList := ⟨['-'], rfl⟩
    exact (hname.trans h).isInfix

theorem isMediaHead_of_isAnimationHead (h : isAnimationHead head = true) : isMediaHead head = false := by
  have hkeyword : (Text.lower head).toList.takeWhile (!Text.isBlank ·) <+: (Text.lower head).toList :=
    List.takeWhile_prefix _
  simp only [isAnimationHead, Bool.or_eq_true, Bool.and_eq_true, beq_iff_eq, List.isPrefixOf_iff_prefix] at h
  apply Bool.eq_false_iff.mpr
  intro hmedia
  rw [isMediaHead, Text.startsWith, List.isPrefixOf_iff_prefix] at hmedia
  obtain ⟨rest, hrest⟩ := hmedia
  rcases h with h | ⟨h, -⟩
  · rw [h, ← hrest] at hkeyword
    simp at hkeyword
  · have hdash := h.trans hkeyword
    rw [← hrest] at hdash
    simp at hdash

end Heads

section Pruning

mutual

theorem isEmpty_pruned : ∀ node : Node, node.pruned.isEmpty = node.isEmpty
  | block head children => by
      rw [pruned, isEmpty, isEmpty, allEmpty_prunedAll children]
  | rule r | fields head ds | statement text | comment text => rfl

theorem allEmpty_prunedAll : ∀ nodes : List Node, allEmpty (prunedAll nodes) = allEmpty nodes
  | [] => rfl
  | node :: rest => by
      have hnode := isEmpty_pruned node
      have hrest := allEmpty_prunedAll rest
      rw [prunedAll, allEmpty, ← hnode, ← hrest]
      split
      · next hempty => rw [hempty, Bool.true_and]
      · rw [allEmpty]

end

mutual

theorem pruned_pruned : ∀ node : Node, node.pruned.pruned = node.pruned
  | block head children => by
      rw [pruned, pruned, prunedAll_prunedAll children]
  | rule r | fields head ds | statement text | comment text => rfl

theorem prunedAll_prunedAll : ∀ nodes : List Node, prunedAll (prunedAll nodes) = prunedAll nodes
  | [] => rfl
  | node :: rest => by
      have hrest := prunedAll_prunedAll rest
      rw [prunedAll]
      split
      · exact hrest
      · next hempty => rw [prunedAll, pruned_pruned node, if_neg hempty, hrest]

end

variable (config : Config)

theorem isEmpty_optimizeFrame (node : Node) : (node.optimizeFrame config).isEmpty = node.isEmpty := by
  cases node with
  | rule r =>
      have hbody : (Body.optimize config r.declarations).isEmpty = r.declarations.isEmpty := by
        rw [Bool.eq_iff_iff, List.isEmpty_iff, List.isEmpty_iff]
        exact Body.optimize_eq_nil_iff config r.declarations
      rw [optimizeFrame, isEmpty, isEmpty, hbody]
  | _ => rfl

theorem allEmpty_map_optimizeFrame (nodes : List Node) :
    allEmpty (nodes.map (optimizeFrame config)) = allEmpty nodes := by
  induction nodes with
  | nil => rfl
  | cons node nodes ih => rw [List.map_cons, allEmpty, allEmpty, isEmpty_optimizeFrame, ih]

theorem pruned_optimizeFrame (node : Node) : (node.optimizeFrame config).pruned = node.pruned.optimizeFrame config := by
  cases node with
  | block head children => rw [optimizeFrame, pruned, optimizeFrame] <;> simp
  | _ => rfl

theorem prunedAll_map_optimizeFrame (nodes : List Node) :
    prunedAll (nodes.map (optimizeFrame config)) = (prunedAll nodes).map (optimizeFrame config) := by
  induction nodes with
  | nil => rfl
  | cons node nodes ih =>
      rw [List.map_cons, prunedAll, prunedAll, pruned_optimizeFrame, isEmpty_optimizeFrame, ih]
      split
      · rfl
      · rw [List.map_cons]

end Pruning

end Node

/-- What takes effect by its name. -/
inductive Definition where
  /-- An animation, with the head that names it. -/
  | frames (head : String) (children : List Node)
  /-- A description of a font. -/
  | face (declarations : List Declaration)
  deriving DecidableEq

namespace Definition

/-- What a definition defines: the animation that its head names, or a font family. -/
inductive Name where
  | animation (head : String)
  | family (value : Setting)
  deriving DecidableEq

/-- The family that a description of a font is for. -/
def family? (config : Config) (declarations : List Declaration) : Option Setting :=
  (Body.effective? config.profile (fun d => d.hack == .none)
    (declarations.map (Declaration.minify config.profile)) "font-family").map Setting.settled

/-- What a definition defines, if anything. Where empty nodes are dropped, an animation without frames is as good
as none. -/
def name? (config : Config) : Definition → Option Name
  | frames head children =>
    if config.options.removeEmpty && Node.allEmpty children then none else some (.animation head)
  | face declarations => (family? config declarations).map .family

/-- A definition with its bodies optimized. -/
def optimize (config : Config) : Definition → Definition
  | frames head children => frames head (children.map (Node.optimizeFrame config))
  | face declarations => face (Body.optimize config declarations)

/-- A definition without empty frames. -/
def pruned : Definition → Definition
  | frames head children => frames head (Node.prunedAll children)
  | face declarations => face declarations

/-- The text of a description of a font. -/
def text? : Definition → Option String
  | frames _ _ => none
  | face declarations => some (Declaration.printBody declarations)

variable {config : Config} {a b c d e : Definition}

theorem pruned_pruned (d : Definition) : d.pruned.pruned = d.pruned := by
  cases d with
  | frames head children => rw [pruned, pruned, Node.prunedAll_prunedAll]
  | face declarations => rfl

theorem commute_pruned (config : Config) : Function.Commute pruned (optimize config) := by
  intro d
  cases d with
  | frames head children => simp only [optimize, pruned, Node.prunedAll_map_optimizeFrame]
  | face declarations => rfl

theorem pruned_iterate (n : Nat) (d : Definition) :
    ((optimize config)^[n] d).pruned = (optimize config)^[n] d.pruned :=
  (commute_pruned config).iterate_right n d

section Names

theorem family?_optimize (config : Config) (declarations : List Declaration) :
    family? config (Body.optimize config declarations) = family? config declarations := by
  have hshort : (Body.optimize config declarations).map (Declaration.minify config.profile)
      = Body.optimize config declarations := by
    apply (List.map_congr_left (Body.isMinified_optimize config declarations)).trans
    exact List.map_id' _
  have hsettled (ds : List Declaration) := Body.effective?_settled config.profile (· == Hack.none) "font-family" ds
  rw [family?, family?, hshort, hsettled, hsettled, Body.settledWinner_optimize]

theorem name?_optimize (d : Definition) : (d.optimize config).name? config = d.name? config := by
  cases d with
  | frames head children => rw [optimize, name?, name?, Node.allEmpty_map_optimizeFrame]
  | face declarations => rw [optimize, name?, name?, family?_optimize]

theorem name?_pruned (d : Definition) : d.pruned.name? config = d.name? config := by
  cases d with
  | frames head children => rw [pruned, name?, name?, Node.allEmpty_prunedAll]
  | face declarations => rfl

theorem name?_iterate (n : Nat) (d : Definition) : ((optimize config)^[n] d).name? config = d.name? config := by
  induction n generalizing d with
  | zero => rfl
  | succ n ih => rw [Function.iterate_succ_apply, ih, name?_optimize]

end Names

/-- Two definitions are the same up to optimizing bodies, some number of times, and dropping empty frames. -/
def Alike (config : Config) (d e : Definition) : Prop :=
  ∃ m n, ((optimize config)^[m] d).pruned = ((optimize config)^[n] e).pruned

namespace Alike

theorem refl (d : Definition) : Alike config d d := ⟨0, 0, rfl⟩

theorem symm (h : Alike config d e) : Alike config e d := by
  obtain ⟨m, n, h⟩ := h
  exact ⟨n, m, h.symm⟩

theorem trans (h : Alike config c d) (h' : Alike config d e) : Alike config c e := by
  obtain ⟨k, l, h⟩ := h
  obtain ⟨m, n, h'⟩ := h'
  refine ⟨m + k, l + n, ?_⟩
  -- Both meet in what is left of the middle one after it has been optimized as often as in both together.
  calc ((optimize config)^[m + k] c).pruned
      = (optimize config)^[m] ((optimize config)^[k] c).pruned := by
        rw [Function.iterate_add_apply, pruned_iterate]
    _ = ((optimize config)^[m + l] d).pruned := by rw [h, ← pruned_iterate, ← Function.iterate_add_apply]
    _ = (optimize config)^[l] ((optimize config)^[m] d).pruned := by
        rw [Nat.add_comm, Function.iterate_add_apply, pruned_iterate]
    _ = ((optimize config)^[l + n] e).pruned := by rw [h', ← pruned_iterate, ← Function.iterate_add_apply]

theorem name?_eq (h : Alike config d e) : d.name? config = e.name? config := by
  obtain ⟨m, n, h⟩ := h
  have hname := congrArg (name? config) h
  rwa [name?_pruned, name?_pruned, name?_iterate, name?_iterate] at hname

end Alike

/-- Definitions that optimizing leaves as they are are alike only if their frames are the same. -/
theorem not_alike_of_fixed (hd : d.optimize config = d) (he : e.optimize config = e) (h : d.pruned ≠ e.pruned) :
    ¬ Alike config d e := by
  rintro ⟨m, n, halike⟩
  rw [Function.iterate_fixed hd, Function.iterate_fixed he] at halike
  exact h halike

/-- A definition is another one after some optimizing, perhaps without its empty frames. -/
def StemsFrom (config : Config) (e d : Definition) : Prop :=
  ∃ n, e = (optimize config)^[n] d ∨ e = ((optimize config)^[n] d).pruned

namespace StemsFrom

theorem refl (d : Definition) : StemsFrom config d d := ⟨0, .inl rfl⟩

theorem optimized (d : Definition) : StemsFrom config (d.optimize config) d := ⟨1, .inl rfl⟩

theorem pruned (d : Definition) : StemsFrom config d.pruned d := ⟨0, .inr rfl⟩

theorem trans (h : StemsFrom config e d) (h' : StemsFrom config d c) : StemsFrom config e c := by
  obtain ⟨m, h⟩ := h
  obtain ⟨n, h'⟩ := h'
  refine ⟨m + n, ?_⟩
  rw [Function.iterate_add_apply]
  rcases h' with rfl | rfl
  · exact h
  · right
    rw [← pruned_iterate] at h
    rw [pruned_pruned] at h
    exact h.elim id id

theorem alike (h : StemsFrom config e d) : Alike config e d := by
  obtain ⟨n, rfl | rfl⟩ := h
  · exact ⟨0, n, rfl⟩
  · exact ⟨0, n, pruned_pruned _⟩

end StemsFrom

/-- At some time the one has the text that the other has at some time, if both describe fonts. -/
def SharesText (config : Config) (d e : Definition) : Prop :=
  ∃ m n text, ((optimize config)^[m] d).text? = some text ∧ ((optimize config)^[n] e).text? = some text

theorem SharesText.symm (h : SharesText config d e) : SharesText config e d := by
  obtain ⟨m, n, text, hm, hn⟩ := h
  exact ⟨n, m, text, hn, hm⟩

theorem text?_iterate_of_stemsFrom (h : StemsFrom config e d) (m : Nat) :
    ∃ n, ((optimize config)^[m] e).text? = ((optimize config)^[n] d).text? := by
  obtain ⟨n, rfl | rfl⟩ := h
  · exact ⟨m + n, by rw [Function.iterate_add_apply]⟩
  · refine ⟨m + n, ?_⟩
    rw [← pruned_iterate, ← Function.iterate_add_apply]
    cases (optimize config)^[m + n] d <;> rfl

theorem SharesText.of_stemsFrom (hd : StemsFrom config d a) (he : StemsFrom config e b) (h : SharesText config d e) :
    SharesText config a b := by
  obtain ⟨m, n, text, hm, hn⟩ := h
  obtain ⟨m', hm'⟩ := text?_iterate_of_stemsFrom hd m
  obtain ⟨n', hn'⟩ := text?_iterate_of_stemsFrom he n
  exact ⟨m', n', text, hm' ▸ hm, hn' ▸ hn⟩

theorem text?_iterate_frames (n : Nat) (head : String) (children : List Node) :
    ((optimize config)^[n] (.frames head children)).text? = none := by
  induction n generalizing children with
  | zero => rfl
  | succ n ih => exact ih (children.map (Node.optimizeFrame config))

/-- Only descriptions of fonts have a text. -/
theorem not_sharesText_frames (d : Definition) (head : String) (children : List Node) :
    ¬ SharesText config d (.frames head children) := by
  rintro ⟨m, n, text, -, hn⟩
  rw [text?_iterate_frames] at hn
  cases hn

end Definition

/-- A definition and the heads of the blocks around it, from the outside in. -/
structure Placed where
  place : List String
  definition : Definition
  deriving DecidableEq

namespace Placed

/-- The same inside one more block. -/
def under (head : String) (p : Placed) : Placed := { p with place := head :: p.place }

/-- One definition stems from another in the same place. -/
structure StemsFrom (config : Config) (p q : Placed) : Prop where
  place : p.place = q.place
  definition : p.definition.StemsFrom config q.definition

variable {config : Config} {p q r : Placed}

instance : Std.Refl (StemsFrom config) := ⟨fun p => ⟨rfl, .refl p.definition⟩⟩

instance : IsTrans Placed (StemsFrom config) :=
  ⟨fun _ _ _ h h' => ⟨h.place.trans h'.place, h.definition.trans h'.definition⟩⟩

theorem StemsFrom.under (head : String) (h : StemsFrom config p q) : StemsFrom config (p.under head) (q.under head) :=
  ⟨congrArg (head :: ·) h.place, h.definition⟩

end Placed

namespace Node

/-- The animation that a block defines. -/
def ownFrames (head : String) (children : List Node) : List Placed :=
  if isAnimationHead head then [⟨[], .frames head children⟩] else []

mutual

/-- What a node defines, in the order of the sheet. Only blocks whose head is `active` are entered. -/
def definitions (active : String → Bool) : Node → List Placed
  | block head children =>
    ownFrames head children ++
      if active head then (definitionsOfAll active children).map (Placed.under head) else []
  | fields head declarations =>
    if Text.sameFolded head "@font-face" then [⟨[], .face declarations⟩] else []
  | rule _ | statement _ | comment _ => []

def definitionsOfAll (active : String → Bool) : List Node → List Placed
  | [] => []
  | node :: rest => node.definitions active ++ definitionsOfAll active rest

end

theorem definitionsOfAll_append (active : String → Bool) (as bs : List Node) :
    definitionsOfAll active (as ++ bs) = definitionsOfAll active as ++ definitionsOfAll active bs := by
  induction as with
  | nil => rfl
  | cons a as ih => rw [List.cons_append, definitionsOfAll, definitionsOfAll, ih, List.append_assoc]

theorem definitionsOfAll_singleton (active : String → Bool) (node : Node) :
    definitionsOfAll active [node] = node.definitions active := by
  rw [definitionsOfAll, definitionsOfAll, List.append_nil]

/-- What is defined inside a block is defined in one that has its head. -/
theorem exists_block_of_place_eq {active : String → Bool} {nodes : List Node} {p : Placed}
    (hp : p ∈ definitionsOfAll active nodes) {head : String} {place : List String} (hplace : p.place = head :: place) :
    ∃ children, .block head children ∈ nodes := by
  induction nodes with
  | nil => cases hp
  | cons node nodes ih =>
      rw [definitionsOfAll, List.mem_append] at hp
      rcases hp with hp | hp
      · cases node with
        | block head' children =>
            rw [definitions, List.mem_append] at hp
            rcases hp with hp | hp
            · rw [ownFrames] at hp
              split at hp
              · cases List.mem_singleton.mp hp
                cases hplace
              · cases hp
            · split at hp
              · obtain ⟨q, -, rfl⟩ := List.mem_map.mp hp
                cases hplace
                exact ⟨children, List.mem_cons_self⟩
              · cases hp
        | fields head' declarations =>
            rw [definitions] at hp
            split at hp
            · cases List.mem_singleton.mp hp
              cases hplace
            · cases hp
        | rule r => cases hp
        | statement text => cases hp
        | comment text => cases hp
      · obtain ⟨children, hmem⟩ := ih hp
        exact ⟨children, List.mem_cons_of_mem node hmem⟩

/-- What a count of the children of blocks with this head gives for a node. -/
def countUnder (head : String) (count : List Node → Nat) : Node → Nat
  | block head' children => if head' = head then count children else 0
  | _ => 0

/-- How many blocks have the last of these heads and stand inside blocks with the others, from the outside in. -/
def blockCount : List String → List Node → Nat
  | [], _ => 1
  | head :: place, nodes => total (countUnder head (blockCount place)) nodes

theorem blockCount_cons_nil (head : String) (place : List String) : blockCount (head :: place) [] = 0 := rfl

theorem blockCount_cons_cons (head : String) (place : List String) (node : Node) (nodes : List Node) :
    blockCount (head :: place) (node :: nodes)
      = countUnder head (blockCount place) node + blockCount (head :: place) nodes := rfl

theorem blockCount_cons_append (head : String) (place : List String) (as bs : List Node) :
    blockCount (head :: place) (as ++ bs) = blockCount (head :: place) as + blockCount (head :: place) bs :=
  total_append _ as bs

theorem blockCount_append_le (place : List String) (as bs : List Node) :
    blockCount place (as ++ bs) ≤ blockCount place as + blockCount place bs := by
  cases place with
  | nil => exact Nat.le_succ 1
  | cons head place => exact (blockCount_cons_append head place as bs).le

end Node

namespace Siblings

/-- The definitions of a name, in the order of the sheet. -/
def named (config : Config) (active : String → Bool) (name : Definition.Name) (nodes : List Node) : List Placed :=
  (Node.definitionsOfAll active nodes).filter fun p => p.definition.name? config = some name

/-- The definition of a name that counts. -/
def lastNamed? (config : Config) (active : String → Bool) (name : Definition.Name) (nodes : List Node) :
    Option Definition :=
  (named config active name nodes).getLast?.map Placed.definition

section Named

variable {config : Config} {active : String → Bool} {name : Definition.Name}

theorem named_append (as bs : List Node) :
    named config active name (as ++ bs) = named config active name as ++ named config active name bs := by
  rw [named, named, named, Node.definitionsOfAll_append, List.filter_append]

theorem named_cons (node : Node) (nodes : List Node) :
    named config active name (node :: nodes) = named config active name [node] ++ named config active name nodes :=
  named_append [node] nodes

theorem mem_named {nodes : List Node} {p : Placed} : p ∈ named config active name nodes ↔
    p ∈ Node.definitionsOfAll active nodes ∧ p.definition.name? config = some name := by
  rw [named, List.mem_filter, decide_eq_true_iff]

/-- Inside a block stands what stands among its children, if it is entered. -/
theorem named_block (head : String) (children : List Node) :
    named config active name [.block head children] =
      ((Node.ownFrames head children).filter fun p => p.definition.name? config = some name) ++
      if active head then (named config active name children).map (Placed.under head) else [] := by
  rw [named, Node.definitionsOfAll_singleton, Node.definitions, List.filter_append]
  congr 1
  split
  · rw [named, List.filter_map]
    rfl
  · rfl

end Named

end Siblings

end CssMinify
