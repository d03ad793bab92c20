import CssMinify.Proofs.Codec.Line

/-!
Lines that are said again, without the parts that have their initial values. A token that fits the width or the style,
but was taken for the color since the part that it fits had been found before, is taken for the color again only if
that part is said too.
-/

namespace CssMinify

namespace Split

namespace Line

variable {profile : Profile} {line : Line} {width style : Option String} {token initial : String}

/-- The color is taken for the color again: if it fits a part, that part is said as well, and if the color comes
first, that part is the same token. -/
structure Retakes (profile : Profile) (colorFirst : Prop) (line : Line) : Prop where
  width : ∀ color ∈ line.color, Word.isBorderWidth profile color = true →
    ∃ width ∈ line.width, width ≠ "medium" ∧ (colorFirst → width = color)
  style : ∀ color ∈ line.color, Word.isBorderStyle color = true →
    ∃ style ∈ line.style, style ≠ "none" ∧ (colorFirst → style = color)

theorem add_width (hnone : line.width = none) (h : Word.isBorderWidth profile token = true) :
    line.add profile token = { line with width := some token } := by
  rw [add, hnone, h]
  rfl

theorem add_style (hnone : line.style = none) (h : Word.isBorderStyle token = true) :
    line.add profile token = { line with style := some token } := by
  have hwidth : Word.isBorderWidth profile token = false := Word.isBorderWidth_of_isBorderStyle h
  rw [add, hwidth, Bool.and_false, hnone, h]
  rfl

/-- A token for which there is no room. -/
theorem add_of_taken (hwidth : Word.isBorderWidth profile token = true → line.width ≠ none)
    (hstyle : Word.isBorderStyle token = true → line.style ≠ none) (hcolor : Word.isColor token = false) :
    line.add profile token = { line with others := line.others ++ [token] } := by
  have hnowidth : (line.width.isNone && Word.isBorderWidth profile token) = false := by
    simpa using fun hnone hkind => hwidth hkind hnone
  have hnostyle : (line.style.isNone && Word.isBorderStyle token) = false := by
    simpa using fun hnone hkind => hstyle hkind hnone
  rw [add, hnowidth, hnostyle, hcolor, Bool.and_false]
  rfl

theorem foldl_width (hnone : line.width = none) (h : ∀ token ∈ width, Word.isBorderWidth profile token = true) :
    width.toList.foldl (Line.add profile) line = { line with width } := by
  cases width with
  | none => rw [Option.toList_none, List.foldl_nil, ← hnone]
  | some token => exact add_width hnone (h token rfl)

theorem foldl_style (hnone : line.style = none) (h : ∀ token ∈ style, Word.isBorderStyle token = true) :
    style.toList.foldl (Line.add profile) line = { line with style } := by
  cases style with
  | none => rw [Option.toList_none, List.foldl_nil, ← hnone]
  | some token => exact add_style hnone (h token rfl)

/-- The last token of a line without a color. -/
theorem closed?_add (hcolor : line.color = none) (hothers : line.others = []) (token : String) :
    (line.add profile token).closed?
      = some (if line.width.isNone && Word.isBorderWidth profile token then { line with width := some token }
          else if line.style.isNone && Word.isBorderStyle token then { line with style := some token }
          else { line with color := some token }) := by
  obtain ⟨width, style, color, others⟩ := line
  cases hcolor
  cases hothers
  rw [add]
  split_ifs <;> rfl

/-- A token that fits neither the width nor the style. -/
theorem read?_singleton (hwidth : Word.isBorderWidth profile token = false)
    (hstyle : Word.isBorderStyle token = false) :
    read? profile [token] = some { color := some token } := by
  rw [read?, List.foldl_cons, List.foldl_nil, closed?_add rfl rfl, hwidth, hstyle]
  rfl

theorem read?_colorLast (hwidth : ∀ token ∈ width, Word.isBorderWidth profile token = true)
    (hstyle : ∀ token ∈ style, Word.isBorderStyle token = true) (token : String) :
    read? profile (width.toList ++ (style.toList ++ [token]))
      = some (if width.isNone && Word.isBorderWidth profile token then { width := some token, style }
          else if style.isNone && Word.isBorderStyle token then { width, style := some token }
          else { width, style, color := some token }) := by
  rw [read?, List.foldl_append, foldl_width rfl hwidth, List.foldl_append, foldl_style rfl hstyle]
  exact closed?_add rfl rfl token

/-- A width or a style that comes first takes the place of the one behind it. -/
theorem read?_colorFirst (hwidth : ∀ token ∈ width, Word.isBorderWidth profile token = true)
    (hstyle : ∀ token ∈ style, Word.isBorderStyle token = true) (token : String) :
    read? profile (token :: (style.toList ++ width.toList))
      = some (if Word.isBorderWidth profile token then { width := some token, style, color := width }
          else if Word.isBorderStyle token then { width, style := some token, color := style }
          else { width, style, color := some token }) := by
  rw [read?, List.foldl_cons, List.foldl_append]
  by_cases htoken : Word.isBorderWidth profile token = true
  · rw [if_pos htoken, add_width rfl htoken, foldl_style rfl hstyle]
    cases width with
    | none => rfl
    | some width =>
        have hkind := hwidth width rfl
        rw [Option.toList_some, List.foldl_cons, add_of_taken (fun _ => Option.some_ne_none _)
          (by simp [Word.isBorderStyle_of_isBorderWidth hkind]) (Word.isColor_of_isBorderWidth hkind)]
        rfl
  rw [if_neg htoken]
  by_cases htoken' : Word.isBorderStyle token = true
  · rw [if_pos htoken', add_style rfl htoken']
    cases style with
    | none => rw [Option.toList_none, List.foldl_nil, foldl_width rfl hwidth]; rfl
    | some style =>
        have hkind := hstyle style rfl
        rw [Option.toList_some, List.foldl_cons, add_of_taken (by simp [Word.isBorderWidth_of_isBorderStyle hkind])
          (fun _ => Option.some_ne_none _) (Word.isColor_of_isBorderStyle hkind), List.foldl_nil,
          foldl_width rfl hwidth]
        rfl
  rw [if_neg htoken']
  cases hcolor : Word.isColor token with
  | true =>
      have hadd : add profile {} token = { color := some token } := by simp [add, htoken, htoken', hcolor]
      rw [hadd, foldl_style rfl hstyle, foldl_width rfl hwidth]
      rfl
  | false =>
      rw [add_of_taken (absurd · htoken) (absurd · htoken') hcolor, foldl_style rfl hstyle, foldl_width rfl hwidth]
      rfl

/-- What of a line has to be said, if this is the initial color. -/
def needed (initial : String) (line : Line) : Line where
  width := line.width.filter (· != "medium")
  style := line.style.filter (· != "none")
  color := line.color.filter (· != initial)

/-- The tokens of a line as they are put together. -/
def said (colorFirst : Bool) (line : Line) : Value :=
  if colorFirst then line.color.toList ++ (line.style.toList ++ line.width.toList)
  else line.width.toList ++ (line.style.toList ++ line.color.toList)

/-- Two lines with the same values. -/
def Agrees (initial : String) (line found : Line) : Prop :=
  found.width.getD "medium" = line.width.getD "medium" ∧ found.style.getD "none" = line.style.getD "none" ∧
    found.color.getD initial = line.color.getD initial

theorem getD_filter (found : Option String) (word : String) :
    (found.filter (· != word)).getD word = found.getD word := by
  cases found with
  | none => rfl
  | some token => by_cases h : token = word <;> simp [h, Option.filter_some]

theorem agrees_needed (line found : Line) : Agrees initial (line.needed initial) found ↔ Agrees initial line found := by
  simp only [Agrees, needed, getD_filter]

theorem read?_said (hwidth : ∀ token ∈ width, Word.isBorderWidth profile token = true)
    (hstyle : ∀ token ∈ style, Word.isBorderStyle token = true) (colorFirst : Bool) :
    read? profile (said colorFirst { width, style }) = some { width, style } := by
  rw [read?, said]
  split
  · rw [Option.toList_none, List.nil_append, List.foldl_append, foldl_style rfl hstyle, foldl_width rfl hwidth]
    rfl
  · rw [Option.toList_none, List.append_nil, List.foldl_append, foldl_width rfl hwidth, foldl_style rfl hstyle]
    rfl

/-- A line that is said with its color behind the other parts. -/
theorem agrees_colorLast (hwidth : ∀ token ∈ width, Word.isBorderWidth profile token = true)
    (hstyle : ∀ token ∈ style, Word.isBorderStyle token = true) (htoken : token ≠ initial) :
    (∃ found, read? profile (width.toList ++ (style.toList ++ [token])) = some found ∧
        Agrees initial { width, style, color := some token } found)
      ↔ (Word.isBorderWidth profile token = true → width ≠ none) ∧
        (Word.isBorderStyle token = true → style ≠ none) := by
  rw [read?_colorLast hwidth hstyle]
  simp only [Option.some.injEq, exists_eq_left', Bool.and_eq_true, Option.isNone_iff_eq_none]
  split_ifs with htaken htaken'
  · simp [Agrees, htaken, Ne.symm htoken]
  · simp [Agrees, htaken', Ne.symm htoken]
  · simp only [Agrees, true_and, true_iff]
    exact ⟨fun hkind hnone => htaken ⟨hnone, hkind⟩, fun hkind hnone => htaken' ⟨hnone, hkind⟩⟩

/-- A line that is said with its color in front of the other parts. -/
theorem agrees_colorFirst (hwidth : ∀ token ∈ width, Word.isBorderWidth profile token = true)
    (hstyle : ∀ token ∈ style, Word.isBorderStyle token = true) (htoken : token ≠ initial) :
    (∃ found, read? profile (token :: (style.toList ++ width.toList)) = some found ∧
        Agrees initial { width, style, color := some token } found)
      ↔ (Word.isBorderWidth profile token = true → width = some token) ∧
        (Word.isBorderStyle token = true → style = some token) := by
  rw [read?_colorFirst hwidth hstyle]
  simp only [Option.some.injEq, exists_eq_left']
  split_ifs with htaken htaken'
  · have hnot := Word.isBorderStyle_of_isBorderWidth htaken
    cases width <;> simp [Agrees, htaken, hnot, Ne.symm htoken, eq_comm]
  · cases style <;> simp [Agrees, htaken, htaken', Ne.symm htoken, eq_comm]
  · simp [Agrees, htaken, htaken']

/-- Whether the color is taken again shows in what has to be said. -/
theorem retakes_iff_of_needed {colorFirst : Prop} (hcolor : (line.needed initial).color = some token) :
    line.Retakes profile colorFirst ↔
      (Word.isBorderWidth profile token = true →
        ∃ width, (line.needed initial).width = some width ∧ (colorFirst → width = token)) ∧
      (Word.isBorderStyle token = true →
        ∃ style, (line.needed initial).style = some style ∧ (colorFirst → style = token)) := by
  have hmem : line.color = some token := (Option.filter_eq_some_iff.mp hcolor).1
  have hsaid (found : Option String) (word : String) :
      (∃ part, found.filter (· != word) = some part ∧ (colorFirst → part = token))
        ↔ ∃ part ∈ found, part ≠ word ∧ (colorFirst → part = token) := by
    simp only [Option.filter_eq_some_iff, bne_iff_ne, and_assoc, Option.mem_def]
  simp only [needed, hsaid]
  constructor
  · exact fun h => ⟨h.width token hmem, h.style token hmem⟩
  · rintro ⟨hwidth, hstyle⟩
    constructor <;> intro color hcolor <;> cases hmem.symm.trans hcolor
    · exact hwidth
    · exact hstyle

/-- A line survives if its color is taken again. -/
theorem agrees_said_iff (hline : line.Closed profile)
    (hinitial : Word.isBorderWidth profile initial = false ∧ Word.isBorderStyle initial = false) (colorFirst : Bool) :
    (∃ found, read? profile ((line.needed initial).said colorFirst) = some found ∧ Agrees initial line found)
      ↔ line.Retakes profile (colorFirst = true) := by
  have hwidth : ∀ token ∈ (line.needed initial).width, Word.isBorderWidth profile token = true :=
    fun token ht => hline.width token (Layer.of_mem_filter ht)
  have hstyle : ∀ token ∈ (line.needed initial).style, Word.isBorderStyle token = true :=
    fun token ht => hline.style token (Layer.of_mem_filter ht)
  simp only [← agrees_needed line]
  cases hcolor : (line.needed initial).color with
  | none =>
      have hneeded : line.needed initial
          = { width := (line.needed initial).width, style := (line.needed initial).style } := by
        rw [← hcolor]
        rfl
      have hread := read?_said hwidth hstyle colorFirst
      rw [← hneeded] at hread
      refine iff_of_true ⟨_, hread, rfl, rfl, rfl⟩ ?_
      have hcolors : ∀ color ∈ line.color, color = initial := by
        simpa [needed, Option.filter_eq_none_iff] using hcolor
      constructor <;> intro color hmem hkind <;> rw [hcolors color hmem] at hkind <;> simp [hinitial] at hkind
  | some token =>
      have hne : token ≠ initial := by simpa using (Option.filter_eq_some_iff.mp hcolor).2
      have hneeded : line.needed initial
          = { width := (line.needed initial).width, style := (line.needed initial).style, color := some token } := by
        rw [← hcolor]
        rfl
      rw [retakes_iff_of_needed hcolor, hneeded]
      cases colorFirst with
      | false =>
          refine (agrees_colorLast hwidth hstyle hne).trans ?_
          simp [Option.ne_none_iff_exists']
      | true =>
          refine (agrees_colorFirst hwidth hstyle hne).trans ?_
          simp

end Line

section Rows

variable {profile : Profile} {row : Descriptor} {names : LineNames} {line found : Line} {name word : String}

theorem orInitial_toList (h : initialOf name = [word]) (part : Option String) :
    orInitial name part.toList = [part.getD word] := by
  cases part with
  | none => exact h
  | some token => rfl

theorem unlessInitial_toList (h : initialOf name = [word]) (part : Option String) :
    Restore.unlessInitial name (orInitial name part.toList) = (part.filter (· != word)).toList := by
  rw [Restore.unlessInitial_orInitial, ← Layer.toList_filter, h]
  cases part with
  | none => rfl
  | some token => by_cases heq : token = word <;> simp [heq, Option.filter_some]

theorem part_eq (line : Line) (hline : row.IsLine names) : line.part names.width = line.width.toList ∧
    line.part names.style = line.style.toList ∧ line.part names.color = line.color.toList := by
  simp [Line.part, hline.width, hline.style, hline.color]

theorem mem_values_of_mem_tokens (hline : row.IsLine names) (hothers : line.others = []) {token : String}
    (h : token ∈ line.tokens) : [token] ∈ line.values row.components := by
  obtain ⟨hwidth, hstyle, hcolor⟩ := part_eq line hline
  have hvalues {name : String} (hname : name ∈ row.components) :
      orInitial name (line.part name) ∈ line.values row.components := List.mem_map_of_mem hname
  have hnames := hline.mem_components
  rcases Line.mem_tokens.mp h with h | h | h | h
  · simpa [hwidth, h, orInitial] using hvalues hnames.1
  · simpa [hstyle, h, orInitial] using hvalues hnames.2.1
  · simpa [hcolor, h, orInitial] using hvalues hnames.2.2
  · simp [hothers] at h

/-- The initial color of a line is neither a width nor a style. -/
theorem exists_initial (profile : Profile) (hline : row.IsLine names) : ∃ initial, initialOf names.color = [initial] ∧
    Word.isBorderWidth profile initial = false ∧ Word.isBorderStyle initial = false := by
  have hword {initial : String} (h : Text.isOneOf ["currentcolor", "invert"] initial = true)
      (hstyle : Word.isBorderStyle initial = false) :
      Word.isBorderWidth profile initial = false ∧ Word.isBorderStyle initial = false := by
    refine ⟨Bool.eq_false_iff.mpr fun hwidth => ?_, hstyle⟩
    rw [Word.isOneOf_of_isKeywordOrLength (by decide) (by decide) (by decide) hwidth] at h
    cases h
  rcases hline.order with ⟨-, -, -, h⟩ | ⟨-, -, -, h⟩
  · exact ⟨_, h, hword (by decide) (by decide)⟩
  · exact ⟨_, h, hword (by decide) (by decide)⟩

theorem agrees_iff {initial : String} (hline : row.IsLine names) (hinitial : initialOf names.color = [initial]) :
    Line.Agrees initial line found ↔ found.values row.components = line.values row.components := by
  have hwidth := orInitial_toList hline.initial_width
  have hstyle := orInitial_toList hline.initial_style
  have hcolor := orInitial_toList hinitial
  rcases hline.order with ⟨-, h, -⟩ | ⟨-, h, -⟩ <;>
    simp [h, Line.values, Line.Agrees, part_eq _ hline, hwidth, hstyle, hcolor, and_comm, and_assoc]

/-- The parts that have to be said, in the order of the components. -/
theorem flatMap_unlessInitial {initial : String} (hline : row.IsLine names)
    (hinitial : initialOf names.color = [initial]) :
    (row.components.zip (line.values row.components)).flatMap (fun part => Restore.unlessInitial part.1 part.2)
      = (line.needed initial).said (row.name == "outline") := by
  have hwidth := unlessInitial_toList hline.initial_width
  have hstyle := unlessInitial_toList hline.initial_style
  have hcolor := unlessInitial_toList hinitial
  rcases hline.order with ⟨hname, h, -⟩ | ⟨hname, h, -⟩ <;>
    simp [h, hname, Line.values, Line.said, Line.needed, part_eq line hline, hwidth, hstyle, hcolor]

/-- Tokens none of which is a keyword that every property takes. -/
theorem values?_of_plain (hline : row.IsLine names) {tokens : Value} (hlength : tokens.length ≤ 3)
    (hplain : ∀ t ∈ tokens, Word.isGlobal t = false ∧ isSeparator t = false) :
    values? profile row tokens = (Line.read? profile tokens).map (Line.values row.components) := by
  have hone : ¬(tokens.length == 1 && tokens.all Word.isGlobal) = true := by
    rw [isLoneGlobal_iff]
    rintro ⟨t, rfl, hglobal⟩
    simp [hplain t List.mem_cons_self] at hglobal
  have hroom : ¬(decide (tokens.length > 3) || tokens.any isSeparator) = true := by
    simpa [hlength] using fun t ht => (hplain t ht).2
  rw [values?_eq hline.split, if_neg hone, splitAs?, line?_eq, if_neg hroom]

theorem values?_eq_some_iff {initial : String} (hline : row.IsLine names) (hinitial : initialOf names.color = [initial])
    {tokens : Value} (hlength : tokens.length ≤ 3)
    (hplain : ∀ t ∈ tokens, Word.isGlobal t = false ∧ isSeparator t = false) :
    values? profile row tokens = some (line.values row.components) ↔
      ∃ found, Line.read? profile tokens = some found ∧ Line.Agrees initial line found := by
  rw [values?_of_plain hline hlength hplain, Option.map_eq_some_iff]
  exact exists_congr fun found => and_congr_right fun _ => (agrees_iff hline hinitial).symm

theorem length_said (colorFirst : Bool) (line : Line) : (line.said colorFirst).length ≤ 3 := by
  have hlength (part : Option String) : part.toList.length ≤ 1 := by cases part <;> simp
  have hwidth := hlength line.width
  have hstyle := hlength line.style
  have hcolor := hlength line.color
  rw [Line.said]
  split <;> simp only [List.length_append] <;> omega

theorem mem_tokens_of_said {colorFirst : Bool} {initial token : String}
    (h : token ∈ (line.needed initial).said colorFirst) : token ∈ line.tokens := by
  have hfilter {part : Option String} {keep : String → Bool} (h : token ∈ (part.filter keep).toList) :
      part = some token := Layer.of_mem_filter (Option.mem_toList.mp h)
  rw [Line.mem_tokens]
  have hcases : token ∈ (line.needed initial).width.toList ∨ token ∈ (line.needed initial).style.toList ∨
      token ∈ (line.needed initial).color.toList := by
    rw [Line.said] at h
    split at h <;> rw [List.mem_append, List.mem_append] at h
    · rcases h with h | h | h
      · exact .inr (.inr h)
      · exact .inr (.inl h)
      · exact .inl h
    · exact h
  exact hcases.imp hfilter (Or.imp hfilter fun h => .inl (hfilter h))

/-- Nothing has to be said of a line that has its initial values. -/
theorem needed_of_said {colorFirst : Bool} {initial : String} (h : (line.needed initial).said colorFirst = []) :
    line.needed initial = {} := by
  have hothers : (line.needed initial).others = [] := rfl
  generalize line.needed initial = needed at h hothers
  obtain ⟨width, style, color, others⟩ := needed
  rw [Line.said] at h
  split at h <;> simp_all

/-- The shortest value has the initial values, but not in an outline. -/
theorem values?_shortest_iff {initial : String} (hline : row.IsLine names)
    (hinitial : initialOf names.color = [initial]) {colorFirst : Bool}
    (hnil : (line.needed initial).said colorFirst = []) :
    values? profile row row.shortestValue = some (line.values row.components) ↔ row.name ≠ "outline" := by
  have hagrees (found : Line) : Line.Agrees initial line found ↔ Line.Agrees initial {} found := by
    rw [← Line.agrees_needed, needed_of_said hnil]
  rcases hline.order with ⟨hname, -, hshortest, -⟩ | ⟨hname, -, hshortest, -⟩
  · rw [hshortest, values?_eq_some_iff hline hinitial (by decide) (by decide)]
    have hread : Line.read? profile ["none"] = some { style := some "none" } := by
      have hstyle : Word.isBorderStyle "none" = true := by decide
      rw [Line.read?, List.foldl_cons, Line.add_style rfl hstyle]
      rfl
    simp only [hread, hagrees, Option.some.injEq, exists_eq_left', ne_eq, hname, not_false_eq_true, iff_true]
    exact ⟨rfl, rfl, rfl⟩
  · rw [hshortest, values?_eq_some_iff hline hinitial (by decide) (by decide)]
    have hread : Line.read? profile ["0"] = some { width := some "0" } := by
      have hwidth : Word.isBorderWidth profile "0" = true := by simp [Word.isBorderWidth, Word.isUnit_zero]
      rw [Line.read?, List.foldl_cons, Line.add_width rfl hwidth]
      rfl
    simp only [hread, hagrees, Option.some.injEq, exists_eq_left', ne_eq, hname, not_true_eq_false, iff_false]
    exact fun h => absurd h.1 (by decide)

/-- The longhands tell the values of the components. -/
theorem spread_inj {names : List String} (hleaves : ∀ name ∈ names, Registry.builtin.leafNames name ≠ [])
    {as bs : List Value} (has : as.length = names.length) (hbs : bs.length = names.length) :
    spread (names.zip as) = spread (names.zip bs) ↔ as = bs := by
  refine ⟨fun h => ?_, fun h => h ▸ rfl⟩
  induction names generalizing as bs with
  | nil => rw [List.length_eq_zero_iff.mp has, List.length_eq_zero_iff.mp hbs]
  | cons name names ih =>
      match as, bs, has, hbs with
      | a :: as, b :: bs, has, hbs =>
          simp only [spread, List.zip_cons_cons, List.flatMap_cons] at h
          obtain ⟨hhead, hrest⟩ := List.append_inj h (by simp)
          obtain ⟨leaf, hleaf⟩ := List.exists_mem_of_ne_nil _ (hleaves name List.mem_cons_self)
          have hvalue := congrArg Prod.snd (List.map_inj_left.mp hhead leaf hleaf)
          rw [show a = b from hvalue, ih (fun n hn => hleaves n (List.mem_cons_of_mem name hn))
            (Nat.succ.inj has) (Nat.succ.inj hbs) hrest]

end Rows

end Split

end CssMinify
