import CssMinify.Proofs.Codec.RoundTrip

/-!
Borders and outlines. A line has a width, a style and a color, each of one token; a token that fits no part that is
still to be found is taken for the color. The parts become the components, and every longhand of a component gets the
value of the component.
-/

namespace CssMinify

namespace Word

variable {profile : Profile} {token : String}

theorem isBorderStyle_of_isBorderWidth (h : isBorderWidth profile token = true) : isBorderStyle token = false :=
  isOneOf_of_isKeywordOrLength (by decide) (by decide) (by decide) h

theorem isBorderWidth_of_isBorderStyle (h : isBorderStyle token = true) : isBorderWidth profile token = false := by
  rw [Bool.eq_false_iff]
  intro hwidth
  rw [isBorderStyle_of_isBorderWidth hwidth] at h
  cases h

theorem isBorderWidth_of_isColor (h : isColor token = true) : isBorderWidth profile token = false := by
  have hkeyword : Text.isOneOf Keyword.borderWidths token = false :=
    isOneOf_of_isColor h (by simp [colorless])
  rw [isBorderWidth, Bool.or_assoc, isLength_of_isColor h, hkeyword]
  rfl

theorem isBorderStyle_of_isColor (h : isColor token = true) : isBorderStyle token = false :=
  isOneOf_of_isColor h (by simp [colorless])

theorem isColor_of_isBorderWidth (h : isBorderWidth profile token = true) : isColor token = false :=
  isColor_eq_false isBorderWidth_of_isColor h

theorem isColor_of_isBorderStyle (h : isBorderStyle token = true) : isColor token = false :=
  isColor_eq_false isBorderStyle_of_isColor h

theorem isGlobal_of_isBorderWidth (h : isBorderWidth profile token = true) : isGlobal token = false :=
  isOneOf_of_isKeywordOrLength (by decide) (by decide) (by decide) h

theorem isGlobal_of_isBorderStyle (h : isBorderStyle token = true) : isGlobal token = false :=
  Text.isOneOf_eq_false (by decide) (by decide) (by decide) h

end Word

namespace Split

namespace Line

variable {profile : Profile} {line found : Line} {token : String}

/-- What a line says of its component of this name. -/
def part (line : Line) (name : String) : Value :=
  if Text.endsWith name "-width" then line.width.toList
  else if Text.endsWith name "-style" then line.style.toList
  else line.color.toList

/-- The line with the token that fits nothing as its color, if that is the only one and there is no color yet. -/
def closed? (line : Line) : Option Line :=
  match line.others, line.color with
  | [], color => some { line with color, others := [] }
  | [token], none => some { line with color := some token, others := [] }
  | _, _ => none

/-- What the tokens of a line say. -/
def read? (profile : Profile) (tokens : Value) : Option Line := (tokens.foldl (Line.add profile) {}).closed?

/-- The values of the components of these names. -/
def values (names : List String) (line : Line) : List Value := names.map fun name => orInitial name (line.part name)

/-- All the tokens of a line. -/
def tokens (line : Line) : Value :=
  line.width.toList ++ line.style.toList ++ line.color.toList ++ line.others

theorem mem_tokens : token ∈ line.tokens ↔
    line.width = some token ∨ line.style = some token ∨ line.color = some token ∨ token ∈ line.others := by
  simp only [tokens, List.mem_append, Option.mem_toList, or_assoc]

/-- Parts are of their kind, and a token is left over only if the parts that it fits have been found. -/
structure Sorted (profile : Profile) (line : Line) : Prop where
  width : ∀ token ∈ line.width, Word.isBorderWidth profile token = true
  style : ∀ token ∈ line.style, Word.isBorderStyle token = true
  color : ∀ token ∈ line.color, Word.isColor token = true
  others : ∀ token ∈ line.others, (Word.isBorderWidth profile token = true → line.width ≠ none) ∧
    (Word.isBorderStyle token = true → line.style ≠ none)

/-- A token goes to exactly one place. -/
theorem perm_tokens_add (line : Line) (token : String) :
    (line.add profile token).tokens.Perm (token :: line.tokens) := by
  rw [add]
  split
  · next hwidth =>
      rw [Bool.and_eq_true, Option.isNone_iff_eq_none] at hwidth
      simp [tokens, hwidth.1]
  split
  · next hstyle =>
      rw [Bool.and_eq_true, Option.isNone_iff_eq_none] at hstyle
      simp [tokens, hstyle.1]
  split
  · next hcolor =>
      rw [Bool.and_eq_true, Option.isNone_iff_eq_none] at hcolor
      simp only [tokens, hcolor.1, Option.toList_some, Option.toList_none, List.append_nil, List.append_assoc,
        List.singleton_append]
      exact (List.perm_middle.append_left _).trans List.perm_middle
  · simpa [tokens] using List.perm_append_singleton token line.tokens

theorem perm_tokens_foldl (line : Line) (tokens : Value) :
    (tokens.foldl (Line.add profile) line).tokens.Perm (tokens ++ line.tokens) := by
  induction tokens generalizing line with
  | nil => exact .refl _
  | cons token tokens ih =>
      exact (ih (line.add profile token)).trans
        (((perm_tokens_add line token).append_left tokens).trans List.perm_middle)

theorem Sorted.add (h : line.Sorted profile) (token : String) : (line.add profile token).Sorted profile := by
  rw [Line.add]
  split
  · next hwidth =>
      rw [Bool.and_eq_true] at hwidth
      exact { h with
        width := by simpa using hwidth.2
        others := fun t ht => ⟨fun _ => Option.some_ne_none token, (h.others t ht).2⟩ }
  split
  · next hstyle =>
      rw [Bool.and_eq_true] at hstyle
      exact { h with
        style := by simpa using hstyle.2
        others := fun t ht => ⟨(h.others t ht).1, fun _ => Option.some_ne_none token⟩ }
  split
  · next hcolor =>
      rw [Bool.and_eq_true] at hcolor
      exact { h with color := by simpa using hcolor.2 }
  · next hwidth hstyle _ =>
      refine { h with others := List.forall_mem_append.mpr ⟨h.others, ?_⟩ }
      simp only [Bool.and_eq_true, Option.isNone_iff_eq_none, not_and'] at hwidth hstyle
      simpa using ⟨hwidth, hstyle⟩

theorem Sorted.foldl (h : line.Sorted profile) (tokens : Value) :
    (tokens.foldl (Line.add profile) line).Sorted profile := by
  induction tokens generalizing line with
  | nil => exact h
  | cons token tokens ih => exact ih (h.add token)

theorem sorted_found (profile : Profile) (tokens : Value) : (tokens.foldl (Line.add profile) {}).Sorted profile :=
  Sorted.foldl ⟨by simp, by simp, by simp, by simp⟩ tokens

/-- Closing a line moves a token at most. -/
theorem perm_tokens_of_closed? (h : line.closed? = some found) : found.tokens.Perm line.tokens := by
  rw [closed?] at h
  split at h <;> cases h
  · next hothers => simp [tokens, hothers]
  · next hothers hcolor => simp [tokens, hothers, hcolor]

/-- A line in which every token has its part. The color may be a token of any kind, but if it fits another part, that
part has been found. -/
structure Closed (profile : Profile) (line : Line) : Prop where
  width : ∀ token ∈ line.width, Word.isBorderWidth profile token = true
  style : ∀ token ∈ line.style, Word.isBorderStyle token = true
  color : ∀ token ∈ line.color, (Word.isBorderWidth profile token = true → line.width ≠ none) ∧
    (Word.isBorderStyle token = true → line.style ≠ none)
  others : line.others = []

theorem Sorted.closed (h : line.Sorted profile) (hfound : line.closed? = some found) : found.Closed profile := by
  have hcolor : ∀ token ∈ line.color, Word.isBorderWidth profile token = false ∧ Word.isBorderStyle token = false :=
    fun token ht => ⟨Word.isBorderWidth_of_isColor (h.color token ht), Word.isBorderStyle_of_isColor (h.color token ht)⟩
  rw [closed?] at hfound
  split at hfound <;> cases hfound
  · exact { h with color := fun token ht => by simp [hcolor token ht], others := rfl }
  · next single hothers _ =>
      refine { h with color := ?_, others := rfl }
      simpa using h.others single (by rw [hothers]; exact List.mem_cons_self)

theorem closed_of_read? {tokens : Value} (h : read? profile tokens = some line) : line.Closed profile :=
  (sorted_found profile tokens).closed h

theorem perm_tokens_of_read? {tokens : Value} (h : read? profile tokens = some line) : line.tokens.Perm tokens :=
  (perm_tokens_of_closed? h).trans (by simpa [Line.tokens] using perm_tokens_foldl {} tokens)

end Line

/-- Splitting a line: there is room for three tokens, none of them a separator. -/
theorem line?_eq (profile : Profile) (names : List String) (tokens : Value) :
    line? profile names tokens
      = if tokens.length > 3 || tokens.any isSeparator then none
        else (Line.read? profile tokens).map (Line.values names) := by
  simp only [line?, Line.read?, Option.pure_def, Option.bind_eq_bind]
  split
  · rfl
  · generalize tokens.foldl (Line.add profile) {} = line
    obtain ⟨width, style, color, others⟩ := line
    rw [Line.closed?]
    rcases others with - | ⟨token, - | ⟨next, others⟩⟩
    · rfl
    · cases color <;> rfl
    · rfl

/-- What a line that can be split is made of. -/
theorem exists_of_line? {profile : Profile} {names : List String} {tokens : Value} {values : List Value}
    (h : line? profile names tokens = some values) :
    ∃ line, Line.read? profile tokens = some line ∧ line.values names = values ∧
      ∀ t ∈ tokens, isSeparator t = false := by
  rw [line?_eq] at h
  split at h
  · cases h
  next hroom =>
  rw [Bool.or_eq_true, not_or, Bool.not_eq_true (tokens.any _), List.any_eq_false] at hroom
  obtain ⟨line, hline, rfl⟩ := Option.map_eq_some_iff.mp h
  exact ⟨line, hline, rfl, by simpa using hroom.2⟩

end Split

/-- The names of the width, the style and the color of a line. -/
structure LineNames where
  width : String
  style : String
  color : String

/-- A row whose values are lines. The color comes last, but first in an outline. -/
@[mk_iff]
structure Descriptor.IsLine (row : Descriptor) (names : LineNames) : Prop where
  split : row.split = some .border
  restore : row.restore = some .withoutDefaults
  width : Text.endsWith names.width "-width" = true
  style : Text.endsWith names.style "-width" = false ∧ Text.endsWith names.style "-style" = true
  color : Text.endsWith names.color "-width" = false ∧ Text.endsWith names.color "-style" = false
  initial_width : Split.initialOf names.width = ["medium"]
  initial_style : Split.initialOf names.style = ["none"]
  order : row.name ≠ "outline" ∧ row.components = [names.width, names.style, names.color]
      ∧ row.shortestValue = ["none"] ∧ Split.initialOf names.color = ["currentcolor"] ∨
    row.name = "outline" ∧ row.components = [names.color, names.style, names.width]
      ∧ row.shortestValue = ["0"] ∧ Split.initialOf names.color = ["invert"]

instance (row : Descriptor) (names : LineNames) : Decidable (row.IsLine names) :=
  decidable_of_iff _ (Descriptor.isLine_iff row names).symm

theorem Descriptor.IsLine.mem_components {row : Descriptor} {names : LineNames} (h : row.IsLine names) :
    names.width ∈ row.components ∧ names.style ∈ row.components ∧ names.color ∈ row.components := by
  rcases h.order with ⟨-, hnames, -, -⟩ | ⟨-, hnames, -, -⟩ <;> simp [hnames]

theorem Descriptor.IsLine.components_ne_nil {row : Descriptor} {names : LineNames} (h : row.IsLine names) :
    row.components ≠ [] :=
  List.ne_nil_of_mem h.mem_components.1

/-- The initial values of the parts of lines. -/
def Registry.lineInitials : List String := ["medium", "none", "currentcolor", "invert"]

theorem Descriptor.IsLine.exists_initial {row : Descriptor} {names : LineNames} (h : row.IsLine names) {name : String}
    (hname : name ∈ row.components) : ∃ word ∈ Registry.lineInitials, Split.initialOf name = [word] := by
  revert name
  rcases h.order with ⟨-, hnames, -, hcolor⟩ | ⟨-, hnames, -, hcolor⟩ <;>
    simp [Registry.lineInitials, hnames, h.initial_width, h.initial_style, hcolor]

namespace Registry

/-- The shorthands whose values are lines, with their components. -/
def lines : List (String × LineNames) :=
  [("border", ⟨"border-width", "border-style", "border-color"⟩),
   ("border-top", ⟨"border-top-width", "border-top-style", "border-top-color"⟩),
   ("border-right", ⟨"border-right-width", "border-right-style", "border-right-color"⟩),
   ("border-bottom", ⟨"border-bottom-width", "border-bottom-style", "border-bottom-color"⟩),
   ("border-left", ⟨"border-left-width", "border-left-style", "border-left-color"⟩),
   ("outline", ⟨"outline-width", "outline-style", "outline-color"⟩)]

theorem isLine_lines : ∀ line ∈ lines, (builtin.find? line.1).any (fun row => decide (row.IsLine line.2)) = true := by
  decide +kernel

/-- A longhand, or a shorthand with one longhand for each side. -/
def isEven (name : String) : Bool :=
  (builtin.find? name).any fun row =>
    row.components.isEmpty || row.split == some .fourValues && row.components.all (!builtin.isShorthand ·)

theorem isEven_components : ∀ line ∈ lines, (builtin.find? line.1).all (·.components.all isEven) = true := by
  decide +kernel

theorem leafNames_eq {row : Descriptor} (hrow : row ∈ builtin.descriptors)
    (h : row.components.all (!builtin.isShorthand ·) = true) :
    row.leaves = if row.components.isEmpty then [row.name] else row.components := by
  by_cases hnil : row.components = []
  · simp [leaves_eq_singleton hrow hnil, hnil]
  · rw [leaves_eq_flatMap hrow hnil, if_neg (by simpa using hnil)]
    conv_rhs => rw [← List.flatMap_singleton' row.components]
    refine List.flatMap_congr fun name hname => ?_
    obtain ⟨c, hc⟩ := exists_find?_of_mem_components hrow hname
    have hlonghand := List.all_eq_true.mp h name hname
    rw [isShorthand, hc, Option.any_some, Bool.not_eq_true', Descriptor.isShorthand, Bool.not_eq_false',
      List.isEmpty_iff] at hlonghand
    obtain ⟨hmem, rfl⟩ := mem_of_find? hc
    rw [leafNames, hc, Option.map_some, Option.getD_some, leaves_eq_singleton hmem hlonghand]

end Registry

namespace Split

variable {profile : Profile} {row : Descriptor} {names : LineNames} {value : Value} {values : List Value}

/-- Every longhand of a component with the value of the component. -/
def spread (parts : List (String × Value)) : List (String × Value) :=
  parts.flatMap fun part => (Registry.builtin.leafNames part.1).map (·, part.2)

/-- What a shorthand of longhands is split into. -/
theorem longhandsWithin?_of_longhands (hrow : Registry.builtin.find? row.name = some row)
    (hlonghands : row.components.all (!Registry.builtin.isShorthand ·) = true) (depth : Nat) :
    longhandsWithin? profile (depth + 1) row.name value
      = if value.any Word.isVariable then none else (values? profile row value).map row.components.zip := by
  rw [longhandsWithin?]
  simp only [hrow, Option.bind_eq_bind, Option.bind_some]
  refine if_congr Iff.rfl rfl ?_
  cases values? profile row value with
  | none => rfl
  | some values =>
      rw [Option.bind_some, Option.map_some, mapM_eq_some_map (g := fun part => [part])]
      · exact congrArg some (List.flatMap_singleton' (row.components.zip values))
      · intro part hpart
        have hlonghand := List.all_eq_true.mp hlonghands part.1 (List.of_mem_zip hpart).1
        rw [Bool.not_eq_true'] at hlonghand
        exact if_neg (Bool.eq_false_iff.mp hlonghand)

theorem isSeparator_of_isGlobal {token : String} (h : Word.isGlobal token = true) : isSeparator token = false := by
  rw [Bool.eq_false_iff]
  intro hseparator
  rw [isSeparator, Bool.or_eq_true, beq_iff_eq, beq_iff_eq] at hseparator
  rcases hseparator with rfl | rfl <;> revert h <;> decide

/-- One token for four sides. -/
theorem values?_of_single (hrow : row ∈ Registry.builtin.descriptors) (hsplit : row.split = some .fourValues)
    {token : String} (htoken : isSeparator token = false) :
    values? profile row [token] = some (row.components.map fun _ => [token]) := by
  have hlength := Registry.length_components hrow hsplit rfl
  rw [values?_eq hsplit]
  split
  · rfl
  · rw [splitAs?, fourValues?, List.map_const', hlength]
    simp [htoken, List.replicate]

/-- Every longhand of a component that has one token has that token. -/
theorem longhandsWithin?_of_isEven {name token : String} (hname : Registry.isEven name = true)
    (hstatic : Word.isVariable token = false) (htoken : isSeparator token = false) (depth : Nat) :
    (if Registry.builtin.isShorthand name then longhandsWithin? profile (depth + 1) name [token]
      else some [(name, [token])]) = some ((Registry.builtin.leafNames name).map (·, [token])) := by
  obtain ⟨row, hfind, heven⟩ := (Option.any_eq_true _ _).mp hname
  obtain ⟨hmem, rfl⟩ := Registry.mem_of_find? hfind
  rw [Registry.isShorthand, Registry.leafNames, hfind, Option.any_some, Option.map_some, Option.getD_some,
    Descriptor.isShorthand]
  rw [Bool.or_eq_true, Bool.and_eq_true, beq_iff_eq] at heven
  rcases heven with hempty | ⟨hsplit, hlonghands⟩
  · rw [hempty, Registry.leaves_eq_singleton hmem (List.isEmpty_iff.mp hempty)]
    rfl
  · have hlength := Registry.length_components hmem hsplit rfl
    have hne : row.components.isEmpty = false := by
      rw [List.isEmpty_eq_false_iff]
      intro hnil
      simp [hnil] at hlength
    have hzip : row.components.zip (row.components.map fun _ => [token]) = row.components.map (·, [token]) := by
      simpa using List.zip_map' (f := id) (g := fun _ : String => [token]) (l := row.components)
    rw [hne, Registry.leafNames_eq hmem hlonghands, hne, longhandsWithin?_of_longhands hfind hlonghands,
      values?_of_single hmem hsplit htoken, Option.map_some, hzip]
    simp [hstatic]

/-- The components of a line have one token each, which is one of the line or an initial value. -/
theorem single_of_values? (hline : row.IsLine names) (h : values? profile row value = some values) :
    ∀ v ∈ values, ∃ token, v = [token] ∧ isSeparator token = false ∧
      (token ∈ value ∨ Word.isVariable token = false) := by
  rw [values?_eq hline.split] at h
  split at h
  · next hglobal =>
      cases h
      obtain ⟨token, rfl, htoken⟩ := isLoneGlobal_iff.mp hglobal
      intro v hv
      obtain ⟨-, -, rfl⟩ := List.mem_map.mp hv
      exact ⟨token, rfl, isSeparator_of_isGlobal htoken, .inl List.mem_cons_self⟩
  · obtain ⟨line, hread, rfl, hseparator⟩ := exists_of_line? h
    have hperm := Line.perm_tokens_of_read? hread
    have hinitial : ∀ word ∈ Registry.lineInitials, isSeparator word = false ∧ Word.isVariable word = false := by
      decide
    have hparts (name : String) : line.part name = [] ∨ ∃ token ∈ line.tokens, line.part name = [token] := by
      have hpart (found : Option String) (hfound : ∀ t ∈ found, t ∈ line.tokens) :
          found.toList = [] ∨ ∃ token ∈ line.tokens, found.toList = [token] := by
        cases found with
        | none => exact .inl rfl
        | some token => exact .inr ⟨token, hfound token rfl, rfl⟩
      rw [Line.part]
      split
      · exact hpart _ fun t ht => Line.mem_tokens.mpr (.inl ht)
      split
      · exact hpart _ fun t ht => Line.mem_tokens.mpr (.inr (.inl ht))
      · exact hpart _ fun t ht => Line.mem_tokens.mpr (.inr (.inr (.inl ht)))
    intro v hv
    obtain ⟨name, hname, rfl⟩ := List.mem_map.mp hv
    rcases hparts name with hnil | ⟨token, htoken, hpart⟩
    · obtain ⟨word, hword, hvalue⟩ := hline.exists_initial hname
      exact ⟨word, by rw [orInitial, hnil, List.isEmpty_nil, if_pos rfl, hvalue], (hinitial word hword).1,
        .inr (hinitial word hword).2⟩
    · have hmem := hperm.mem_iff.mp htoken
      exact ⟨token, by rw [orInitial, hpart]; rfl, hseparator token hmem, .inl hmem⟩

/-- What a line is split into. -/
theorem longhandsWithin?_line (hline : row.IsLine names) (hrow : Registry.builtin.find? row.name = some row)
    (heven : row.components.all Registry.isEven = true) :
    longhandsWithin? profile Property.nesting row.name value
      = if value.any Word.isVariable then none
        else (values? profile row value).map fun values => spread (row.components.zip values) := by
  rw [Property.nesting, longhandsWithin?]
  simp only [hrow, Option.bind_eq_bind, Option.bind_some]
  split
  · rfl
  next hstatic =>
  cases hvalues : values? profile row value with
  | none => rfl
  | some values =>
      have hsingle := single_of_values? hline hvalues
      rw [Option.bind_some, Option.map_some, mapM_eq_some_map (g := fun part =>
        (Registry.builtin.leafNames part.1).map (·, part.2))]
      · rfl
      · intro part hpart
        obtain ⟨hname, hvalue⟩ := List.of_mem_zip hpart
        obtain ⟨token, htoken, hseparator, hmem⟩ := hsingle part.2 hvalue
        have hvariable : Word.isVariable token = false :=
          hmem.elim (fun hmem => by simpa using List.any_eq_false.mp (by simpa using hstatic) token hmem) id
        rw [htoken]
        exact longhandsWithin?_of_isEven (List.all_eq_true.mp heven part.1 hname) hvariable hseparator 0

end Split

namespace Property

variable {profile : Profile} {depth : Nat} {p : Property}

theorem eq_of_componentWithin? {part : String × Value} {c : Property}
    (h : componentWithin? profile depth p part = some c) : (c.name, c.value) = part := by
  simp only [componentWithin?] at h
  split at h
  · obtain ⟨inner, -, rfl⟩ := Option.map_eq_some_iff.mp h
    rfl
  · cases h
    rfl

theorem map_of_mapM_componentWithin? {parts : List (String × Value)} {cs : List Property}
    (h : parts.mapM (componentWithin? profile depth p) = some cs) : cs.map (fun c => (c.name, c.value)) = parts := by
  have hparts := (forall₂_of_mapM h).imp fun _ _ => eq_of_componentWithin?
  rw [← List.forall₂_eq_eq_eq (α := String × Value), List.forall₂_map_left_iff]
  exact hparts.flip

/-- What the components of a declaration are made from. -/
theorem exists_of_components? {d : Declaration} {position : Nat} {row : Descriptor} {cs : List Property}
    (hrow : Registry.builtin.find? d.name = some row) (h : components? profile (bare d position) = some cs) :
    d.value.any Word.isVariable = false ∧ ∃ values, Split.values? profile row d.value = some values ∧
      (row.components.zip values).mapM (componentWithin? profile 1 (bare d position)) = some cs := by
  have hdescriptor : (bare d position).descriptor? = some row := hrow
  rw [components?, nesting, componentsWithin?_succ, hdescriptor, Option.bind_some] at h
  split at h
  · cases h
  next hstatic =>
  exact ⟨Bool.eq_false_iff.mpr hstatic, Option.bind_eq_some_iff.mp h⟩

end Property

end CssMinify
