import CssMinify.Token.Lexer
import Mathlib.Data.String.Basic

/-! Tokens tile the text they are cut from. Every scanner covers at least one character and never reaches
past the end, so a token is as long as its scanner says, and the byte ranges of the tokens cover the text
without gaps, each on the boundaries of characters. -/

namespace CssMinify

namespace Lexer

theorem escapeLength_le (s : List Char) : escapeLength s ≤ s.length := by
  unfold escapeLength
  split
  · next c rest =>
      split
      · have hdigits : (((c :: rest).take 6).takeWhile Text.isHexDigit).length ≤ (c :: rest).length :=
          ((List.takeWhile_prefix _).trans (List.take_prefix 6 _)).length_le
        dsimp only
        generalize (((c :: rest).take 6).takeWhile Text.isHexDigit).length = n at hdigits ⊢
        by_cases hend : n = (c :: rest).length
        · -- Nothing follows the digits, so there is no space to take.
          rw [hend, List.drop_length]
          simp [Nat.add_comm]
        · simp only [List.length_cons] at hdigits hend ⊢
          split <;> omega
      · simp
  · exact Nat.le_refl _

theorem escapeLength_pos {s : List Char} (h : startsEscape s = true) : 0 < escapeLength s := by
  unfold startsEscape at h
  split at h
  · rw [escapeLength]
    split <;> simp
  · cases h

theorem nameLength_le (s : List Char) : nameLength s ≤ s.length := by
  fun_induction nameLength s with
  | case1 => exact Nat.le_refl _
  | case2 c rest _ ih =>
      rw [List.length_cons]
      omega
  | case3 c rest _ hescape n ih =>
      have hpos : 0 < n := escapeLength_pos hescape
      have hle : n ≤ (c :: rest).length := escapeLength_le _
      rw [List.length_drop] at ih
      rw [List.length_cons] at hle ⊢
      omega
  | case4 => exact Nat.zero_le _

/-- Where a name may start there is something of it. -/
theorem nameLength_pos {s : List Char} (h : startsIdent s = true) : 0 < nameLength s := by
  have hname {c : Char} {rest : List Char} (hc : continuesName c = true) : 0 < nameLength (c :: rest) := by
    rw [nameLength, if_pos hc]
    omega
  cases s with
  | nil => cases h
  | cons c rest =>
      by_cases hc : continuesName c = true
      · exact hname hc
      · have hescape : startsEscape (c :: rest) = true := by
          unfold startsIdent at h
          split at h
          · next heq =>
              cases heq
              exact absurd rfl hc
          · next heq =>
              cases heq
              rw [Bool.or_eq_true] at h
              refine h.resolve_left fun hstart => hc ?_
              simp [continuesName, hstart]
          · cases h
        have hpos := escapeLength_pos hescape
        rw [nameLength, if_neg hc, if_pos hescape]
        exact Nat.add_pos_left hpos _

section Numbers

variable (s : List Char)

theorem digitsLength_le : digitsLength s ≤ s.length := (List.takeWhile_prefix _).length_le

theorem signLength_le : signLength s ≤ s.length := by
  cases s with
  | nil => exact Nat.le_refl _
  | cons c rest =>
      rw [signLength, List.length_cons]
      split <;> omega

theorem fractionLength_le : fractionLength s ≤ s.length := by
  have hdigits := digitsLength_le (s.drop 1)
  rw [fractionLength]
  split
  · next hstart =>
      cases s with
      | nil => cases hstart
      | cons c rest =>
          rw [List.drop_one, List.tail_cons] at hdigits ⊢
          rw [List.length_cons]
          omega
  · exact Nat.zero_le _

theorem exponentLength_le : exponentLength s ≤ s.length := by
  cases s with
  | nil => exact Nat.le_refl _
  | cons c rest =>
      have hsign := signLength_le rest
      have hdigits := digitsLength_le (rest.drop (signLength rest))
      rw [List.length_drop] at hdigits
      simp only [exponentLength, List.length_cons]
      split <;> omega

theorem numberLength_le : numberLength s ≤ s.length := by
  have hsign := signLength_le s
  have hdigits := digitsLength_le (s.drop (signLength s))
  have hfraction := fractionLength_le (s.drop (signLength s + digitsLength (s.drop (signLength s))))
  rw [List.length_drop] at hdigits hfraction
  have hexponent := exponentLength_le (s.drop (signLength s + digitsLength (s.drop (signLength s))
    + fractionLength (s.drop (signLength s + digitsLength (s.drop (signLength s))))))
  rw [List.length_drop] at hexponent
  simp only [numberLength]
  omega

end Numbers

theorem digitsLength_pos {s : List Char} (h : startsWithDigit s = true) : 0 < digitsLength s := by
  cases s with
  | nil => cases h
  | cons c rest =>
      have hc : c.isDigit = true := h
      rw [digitsLength, List.takeWhile_cons_of_pos hc]
      exact Nat.succ_pos _

/-- Where a number may start there is something of it. -/
theorem numberLength_pos {s : List Char} (h : startsNumber s = true) : 0 < numberLength s := by
  cases s with
  | nil => cases h
  | cons c rest =>
      rw [startsNumber] at h
      split at h
      · next hsign =>
          have hone : signLength (c :: rest) = 1 := if_pos hsign
          simp only [numberLength, hone]
          omega
      · next hsign =>
          have hnone : signLength (c :: rest) = 0 := if_neg hsign
          simp only [numberLength, hnone, List.drop_zero, Nat.zero_add]
          rw [Bool.or_eq_true] at h
          rcases h with hdigit | hpoint
          · have hpos : 0 < digitsLength (c :: rest) := digitsLength_pos hdigit
            omega
          · -- A number that starts with a point has no digits in front of it.
            have hc : c.isDigit = false := by
              unfold startsFraction at hpoint
              split at hpoint
              · next heq =>
                  cases heq
                  rfl
              · cases hpoint
            have hzero : digitsLength (c :: rest) = 0 := by
              rw [digitsLength, List.takeWhile_cons_of_neg (by simp [hc])]
              rfl
            rw [hzero, List.drop_zero, fractionLength, if_pos hpoint]
            omega

theorem commentLength_le (s : List Char) : commentLength s ≤ s.length := by
  fun_induction commentLength s with
  | case1 rest => simp
  | case2 c rest _ ih =>
      rw [List.length_cons]
      omega
  | case3 => exact Nat.le_refl _

theorem stringLength_le (quote : Char) (s : List Char) : stringLength quote s ≤ s.length := by
  fun_induction stringLength quote s with
  | case1 => exact Nat.le_refl _
  | case2 c rest ih =>
      simp only [List.length_cons]
      omega
  | case3 => exact Nat.le_refl _
  | case4 c rest => simp
  | case5 c rest _ _ ih =>
      rw [List.length_cons]
      omega

theorem addressLength_le (s : List Char) : addressLength s ≤ s.length := by
  fun_induction addressLength s with
  | case1 => exact Nat.le_refl _
  | case2 c rest => simp
  | case3 c rest _ hescape n ih =>
      have hpos : 0 < n := escapeLength_pos hescape
      have hle : n ≤ (c :: rest).length := escapeLength_le _
      rw [List.length_drop] at ih
      rw [List.length_cons] at hle ⊢
      omega
  | case4 c rest _ _ ih =>
      rw [List.length_cons]
      omega

/-- A scanner that covers `n` characters of `s` moves on and stays inside. -/
def Covers (n : Nat) (s : List Char) : Prop := 0 < n ∧ n ≤ s.length

theorem covers_numeric {s : List Char} (h : startsNumber s = true) : Covers (numeric s).2 s := by
  have hpos := numberLength_pos h
  have hle := numberLength_le s
  have hname := nameLength_le (s.drop (numberLength s))
  rw [List.length_drop] at hname
  simp only [numeric]
  split
  · exact ⟨by omega, by omega⟩
  · split
    · next hpercent =>
        have hmore : numberLength s < s.length := by
          by_contra hend
          rw [List.drop_eq_nil_of_le (by omega)] at hpercent
          cases hpercent
        exact ⟨by omega, hmore⟩
    · exact ⟨hpos, hle⟩

theorem covers_identLike {s : List Char} (h : startsIdent s = true) : Covers (identLike s).2 s := by
  have hpos := nameLength_pos h
  have hle := nameLength_le s
  simp only [identLike]
  split
  · next rest hrest =>
      have haddress := addressLength_le rest
      have hlength : s.length - nameLength s = rest.length + 1 := by
        rw [← List.length_drop, hrest, List.length_cons]
      split
      · exact ⟨by omega, by omega⟩
      · exact ⟨by omega, by omega⟩
  · exact ⟨hpos, hle⟩

/-- Whatever a token starts with, its scanner covers some of the text and no more than there is. -/
theorem covers_extent (c : Char) (rest : List Char) : Covers (extent c rest).2 (c :: rest) := by
  have hone : Covers 1 (c :: rest) := ⟨Nat.one_pos, Nat.succ_le_succ (Nat.zero_le _)⟩
  have hprefix {p : List Char} (hp : p ≠ []) (h : p.isPrefixOf (c :: rest) = true) :
      Covers p.length (c :: rest) :=
    ⟨List.length_pos_iff.mpr hp, (List.isPrefixOf_iff_prefix.mp h).length_le⟩
  have hname : Covers (1 + nameLength rest) (c :: rest) := by
    have hle := nameLength_le rest
    exact ⟨by omega, by rw [List.length_cons]; omega⟩
  simp only [extent]
  split
  · next hcomment =>
      rw [Bool.and_eq_true, beq_iff_eq, beq_iff_eq] at hcomment
      cases rest with
      | nil => cases hcomment.2
      | cons d rest =>
          have hle := commentLength_le rest
          simp only [List.drop_one, List.tail_cons]
          exact ⟨by omega, by simp only [List.length_cons]; omega⟩
  split
  · next hspace =>
      rw [List.takeWhile_cons_of_pos hspace]
      exact ⟨Nat.succ_pos _, Nat.succ_le_succ (List.takeWhile_prefix _).length_le⟩
  split
  · have hle := stringLength_le c rest
    exact ⟨by omega, by rw [List.length_cons]; omega⟩
  split
  · split
    · exact hname
    · exact hone
  split
  · next hnumber => exact covers_numeric hnumber
  split
  · next hclose => exact hprefix (by simp) hclose
  split
  · split
    · exact hname
    · exact hone
  split
  · next hopen => exact hprefix (by simp) hopen
  split
  · next hident => exact covers_identLike hident
  · exact hone

/-- A token takes what its scanner covers, and the next one starts there. -/
theorem tokens_cons (c : Char) (rest : List Char) :
    tokens (c :: rest) = ⟨(extent c rest).1, String.ofList ((c :: rest).take (extent c rest).2)⟩
      :: tokens ((c :: rest).drop (extent c rest).2) := by
  obtain ⟨n, hn⟩ := Nat.exists_eq_succ_of_ne_zero (covers_extent c rest).1.ne'
  rw [tokens]
  simp only [hn, Nat.succ_eq_add_one, Nat.add_sub_cancel, List.take_succ_cons, List.drop_succ_cons]

end Lexer

namespace Token

/-- Ranges that cover what lies between two places: each starts where the one before it stops, and none is
empty. -/
def Tiles (start stop : Nat) : List (Nat × Nat) → Prop
  | [] => start = stop
  | (first, last) :: rest => first = start ∧ first < last ∧ Tiles last stop rest

theorem byteLength_source_cons (t : Token) (ts : List Token) :
    Text.byteLength (source (t :: ts)) = Text.byteLength t.text + Text.byteLength (source ts) :=
  String.utf8ByteSize_append

theorem tiles_spansFrom (start : Nat) {ts : List Token} (h : ∀ t ∈ ts, t.text ≠ "") :
    Tiles start (start + Text.byteLength (source ts)) (spansFrom start ts) := by
  induction ts generalizing start with
  | nil => rfl
  | cons t ts ih =>
      obtain ⟨hfirst, hrest⟩ := List.forall_mem_cons.mp h
      have hpos : 0 < Text.byteLength t.text := by
        refine Nat.pos_of_ne_zero fun hzero => hfirst ?_
        exact String.utf8ByteSize_eq_zero_iff.mp hzero
      have htiles := ih (start + Text.byteLength t.text) hrest
      rw [Nat.add_assoc, ← byteLength_source_cons] at htiles
      exact ⟨rfl, Nat.lt_add_of_pos_right hpos, htiles⟩

/-- What stands behind the text `front` is found there again: its ranges lie on boundaries of characters,
and cut out the texts of the tokens. -/
theorem slices_spansFrom (front : String) (ts : List Token) :
    (∀ span ∈ spansFrom (Text.byteLength front) ts,
      (⟨span.1⟩ : String.Pos.Raw).IsValid (front ++ source ts) ∧
        (⟨span.2⟩ : String.Pos.Raw).IsValid (front ++ source ts)) ∧
      (spansFrom (Text.byteLength front) ts).map
          (fun span => String.Pos.Raw.extract (front ++ source ts) ⟨span.1⟩ ⟨span.2⟩)
        = ts.map text := by
  induction ts generalizing front with
  | nil => exact ⟨by simp [spansFrom], rfl⟩
  | cons t ts ih =>
      have hsplit : front ++ source (t :: ts) = front ++ t.text ++ source ts := by
        rw [String.append_assoc]
        rfl
      have hstop : Text.byteLength front + Text.byteLength t.text = Text.byteLength (front ++ t.text) :=
        String.utf8ByteSize_append.symm
      have hrest := ih (front ++ t.text)
      rw [spansFrom, hsplit, hstop]
      refine ⟨List.forall_mem_cons.mpr ⟨⟨?_, ?_⟩, hrest.1⟩, ?_⟩
      · rw [String.append_assoc]
        exact String.Pos.Raw.isValid_rawEndPos.append_right _
      · exact String.Pos.Raw.isValid_rawEndPos.append_right _
      · rw [List.map_cons, List.map_cons, hrest.2]
        congr 1
        have hextract := String.extract_of_valid front.toList t.text.toList (source ts).toList
        simp only [← String.utf8ByteSize_ofList, String.ofList_append, String.ofList_toList] at hextract
        rw [← hstop]
        exact hextract

end Token

theorem ne_empty_of_mem_tokenize {s : String} {t : Token} (h : t ∈ tokenize s) : t.text ≠ "" := by
  rw [tokenize] at h
  generalize s.toList = cs at h
  fun_induction Lexer.tokens cs with
  | case1 => cases h
  | case2 c rest kind n _ ih =>
      rcases List.mem_cons.mp h with rfl | h
      · simp [← String.toList_inj]
      · exact ih h

end CssMinify
