import MonkeyFormat.Proofs.NormalForms
import MonkeyFormat.Proofs.Spelling

set_option autoImplicit false

/-! # How whole numbers are spelled

A whole number is spelled in lowercase, in decimal and in hexadecimal alike, and gets a suffix if
it is too long to go without one. What matters for this is the same for both notations: the number
lexes into a token of its own with and without a suffix, a suffix does not change its value, and
in lowercase nothing is left to change. -/

namespace MonkeyFormat

namespace Literal

open Lexeme (Parts Power isLongSuffix isHexDigit)

/-- Is the suffix, if there is one, the one that long numbers get? -/
def isLong (s : Option Char) : Bool := s.all (· = 'l')

/-- A whole number in lowercase, in whatever notation, that is read as `r`. -/
structure WholeText (body : List Char) (r : Except Fault Value) : Prop where
  startsGap : ∀ s, Lexeme.startsGap (body ++ s) = false
  front : ∀ s, isLong s = true →
    Lexeme.front? (body ++ s.toList) = some (.number, body ++ s.toList)
  value : ∀ s, isLong s = true → value .number (String.ofList (body ++ s.toList)) = r
  lower : ∀ s, isLong s = true →
    Text.lower (String.ofList (body ++ s.toList)) = String.ofList (body ++ s.toList)
  generic : ∀ s, isLong s = true →
    generic (String.ofList (body ++ s.toList)) = String.ofList (body ++ s.toList)
  endsWith : endsWith isLongSuffix (String.ofList body) = false

/-- Is the number too long for the type of numbers without a suffix? -/
def isTooLong (n : Int) : Bool := decide (maxShort < n.natAbs)

theorem endsWith_concat (q : Char → Bool) (cs : List Char) (c : Char) :
    endsWith q (String.ofList (cs ++ [c])) = q c := by
  simp [endsWith]

section Spelled

variable {body : List Char} {n : Int} (hbody : WholeText body (.ok (.int n)))
include hbody

theorem endsWith_whole {s : Option Char} (hs : isLong s = true) :
    endsWith isLongSuffix (String.ofList (body ++ s.toList)) = s.isSome := by
  cases s with
  | none =>
    rw [Option.toList_none, List.append_nil]
    exact hbody.endsWith
  | some c =>
    obtain rfl : c = 'l' := by simpa [isLong] using hs
    rw [Option.toList_some, endsWith_concat]
    rfl

/-- A whole number that is spelled with the suffix it needs is spelled as it is. -/
theorem spell_spelled {s : Option Char} (hs : isLong s = true)
    (hneeded : isTooLong n = true → s.isSome = true) :
    spell (String.ofList (body ++ s.toList)) (.int n)
      (generic (String.ofList (body ++ s.toList))) = .ok (String.ofList (body ++ s.toList)) := by
  unfold spell
  dsimp only
  rw [endsWith_whole hbody hs, hbody.lower s hs, hbody.generic s hs]
  cases s with
  | some c => rfl
  | none =>
    have hshort : ¬maxShort < n.natAbs := by
      intro hlong
      exact absurd (hneeded (decide_eq_true hlong)) (by decide)
    rw [if_neg (by decide), if_neg hshort]
    rfl

/-- A whole number is spelled in lowercase, with a suffix if it has one or is too long. -/
theorem spell_whole {raw : String} {suffix : Option Char}
    (hlower : Text.lower raw = String.ofList (body ++ (suffix.map Char.toLower).toList))
    (hlong : ∀ c ∈ suffix, isLongSuffix c = true)
    (hends : endsWith isLongSuffix raw = suffix.isSome) :
    ∃ s, isLong s = true ∧ s.isSome = (suffix.isSome || isTooLong n) ∧
      spell raw (.int n) (generic raw) = .ok (String.ofList (body ++ s.toList)) := by
  have hsuffix : isLong (suffix.map Char.toLower) = true := by
    cases suffix with
    | none => rfl
    | some c =>
      have hc := hlong c rfl
      simp only [isLongSuffix, Bool.or_eq_true, decide_eq_true_eq] at hc
      rcases hc with rfl | rfl
      · rfl
      · rfl
  -- the generic spelling only sees the lowercase
  have hgeneric : generic raw = Text.lower raw := by
    have hspelled := hbody.generic _ hsuffix
    rw [generic, hbody.lower _ hsuffix] at hspelled
    rw [generic, hlower]
    exact hspelled
  unfold spell
  dsimp only
  rw [hends, hgeneric, hlower]
  cases suffix with
  | some c => exact ⟨some c.toLower, hsuffix, rfl, rfl⟩
  | none =>
    by_cases hn : maxShort < n.natAbs
    · refine ⟨some 'l', rfl, ?_, ?_⟩
      · simp [isTooLong, hn]
      · rw [if_neg (by decide), if_pos hn]
        simp [String.ofList_append]
        rfl
    · refine ⟨none, rfl, ?_, ?_⟩
      · simp [isTooLong, hn]
      · rw [if_neg (by decide), if_neg hn]
        rfl

end Spelled

/-! ## Decimal numbers -/

theorem isMark_of_isLongSuffix {c : Char} (h : isLongSuffix c = true) :
    Lexeme.isMark c = true := by
  simp [Lexeme.isMark, h]

/-- A number ends in a letter of a suffix only if it has one. -/
theorem endsWith_chars {q : Char → Bool} (hq : ∀ c, q c = true → Lexeme.isMark c = true)
    (p : Parts Text.isDecimal) : endsWith q (String.ofList p.chars) = p.suffix.any q := by
  cases hs : p.suffix with
  | some c =>
    rw [p.chars_unsuffixed, hs, Option.toList_some, endsWith_concat]
    rfl
  | none =>
    obtain ⟨cs, c, hchars, hc⟩ := Parts.last_of_unsuffixed hs
    rw [hchars, endsWith_concat, Option.any_none, Bool.eq_false_iff]
    intro hmark
    have hfacts := Lexeme.isMark_facts (hq c hmark)
    rcases hc with hdigit | rfl
    · rw [Text.isDigit_of_isDecimal hdigit] at hfacts
      cases hfacts.1
    · exact hfacts.2.2.1 rfl

/-- No number starts with white space or a comment. -/
theorem startsGap_chars (p : Parts Text.isDecimal) (rest : List Char) :
    Lexeme.startsGap (p.chars ++ rest) = false := by
  obtain ⟨c, cs, hchars, hstart⟩ := p.starts
  rw [hchars, List.cons_append]
  rcases hstart with hdigit | ⟨rfl, _⟩
  · refine Lexeme.startsGap_cons ?_ ?_
    · rw [Bool.eq_false_iff]
      intro hgap
      have hnot := Doc.isDigit_of_isGap hgap
      rw [Text.isDigit_of_isDecimal hdigit] at hnot
      cases hnot
    · rintro rfl
      exact absurd hdigit (by decide)
  · exact Lexeme.startsGap_cons (by decide) (fun h => absurd h (by decide))

/-- The digits of a whole number with another suffix. -/
def withLong (p : Parts Text.isDecimal) (h : p.kind = .number) (s : Option Char)
    (hs : isLong s = true) : Parts Text.isDecimal :=
  { p with
    suffix := s
    suffix_cases := by
      obtain ⟨hfraction, hpower, _⟩ := unsuffixed_of_number h
      rintro c rfl
      obtain rfl : c = 'l' := by simpa [isLong] using hs
      exact .inr ⟨rfl, hfraction, hpower⟩
    bare := by
      obtain ⟨hfraction, _, _⟩ := unsuffixed_of_number h
      rw [hfraction]
      nofun }

theorem wholeText_decimal {p : Parts Text.isDecimal} (h : p.kind = .number)
    (hlength : p.whole.length ≤ Number.maxDigits) :
    WholeText p.whole (.ok (.int p.significand)) := by
  obtain ⟨hfraction, hpower, _⟩ := unsuffixed_of_number h
  have hkind (s : Option Char) (hs : isLong s = true) : (withLong p h s hs).kind = .number := by
    refine Parts.kind_eq_number.2 ⟨hfraction, hpower, ?_⟩
    rintro c rfl
    obtain rfl : c = 'l' := by simpa [isLong] using hs
    decide
  have hchars (s : Option Char) (hs : isLong s = true) :
      p.whole ++ s.toList = (withLong p h s hs).chars := (chars_of_number (hkind s hs)).symm
  have hlowered (s : Option Char) (hs : isLong s = true) :
      (withLong p h s hs).lowered = withLong p h s hs := by
    refine Parts.ext rfl rfl ?_ ?_
    · change p.power.map Lexeme.Power.lowered = p.power
      rw [hpower]
      rfl
    · change s.map Char.toLower = s
      cases s with
      | none => rfl
      | some c =>
        obtain rfl : c = 'l' := by simpa [isLong] using hs
        rfl
  constructor
  · intro s
    have hwhole := startsGap_chars (withLong p h none rfl) s
    rwa [← hchars none rfl, Option.toList_none, List.append_nil] at hwhole
  · intro s hs
    have hfront := Lexeme.front?_alone (p := withLong p h s hs) fun _ => Text.isDigit_of_isDecimal
    rwa [← hchars s hs, hkind s hs] at hfront
  · intro s hs
    rw [hchars s hs, value_number (hkind s hs)]
    exact if_pos hlength
  · intro s hs
    rw [hchars s hs, lower_chars, hlowered s hs]
  · intro s hs
    rw [hchars s hs, generic_chars, Parts.normal_of_number (hkind s hs), hlowered s hs]
  · have hends := endsWith_chars (fun _ => isMark_of_isLongSuffix) (withLong p h none rfl)
    rwa [← hchars none rfl, Option.toList_none, List.append_nil] at hends

/-! ## Hexadecimal numbers -/

/-- The value of a hexadecimal digit. -/
def hexValue (c : Char) : Nat := (Number.digitValue? 16 c).getD 0

/-- What holds of every digit of both cases holds of every hexadecimal digit. -/
theorem of_isHexDigit {p : Char → Bool} {c : Char}
    (hall : ((List.range 55).all fun d =>
      !isHexDigit (Char.ofNat (48 + d)) || p (Char.ofNat (48 + d))) = true)
    (h : isHexDigit c = true) : p c = true := by
  have hrange := toNat_of_isHexDigit h
  have hd := List.all_eq_true.1 hall (c.toNat - 48) (List.mem_range.2 (by omega))
  rw [Nat.add_sub_cancel' hrange.1, Char.ofNat_toNat, h] at hd
  simpa using hd

/-- What the hexadecimal digits are and are not. -/
theorem hexDigit_facts {c : Char} (h : isHexDigit c = true) :
    Number.digitValue? 16 c = some (hexValue c) ∧ isHexDigit c.toLower = true ∧
      hexValue c.toLower = hexValue c ∧ isLongSuffix c = false ∧ c ≠ '.' := by
  have hc := of_isHexDigit (p := fun c => decide (Number.digitValue? 16 c = some (hexValue c)) &&
    isHexDigit c.toLower && decide (hexValue c.toLower = hexValue c) && !isLongSuffix c &&
    decide (c ≠ '.')) (by decide +kernel) h
  simp only [Bool.and_eq_true, decide_eq_true_eq, Bool.not_eq_true'] at hc
  tauto

/-- A hexadecimal number is not changed by the steps that follow the lowercase. -/
theorem generic_hex {cs : List Char} (hdot : '.' ∉ cs)
    (hlower : Text.lower (String.ofList ('0' :: 'x' :: cs)) = String.ofList ('0' :: 'x' :: cs)) :
    generic (String.ofList ('0' :: 'x' :: cs)) = String.ofList ('0' :: 'x' :: cs) := by
  have hsplit : splitExponent? ('0' :: 'x' :: cs) = none := rfl
  have hnodot : '.' ∉ '0' :: 'x' :: cs := by simpa using hdot
  rw [generic, hlower, String.toList_ofList, tidyExponent, hsplit, dropZeroExponent, hsplit]
  change String.ofList (dropBarePoint (dropTrailingZeros ('0' :: 'x' :: cs))) = _
  rw [dropTrailingZeros_of_not_mem hnodot, dropBarePoint_of_not_mem hnodot]

section Hex

variable {x : Char} {ds : List Char} (hall : ∀ d ∈ ds, isHexDigit d = true)
include hall

/-- A hexadecimal number is taken as a whole, with the suffix if there is one. -/
theorem hexNumeral_taken (hne : ds ≠ []) {rest : List Char}
    (hrest : ∀ c ∈ rest.head?, isHexDigit c = false) :
    Lexeme.hexNumeral ['0', x] (ds ++ rest) =
      .number .number ('0' :: x :: ds ++ (rest.take 1).filter isLongSuffix) := by
  have hempty : ds.isEmpty = false := by simpa using hne
  unfold Lexeme.hexNumeral
  simp only [Lexeme.takeWhile_run hall hrest, hempty, List.drop_left]
  rfl

/-- A hexadecimal number does not end like one with a suffix. -/
theorem exists_last (hne : ds ≠ []) :
    ∃ cs d, '0' :: x :: ds = cs ++ [d] ∧ isLongSuffix d = false := by
  refine ⟨'0' :: x :: ds.dropLast, ds.getLast hne, ?_, ?_⟩
  · rw [List.cons_append, List.cons_append, List.dropLast_append_getLast]
  · exact (hexDigit_facts (hall _ (List.getLast_mem hne))).2.2.2.1

variable (hx : x = 'x' ∨ x = 'X')
include hx

/-- A hexadecimal number is read digit by digit, with or without a suffix. -/
theorem value_hex (hne : ds ≠ []) {s : Option Char} (hs : ∀ c ∈ s, isLongSuffix c = true) :
    value .number (String.ofList ('0' :: x :: ds ++ s.toList)) =
      .ok (.int (Number.ofDigits 16 (ds.map hexValue))) := by
  have hdrop : dropSuffix isLongSuffix (String.ofList ('0' :: x :: ds ++ s.toList)) =
      .ok (String.ofList ('0' :: x :: ds)) := by
    cases s with
    | some c => rw [Option.toList_some, dropSuffix_concat, if_pos (hs c rfl)]
    | none =>
      obtain ⟨cs, d, hconcat, hd⟩ := exists_last (x := x) hall hne
      rw [Option.toList_none, List.append_nil, hconcat, dropSuffix_concat, hd]
      rfl
  have hread : Number.readHex? (String.ofList ('0' :: x :: ds)) =
      some (Number.ofDigits 16 (ds.map hexValue) : Int) := by
    have hmarked := readHex_marked hall (List.forall_mem_nil _) hx
    rwa [List.append_nil, Number.digitRun_of_digits (fun d hd => (hexDigit_facts (hall d hd)).1)
      (.inl hne), Option.map_some] at hmarked
  unfold value
  simp only [hdrop, hread, hasHexMark_of_mark hx, bind, Except.bind, if_true]
  rfl

/-- The lowercase of a hexadecimal number. -/
theorem lower_hex {s : Option Char} (hs : ∀ c ∈ s, isLongSuffix c = true) :
    Text.lower (String.ofList ('0' :: x :: ds ++ s.toList)) =
      String.ofList ('0' :: 'x' :: ds.map Char.toLower ++ (s.map Char.toLower).toList) := by
  rw [Text.lower_ofList]
  · have hmark : x.toLower = 'x' := by
      rcases hx with rfl | rfl
      · rfl
      · rfl
    cases s with
    | none => simp [hmark]
    | some c => simp [hmark]
  · intro c hc
    rw [List.mem_append, List.mem_cons, List.mem_cons] at hc
    refine .inr ?_
    rcases hc with (rfl | rfl | hc) | hc
    · decide
    · rcases hx with rfl | rfl
      · decide
      · decide
    · have := toNat_of_isHexDigit (hall c hc)
      omega
    · have hlong := hs c (by simpa using hc)
      simp only [isLongSuffix, Bool.or_eq_true, decide_eq_true_eq] at hlong
      rcases hlong with rfl | rfl
      · decide
      · decide

end Hex

theorem isLongSuffix_of_isLong {s : Option Char} (hs : isLong s = true) :
    ∀ c ∈ s, isLongSuffix c = true := by
  rintro c rfl
  obtain rfl : c = 'l' := by simpa [isLong] using hs
  rfl

theorem wholeText_hex {ds : List Char} (hne : ds ≠ []) (hall : ∀ d ∈ ds, isHexDigit d = true)
    (hlower : ds.map Char.toLower = ds) :
    WholeText ('0' :: 'x' :: ds) (.ok (.int (Number.ofDigits 16 (ds.map hexValue)))) := by
  have hlowered {s : Option Char} (hs : isLong s = true) :
      Text.lower (String.ofList ('0' :: 'x' :: ds ++ s.toList)) =
        String.ofList ('0' :: 'x' :: ds ++ s.toList) := by
    have hsame : s.map Char.toLower = s := by
      cases s with
      | none => rfl
      | some c =>
        obtain rfl : c = 'l' := by simpa [isLong] using hs
        rfl
    rw [lower_hex hall (.inl rfl) (isLongSuffix_of_isLong hs), hlower, hsame]
  constructor
  · intro s
    exact Lexeme.startsGap_cons (by decide) (fun h => absurd h (by decide))
  · intro s hs
    have hrest : ∀ c ∈ s.toList.head?, isHexDigit c = false := by
      cases s with
      | none => nofun
      | some c =>
        obtain rfl : c = 'l' := by simpa [isLong] using hs
        simp [isHexDigit]
    have htaken : (s.toList.take 1).filter isLongSuffix = s.toList := by
      cases s with
      | none => rfl
      | some c => simp [isLongSuffix_of_isLong hs c rfl]
    have hnumeral := hexNumeral_taken (x := 'x') hall hne hrest
    rw [htaken] at hnumeral
    have hword : ¬Lexeme.startsWord '0' = true := by decide
    have hdigit : (Text.isDigit '0' || (decide ('0' = '.') &&
      Lexeme.startsDigit ('x' :: (ds ++ s.toList)))) = true := by rfl
    have hmark : Lexeme.numeral ('0' :: 'x' :: (ds ++ s.toList)) =
      Lexeme.hexNumeral ['0', 'x'] (ds ++ s.toList) := rfl
    rw [List.cons_append, List.cons_append, Lexeme.front?, if_neg hword, if_pos hdigit, hmark,
      hnumeral]
    rfl
  · intro s hs
    exact value_hex hall (.inl rfl) hne (isLongSuffix_of_isLong hs)
  · intro s hs
    exact hlowered hs
  · intro s hs
    refine generic_hex (fun hmem => ?_) (hlowered hs)
    rcases List.mem_append.1 hmem with hdot | hdot
    · exact (hexDigit_facts (hall _ hdot)).2.2.2.2 rfl
    · have hlong := isLongSuffix_of_isLong hs '.' (by simpa using hdot)
      exact absurd hlong (by decide)
  · obtain ⟨cs, d, hconcat, hd⟩ := exists_last (x := 'x') hall hne
    rw [hconcat, endsWith_concat]
    exact hd

end Literal

end MonkeyFormat
