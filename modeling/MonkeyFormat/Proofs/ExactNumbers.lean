import Mathlib.Algebra.Field.Rat
import Mathlib.Tactic.FieldSimp
import Mathlib.Tactic.Ring
import MonkeyFormat.Proofs.NumberSpelling

set_option autoImplicit false

/-! # The generic spelling keeps the number

The text of a number stands for a rational number: the mantissa, with its point, times a power of
ten, or the digits behind a hexadecimal mark. A letter at the end may say of what type the number
is, and does not count. The text is read here from left to right, with nothing in mind of how the
lexer takes numbers or how they are spelled, and every step of the generic spelling is shown to keep
what is read: zeros in front of digits and behind a fraction, a plus, an exponent of zero and a bare
point come and go without a trace. -/

namespace MonkeyFormat

namespace Literal

open Lexeme (isLongSuffix isFloatSuffix)

/-! ## Reading a number exactly -/

/-- The letter at the end of a number that says of what type it is. Among hexadecimal digits the
letters of floats are digits. -/
def suffix? (raw : String) : Option Char :=
  raw.toList.getLast?.filter fun c => isLongSuffix c || (!hasHexMark raw && isFloatSuffix c)

/-- The number without the letter of its type. -/
def stripped (raw : String) : List Char :=
  if (suffix? raw).isSome then raw.toList.dropLast else raw.toList

/-- The digits behind the point of a mantissa. -/
def placesOf (mantissa : List Char) : List Char := (mantissa.dropWhile (· ≠ '.')).drop 1

/-- The number that a mantissa stands for: its digits, with as many of them behind the point as
there are. -/
def mantissaOf (mantissa : List Char) : ℚ :=
  Number.decimalNat (mantissa.filter (· ≠ '.')) / 10 ^ (placesOf mantissa).length

/-- The number that an exponent with its mark stands for. -/
def powerOf : List Char → Int
  | _ :: '-' :: digits => -(Number.decimalNat digits : Int)
  | _ :: '+' :: digits => Number.decimalNat digits
  | _ :: digits => Number.decimalNat digits
  | [] => 0

/-- The number that the text of a number stands for, exactly. -/
def exact (raw : String) : ℚ :=
  if hasHexMark raw then Number.ofDigits 16 (((stripped raw).drop 2).map hexValue)
  else mantissaOf ((stripped raw).takeWhile inMantissa) *
    10 ^ powerOf ((stripped raw).dropWhile inMantissa)

example : exact ".1500E+03D" = 150 ∧ exact "0XfFl" = 255 ∧ exact "7.50e-1" = 3 / 4 := by
  decide +kernel

end Literal

/-! ## Zeros among digits -/

namespace Number

theorem decimalNat_concat (ds : List Char) (d : Char) :
    decimalNat (ds ++ [d]) = decimalNat ds * 10 + Text.digitOf d := by
  simp [decimalNat, ofDigits]

theorem decimalNat_append (ds es : List Char) :
    decimalNat (ds ++ es) = decimalNat ds * 10 ^ es.length + decimalNat es := by
  induction es using List.reverseRecOn with
  | nil => simp [decimalNat, ofDigits]
  | append_singleton es e ih =>
    rw [← List.append_assoc, decimalNat_concat, decimalNat_concat, ih, List.length_append,
      List.length_singleton]
    ring

end Number

namespace Lexeme

open Number (decimalNat decimalNat_append)

theorem decimalNat_significant (ds : List Char) : decimalNat (significant ds) = decimalNat ds := by
  have hzeros : decimalNat (ds.takeWhile (· = '0')) = 0 :=
    Parts.decimalNat_zeros List.all_takeWhile
  have hsplit := decimalNat_append (ds.takeWhile (· = '0')) (ds.dropWhile (· = '0'))
  rw [List.takeWhile_append_dropWhile, hzeros, Nat.zero_mul, Nat.zero_add] at hsplit
  rw [hsplit]
  unfold significant
  by_cases hall : (ds.dropWhile (· = '0')).isEmpty = true
  · rw [if_pos hall, List.isEmpty_iff.1 hall]
    decide
  · rw [if_neg hall]

/-- Only zeros are dropped from the end of a fraction. -/
theorem exists_shorten (ds : List Char) :
    ∃ zeros : List Char, ds = shorten ds ++ zeros ∧ zeros.all (· = '0') = true := by
  have hzeros : (ds.reverse.takeWhile (· = '0')).reverse.all (· = '0') = true := by
    rw [List.all_reverse]
    exact List.all_takeWhile
  have hsplit : ds =
      (ds.reverse.dropWhile (· = '0')).reverse ++ (ds.reverse.takeWhile (· = '0')).reverse := by
    rw [← List.reverse_append, List.takeWhile_append_dropWhile, List.reverse_reverse]
  unfold shorten
  by_cases hall : (ds.reverse.dropWhile (· = '0')).reverse.isEmpty = true
  · -- There are zeros only, and the first of them stays.
    rw [if_pos hall]
    rw [List.isEmpty_iff.1 hall, List.nil_append] at hsplit
    rw [← hsplit] at hzeros
    refine ⟨ds.drop 1, (List.take_append_drop 1 ds).symm, ?_⟩
    rw [List.all_eq_true] at hzeros ⊢
    exact fun d hd => hzeros d (List.mem_of_mem_drop hd)
  · rw [if_neg hall]
    exact ⟨_, hsplit, hzeros⟩

/-! ## Every step keeps the number -/

/-- The number that the parts stand for. -/
def Parts.exact (p : Parts Text.isDecimal) : ℚ :=
  decimalNat (p.whole ++ p.places) / 10 ^ p.places.length * 10 ^ p.power.elim 0 Power.value

namespace Parts

variable (p : Parts Text.isDecimal)

/-- The parts stand for their significand, scaled. -/
theorem exact_eq : p.exact = p.significand * 10 ^ p.scale := by
  rw [exact, significand, scale, zpow_sub₀ (by norm_num), zpow_natCast]
  ring

theorem exact_lowered : p.lowered.exact = p.exact := by
  have hpower : p.lowered.power.elim 0 Power.value = p.power.elim 0 Power.value := by
    change (p.power.map Power.lowered).elim 0 Power.value = _
    cases p.power <;> rfl
  rw [exact, hpower]
  rfl

theorem exact_tidied : p.tidied.exact = p.exact := by
  have hvalue (e : Power Text.isDecimal) : e.tidied.value = e.value := by
    change Number.signed ((if e.sign = some '-' then some '-' else none) = some '-')
      (decimalNat (significant e.digits)) = _
    rw [decimalNat_significant, Power.value]
    by_cases hminus : e.sign = some '-' <;> simp [hminus]
  have hpower : p.tidied.power.elim 0 Power.value = p.power.elim 0 Power.value := by
    change (p.power.map Power.tidied).elim 0 Power.value = _
    cases p.power with
    | none => rfl
    | some e => exact hvalue e
  rw [exact, hpower]
  rfl

theorem exact_unpowered : p.unpowered.exact = p.exact := by
  have hpower : p.unpowered.power.elim 0 Power.value = p.power.elim 0 Power.value := by
    change (if p.power.any Power.isZero && p.suffix.isNone then none
      else p.power).elim 0 Power.value = _
    by_cases hzero : (p.power.any Power.isZero && p.suffix.isNone) = true
    · rw [if_pos hzero]
      rw [Bool.and_eq_true] at hzero
      cases hp : p.power with
      | none => rfl
      | some e =>
        rw [hp, Option.any_some] at hzero
        rw [Option.elim_some, Power.value, decimalNat_zeros hzero.1]
        simp [Number.signed]
    · rw [if_neg hzero]
  rw [exact, hpower]
  rfl

theorem exact_led : p.led.exact = p.exact := by
  have hwhole : decimalNat (p.led.whole ++ p.places) = decimalNat (p.whole ++ p.places) := by
    change decimalNat ((if p.whole.isEmpty then ['0'] else p.whole) ++ p.places) = _
    by_cases hempty : p.whole.isEmpty = true
    · have hzero : decimalNat ['0'] = 0 := by decide
      rw [if_pos hempty, List.isEmpty_iff.1 hempty, decimalNat_append, hzero]
      simp
    · rw [if_neg hempty]
  change (decimalNat (p.led.whole ++ p.places) : ℚ) / _ * _ = _
  rw [hwhole]
  rfl

/-- Zeros behind the places scale the significand and the power of ten alike. -/
theorem decimalNat_div_zeros (whole ds : List Char) {zeros : List Char}
    (h : zeros.all (· = '0') = true) :
    (decimalNat (whole ++ (ds ++ zeros)) : ℚ) / 10 ^ (ds ++ zeros).length =
      decimalNat (whole ++ ds) / 10 ^ ds.length := by
  rw [← List.append_assoc, decimalNat_append, decimalNat_zeros h, List.length_append]
  push_cast
  rw [pow_add]
  field_simp
  simp

theorem exact_shortened : p.shortened.exact = p.exact := by
  have hmantissa : (decimalNat (p.whole ++ p.shortened.places) : ℚ) /
      10 ^ p.shortened.places.length =
        decimalNat (p.whole ++ p.places) / 10 ^ p.places.length := by
    change (decimalNat (p.whole ++ (if p.power.isSome || p.suffix.isNone then
      p.fraction.map shorten else p.fraction).getD []) : ℚ) / 10 ^ ((if p.power.isSome ||
        p.suffix.isNone then p.fraction.map shorten else p.fraction).getD []).length = _
    rw [places]
    by_cases hdrops : (p.power.isSome || p.suffix.isNone) = true
    · rw [if_pos hdrops]
      cases p.fraction with
      | none => rfl
      | some ds =>
        obtain ⟨zeros, hsplit, hzeros⟩ := exists_shorten ds
        have hsame := decimalNat_div_zeros p.whole (shorten ds) hzeros
        rw [← hsplit] at hsame
        exact hsame.symm
    · rw [if_neg hdrops]
  rw [exact, exact, ← hmantissa]
  rfl

theorem exact_unpointed : p.unpointed.exact = p.exact := by
  have hplaces : p.unpointed.places = p.places := by
    change (if p.fraction = some [] then none else p.fraction).getD [] = _
    rw [places]
    by_cases hbare : p.fraction = some []
    · rw [if_pos hbare, hbare]
      rfl
    · rw [if_neg hbare]
  rw [exact, hplaces]
  rfl

/-- The generic spelling of parts stands for the same number. -/
theorem exact_normal : p.normal.exact = p.exact := by
  rw [normal, exact_unpointed, exact_shortened, exact_led, exact_unpowered, exact_tidied,
    exact_lowered]

end Parts

end Lexeme

namespace Literal

open Lexeme (Parts Power isMark isHexDigit isLongSuffix isFloatSuffix)

/-! ## Suffixes -/

theorem suffix?_concat (cs : List Char) (c : Char) : suffix? (String.ofList (cs ++ [c])) =
    if isLongSuffix c || (!hasHexMark (String.ofList (cs ++ [c])) && isFloatSuffix c) then some c
    else none := by
  rw [suffix?, String.toList_ofList, List.getLast?_concat, Option.filter_some]

theorem stripped_of_suffix {cs : List Char} {s : Option Char}
    (h : suffix? (String.ofList (cs ++ s.toList)) = s) :
    stripped (String.ofList (cs ++ s.toList)) = cs := by
  rw [stripped, h, String.toList_ofList]
  cases s with
  | some c => simp
  | none => simp

/-! ## Numbers in decimal -/

section Decimal

variable (p : Parts Text.isDecimal)

theorem hasHexMark_chars : hasHexMark (String.ofList p.chars) = false := by
  rw [Bool.eq_false_iff]
  intro hmark
  obtain ⟨x, hx, hsplit⟩ := eq_of_hasHexMark hmark
  have hmem : x ∈ p.chars := by
    rw [hsplit]
    simp
  rcases Parts.mem_chars hmem with hdigit | rfl | rfl | rfl | hletter
  · rcases hx with rfl | rfl <;> exact absurd hdigit (by decide)
  · rcases hx with hx | hx <;> exact absurd hx (by decide)
  · rcases hx with hx | hx <;> exact absurd hx (by decide)
  · rcases hx with hx | hx <;> exact absurd hx (by decide)
  · obtain ⟨-, -, -, hsmall, hlarge⟩ := Lexeme.isMark_facts hletter
    exact hx.elim hsmall hlarge

theorem suffix?_chars : suffix? (String.ofList p.chars) = p.suffix := by
  have hmark := hasHexMark_chars p
  rw [p.chars_unsuffixed] at hmark ⊢
  cases hs : p.suffix with
  | some c =>
    rw [hs, Option.toList_some] at hmark
    rw [Option.toList_some, suffix?_concat, hmark, if_pos]
    rcases p.suffix_cases c hs with hfloat | ⟨hlong, -⟩
    · simp [hfloat]
    · simp [hlong]
  | none =>
    -- A number without a suffix ends in a digit or in its point.
    obtain ⟨cs, c, hchars, hc⟩ := Parts.last_of_unsuffixed (p := p.unsuffixed) rfl
    rw [Option.toList_none, List.append_nil, hchars, suffix?_concat, if_neg]
    intro hletter
    have hmark : isMark c = true := by
      rw [Bool.or_eq_true, Bool.and_eq_true] at hletter
      rcases hletter with hlong | ⟨-, hfloat⟩
      · simp [isMark, hlong]
      · simp [isMark, hfloat]
    have hfacts := Lexeme.isMark_facts hmark
    rcases hc with hdigit | rfl
    · rw [Text.isDigit_of_isDecimal hdigit] at hfacts
      cases hfacts.1
    · exact hfacts.2.2.1 rfl

theorem stripped_chars : stripped (String.ofList p.chars) = p.unsuffixed.chars := by
  have hsuffix := suffix?_chars p
  rw [p.chars_unsuffixed] at hsuffix ⊢
  exact stripped_of_suffix hsuffix

/-- The power of ten is read off the text of the exponent. -/
theorem powerOf_chars (e : Power Text.isDecimal) : powerOf e.chars = e.value := by
  rw [Power.chars, Power.value]
  cases hsign : e.sign with
  | some c =>
    rcases e.sign_cases c hsign with rfl | rfl <;> simp [powerOf, Number.signed]
  | none =>
    obtain ⟨d, ds, hdigits⟩ := List.exists_cons_of_ne_nil e.digits_ne
    have hd : Text.isDecimal d = true := e.digits_all d (by rw [hdigits]; exact List.mem_cons_self)
    rw [Option.toList_none, List.nil_append, hdigits]
    unfold powerOf
    split
    · next heq =>
      cases heq
      exact absurd hd (by decide)
    · next heq =>
      cases heq
      exact absurd hd (by decide)
    · next heq =>
      cases heq
      simp [Number.signed]
    · next heq => cases heq

/-- The mantissa is read off the digits around the point. -/
theorem mantissaOf_chars : mantissaOf (p.whole ++ p.point) =
    Number.decimalNat (p.whole ++ p.places) / 10 ^ p.places.length := by
  have hdigits {ds : List Char} (hds : ∀ c ∈ ds, Text.isDecimal c = true) :
      ∀ c ∈ ds, decide (c ≠ '.') = true := by
    intro c hc
    rw [decide_eq_true_eq]
    rintro rfl
    exact absurd (hds _ hc) (by decide)
  have hplaces : placesOf (p.whole ++ p.point) = p.places := by
    rw [placesOf, List.dropWhile_append_of_pos (hdigits p.whole_all), Parts.point, Parts.places]
    cases p.fraction with
    | none => rfl
    | some ds => rfl
  have hall : (p.whole ++ p.point).filter (· ≠ '.') = p.whole ++ p.places := by
    rw [List.filter_append, List.filter_eq_self.2 (hdigits p.whole_all), Parts.point, Parts.places]
    cases hf : p.fraction with
    | none => rfl
    | some ds =>
      have hkept := List.filter_eq_self.2 (hdigits (p.fraction_all ds hf))
      simpa using hkept
  rw [mantissaOf, hplaces, hall]

/-- The text of a number stands for what its parts stand for. -/
theorem exact_chars : exact (String.ofList p.chars) = p.exact := by
  have hmantissa : p.unsuffixed.chars.takeWhile inMantissa = p.whole ++ p.point :=
    takeWhile_mantissa p.unsuffixed
  have hpower : p.unsuffixed.chars.dropWhile inMantissa = p.powerChars := by
    have hbehind := drop_mantissa p.unsuffixed
    rw [← takeWhile_mantissa p.unsuffixed, drop_takeWhile] at hbehind
    exact hbehind.trans (List.append_nil _)
  rw [exact, hasHexMark_chars, stripped_chars, hmantissa, hpower, mantissaOf_chars, Parts.exact,
    Parts.powerChars]
  cases p.power with
  | none => rfl
  | some e => simp [powerOf_chars]

end Decimal

/-! ## Hexadecimal numbers -/

theorem toLower_comp_toLower : Char.toLower ∘ Char.toLower = Char.toLower :=
  funext fun c => c.toLower_toLower_eq_toLower

theorem isHexDigit_lowered {ds : List Char} (hall : ∀ d ∈ ds, isHexDigit d = true) :
    ∀ d ∈ ds.map Char.toLower, isHexDigit d = true :=
  List.forall_mem_map.2 fun d hd => (hexDigit_facts (hall d hd)).2.1

theorem isLongSuffix_lowered {s : Option Char} (hs : ∀ c ∈ s, isLongSuffix c = true) :
    ∀ c ∈ s.map Char.toLower, isLongSuffix c = true := by
  intro c hc
  obtain ⟨d, hd, rfl⟩ := Option.map_eq_some_iff.1 hc
  exact Lexeme.isLongSuffix_toLower (hs d hd)

section Hex

variable {x : Char} {ds : List Char} {s : Option Char} (hx : x = 'x' ∨ x = 'X') (hne : ds ≠ [])
  (hall : ∀ d ∈ ds, isHexDigit d = true) (hs : ∀ c ∈ s, isLongSuffix c = true)
include hx hne hall hs

theorem suffix?_hex : suffix? (String.ofList ('0' :: x :: ds ++ s.toList)) = s := by
  cases s with
  | some c => rw [Option.toList_some, suffix?_concat, hs c rfl, Bool.true_or, if_pos rfl]
  | none =>
    obtain ⟨cs, d, hconcat, hd⟩ := exists_last (x := x) hall hne
    have hmark := hasHexMark_of_mark hx ds
    rw [hconcat] at hmark
    rw [Option.toList_none, List.append_nil, hconcat, suffix?_concat, hd, hmark]
    rfl

theorem exact_hex : exact (String.ofList ('0' :: x :: ds ++ s.toList)) =
    Number.ofDigits 16 (ds.map hexValue) := by
  have hmark : hasHexMark (String.ofList ('0' :: x :: ds ++ s.toList)) = true :=
    hasHexMark_of_mark hx (ds ++ s.toList)
  rw [exact, hmark, stripped_of_suffix (suffix?_hex hx hne hall hs)]
  rfl

omit hne in
/-- A hexadecimal number is spelled in lowercase. -/
theorem generic_lower_hex : generic (String.ofList ('0' :: x :: ds ++ s.toList)) =
    String.ofList ('0' :: 'x' :: ds.map Char.toLower ++ (s.map Char.toLower).toList) := by
  -- The other steps come to nothing, as they do for the lowercase.
  have hlower := lower_hex hall hx hs
  have hdigits := isHexDigit_lowered hall
  have hlong := isLongSuffix_lowered hs
  have hagain : Text.lower (String.ofList
      ('0' :: 'x' :: (ds.map Char.toLower ++ (s.map Char.toLower).toList))) =
        String.ofList ('0' :: 'x' :: (ds.map Char.toLower ++ (s.map Char.toLower).toList)) := by
    have htwice := lower_hex hdigits (.inl rfl) hlong
    rw [List.map_map, Option.map_map, toLower_comp_toLower] at htwice
    exact htwice
  have hpoint : '.' ∉ ds.map Char.toLower ++ (s.map Char.toLower).toList := by
    intro hmem
    rcases List.mem_append.1 hmem with hdot | hdot
    · exact (hexDigit_facts (hdigits _ hdot)).2.2.2.2 rfl
    · exact absurd (hlong '.' (by simpa using hdot)) (by decide)
  have hkept := generic_hex hpoint hagain
  rw [generic, hagain] at hkept
  rw [generic, hlower]
  exact hkept

end Hex

/-! ## The numbers of a source -/

/-- How the number tokens with a value are written. -/
inductive Written : TokenKind → String → Prop
  | decimal (p : Parts Text.isDecimal) : Written p.kind (String.ofList p.chars)
  | hex (x : Char) (ds : List Char) (s : Option Char) (hx : x = 'x' ∨ x = 'X') (hne : ds ≠ [])
      (hall : ∀ d ∈ ds, isHexDigit d = true) (hs : ∀ c ∈ s, isLongSuffix c = true) :
      Written .number (String.ofList ('0' :: x :: ds ++ s.toList))

theorem written_of_token {source : String} {origin : Option String} {tokens : List Token}
    {comments : List Comment} (h : tokenize source origin = .ok (tokens, comments)) {t : Token}
    (ht : t ∈ tokens) (hkind : t.kind = .number ∨ t.kind = .float) {v : Value}
    (hv : value t.kind t.text = .ok v) : Written t.kind t.text := by
  rcases tokenize_front h t ht with hend | ⟨cs, taken, hfront, htext⟩
  · rw [hend] at hkind
    exact absurd hkind (by decide)
  · rw [htext] at hv ⊢
    rcases written_cases hfront hkind hv with
      ⟨p, rfl, hp⟩ | ⟨hnumber, x, ds, s, hx, rfl, hne, hall, hs⟩
    · rw [hp]
      exact .decimal p
    · rw [hnumber]
      exact .hex x ds s hx hne hall hs

/-- The value of a whole number is the number that its text stands for, and the value of a float is
the floating point number nearest to it. -/
theorem Written.value_exact {kind : TokenKind} {raw : String} (h : Written kind raw) {v : Value}
    (hv : value kind raw = .ok v) :
    (kind = .number → ∃ n : Int, v = .int n ∧ exact raw = n) ∧
    (kind = .float → ∃ (m : Nat) (e : Int), v = .float (Binary64.ofDecimal false m e) ∧
      exact raw = m * 10 ^ e) := by
  cases h with
  | decimal p =>
    rw [exact_chars, p.exact_eq]
    constructor
    · intro hnumber
      obtain ⟨hfraction, hpower, -⟩ := unsuffixed_of_number hnumber
      have hscale : p.scale = 0 := by simp [Parts.scale, Parts.places, hfraction, hpower]
      rw [hnumber, value_number hnumber] at hv
      split at hv
      · cases hv
        exact ⟨_, rfl, by simp [hscale]⟩
      · cases hv
    · intro hfloat
      rw [hfloat, value_float hfloat] at hv
      cases hv
      exact ⟨p.significand, p.scale, rfl, rfl⟩
  | hex x ds s hx hne hall hs =>
    rw [value_hex hall hx hne hs] at hv
    cases hv
    rw [exact_hex hx hne hall hs]
    exact ⟨fun _ => ⟨_, rfl, by simp⟩, fun hfloat => by cases hfloat⟩

/-- The generic spelling of a number stands for the same number, has the same suffix in lowercase,
and is its own spelling. -/
theorem Written.generic_keeps {kind : TokenKind} {raw : String} (h : Written kind raw) :
    exact (generic raw) = exact raw ∧ suffix? (generic raw) = (suffix? raw).map Char.toLower ∧
      generic (generic raw) = generic raw := by
  cases h with
  | decimal p =>
    rw [generic_chars, exact_chars, exact_chars, suffix?_chars, suffix?_chars, generic_chars,
      p.exact_normal, Parts.normal_normal]
    exact ⟨rfl, rfl, rfl⟩
  | hex x ds s hx hne hall hs =>
    have hdigits := isHexDigit_lowered hall
    have hlong := isLongSuffix_lowered hs
    have hsome : ds.map Char.toLower ≠ [] := by simpa using hne
    have hvalue : (ds.map Char.toLower).map hexValue = ds.map hexValue := by
      rw [List.map_map]
      exact List.map_congr_left fun d hd => (hexDigit_facts (hall d hd)).2.2.1
    rw [generic_lower_hex hx hall hs, exact_hex hx hne hall hs, suffix?_hex hx hne hall hs,
      exact_hex (.inl rfl) hsome hdigits hlong, suffix?_hex (.inl rfl) hsome hdigits hlong,
      generic_lower_hex (.inl rfl) hdigits hlong, hvalue, List.map_map, Option.map_map,
      toLower_comp_toLower]
    exact ⟨rfl, rfl, rfl⟩

/-- The generic spelling of every number of a source stands for the same number, keeps its suffix in
lowercase, and is spelled as it is. -/
theorem generic_keeps_number {source : String} {origin : Option String} {tokens : List Token}
    {comments : List Comment} (h : tokenize source origin = .ok (tokens, comments)) {t : Token}
    (ht : t ∈ tokens) (hkind : t.kind = .number ∨ t.kind = .float) {v : Value}
    (hv : value t.kind t.text = .ok v) :
    exact (generic t.text) = exact t.text ∧
      suffix? (generic t.text) = (suffix? t.text).map Char.toLower ∧
      generic (generic t.text) = generic t.text :=
  (written_of_token h ht hkind hv).generic_keeps

/-- No digit before the point, zeros behind the fraction that a suffix shields, and a plus and a
zero in the exponent. -/
theorem generic_keeps_number_exponent : ∃ tokens comments t,
    tokenize "x = .1500E+03D;" none = .ok (tokens, comments) ∧ t ∈ tokens ∧ t.kind = .float ∧
      t.text = ".1500E+03D" ∧ (∃ v, value t.kind t.text = .ok v) ∧
      exact (generic ".1500E+03D") = exact ".1500E+03D" ∧
      suffix? (generic ".1500E+03D") = (suffix? ".1500E+03D").map Char.toLower ∧
      generic (generic ".1500E+03D") = generic ".1500E+03D" := by
  have hlexes : ((tokenize "x = .1500E+03D;" none).map fun lexed =>
      lexed.1.map Token.glyph).toOption =
        some [⟨.ident, "x"⟩, ⟨.assign, "="⟩, ⟨.float, ".1500E+03D"⟩, ⟨.semicolon, ";"⟩,
          Lexer.endGlyph] := by decide +kernel
  have hreads : (value .float ".1500E+03D").toBool = true := by decide +kernel
  cases h : tokenize "x = .1500E+03D;" none with
  | error fault =>
    rw [h] at hlexes
    cases hlexes
  | ok lexed =>
    obtain ⟨tokens, comments⟩ := lexed
    rw [h] at hlexes
    have hglyphs : tokens.map Token.glyph = _ := Option.some.inj hlexes
    obtain ⟨t, ht, hglyph⟩ := List.mem_map.1
      (show ⟨.float, ".1500E+03D"⟩ ∈ tokens.map Token.glyph by rw [hglyphs]; simp)
    have hkind : t.kind = .float := congrArg Glyph.kind hglyph
    have htext : t.text = ".1500E+03D" := congrArg Glyph.text hglyph
    obtain ⟨v, hv⟩ : ∃ v, value t.kind t.text = .ok v := by
      rw [hkind, htext]
      cases hv : value .float ".1500E+03D" with
      | error fault =>
        rw [hv] at hreads
        cases hreads
      | ok v => exact ⟨v, rfl⟩
    have hkeeps := generic_keeps_number h ht (.inr hkind) hv
    rw [htext] at hkeeps
    exact ⟨tokens, comments, t, rfl, ht, hkind, htext, ⟨v, hv⟩, hkeeps⟩

end Literal

end MonkeyFormat
