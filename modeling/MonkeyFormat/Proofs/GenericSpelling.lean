import MonkeyFormat.Literal.Spelling
import MonkeyFormat.Proofs.NumberReading

set_option autoImplicit false

/-! # The generic spelling by parts

Each step of the generic spelling changes one part of a number: the marks become lowercase, the
exponent loses a plus and leading zeros, then an exponent of zero is dropped, a leading point gets
a zero in front, the fraction loses the zeros at its end, and a point without digits is dropped.
Steps on the text and on the parts agree, and the parts they leave are changed by none of them. -/

namespace MonkeyFormat

/-! ## Lowercase -/

namespace Text

theorem lowerRuns_zeros : (decimalZeros.toList.all fun z =>
    (lowerUp.toList ++ lowerDown.toList).all fun run =>
      decide (z + 10 ≤ run.1) || decide (run.2.1 < z)) = true := by
  decide +kernel

theorem sigma_zeros : (decimalZeros.toList.all fun z =>
    (decide (z + 10 ≤ 0x3a3) || decide (0x3a3 < z)) &&
      (decide (z + 10 ≤ 0x130) || decide (0x130 < z))) = true := by
  decide +kernel

/-- No decimal digit is in a run of capitals. -/
theorem not_inRun_of_isDecimal {c : Char} (h : isDecimal c = true) {run : Nat × Nat × Nat × Nat}
    (hrun : run ∈ lowerUp.toList ++ lowerDown.toList) : inRun c.toNat run = false := by
  obtain ⟨z, hz, hle, hlt⟩ := exists_zero h
  have hapart := List.all_eq_true.1 (List.all_eq_true.1 lowerRuns_zeros z hz) run hrun
  rw [Bool.or_eq_true, decide_eq_true_eq, decide_eq_true_eq] at hapart
  rw [Bool.eq_false_iff]
  intro hin
  simp only [inRun, Bool.and_eq_true, decide_eq_true_eq] at hin
  omega

theorem toLower_of_isDecimal {c : Char} (h : isDecimal c = true) : c.toLower = c := by
  refine Char.toLower_eq_of_not_isUpper fun hupper => ?_
  have hrange : 65 ≤ c.toNat ∧ c.toNat ≤ 90 := by
    simp only [Char.isUpper, decide_eq_true_eq] at hupper
    exact hupper
  rw [isDecimal_of_ascii (by omega)] at h
  have hdigit := toNat_of_isDigit h
  omega

theorem lowerChar_of_isDecimal {c : Char} (h : isDecimal c = true) : lowerChar c = c := by
  have hnone {runs : Array (Nat × Nat × Nat × Nat)}
      (hruns : ∀ run ∈ runs.toList, run ∈ lowerUp.toList ++ lowerDown.toList) :
      runs.find? (inRun c.toNat) = none := by
    rw [Array.find?_eq_none]
    intro run hrun
    rw [not_inRun_of_isDecimal h (hruns run (Array.mem_def.1 hrun))]
    decide
  unfold lowerChar
  split
  · exact toLower_of_isDecimal h
  · rw [hnone (fun run hrun => List.mem_append_left _ hrun),
      hnone (fun run hrun => List.mem_append_right _ hrun)]

/-- Decimal digits and ASCII characters are lowered one by one. -/
theorem lowerAfter_eq_map {cs : List Char}
    (h : ∀ c ∈ cs, isDecimal c = true ∨ c.toNat < 128) (before : List Char) :
    lowerAfter before cs = cs.map Char.toLower := by
  induction cs generalizing before with
  | nil => rfl
  | cons c cs ih =>
    have hplain : c.toNat ≠ 0x3a3 ∧ c.toNat ≠ 0x130 ∧ lowerChar c = c.toLower := by
      rcases h c List.mem_cons_self with hdecimal | hlow
      · obtain ⟨z, hz, hle, hlt⟩ := exists_zero hdecimal
        have hapart := List.all_eq_true.1 sigma_zeros z hz
        simp only [Bool.and_eq_true, Bool.or_eq_true, decide_eq_true_eq] at hapart
        refine ⟨by omega, by omega, ?_⟩
        rw [lowerChar_of_isDecimal hdecimal, toLower_of_isDecimal hdecimal]
      · exact ⟨by omega, by omega, if_pos hlow⟩
    rw [lowerAfter, if_neg hplain.1, if_neg hplain.2.1, hplain.2.2,
      ih fun d hd => h d (List.mem_cons_of_mem _ hd)]
    rfl

theorem lower_ofList {cs : List Char} (h : ∀ c ∈ cs, isDecimal c = true ∨ c.toNat < 128) :
    lower (String.ofList cs) = String.ofList (cs.map Char.toLower) := by
  rw [lower, String.toList_ofList, lowerAfter_eq_map h]

end Text

namespace Lexeme

variable {digit : Char → Bool}

/-! ## Steps on the parts -/

/-- The exponent with its mark in lowercase. -/
def Power.lowered (e : Power digit) : Power digit :=
  { e with
    mark := 'e'
    mark_cases := .inl rfl }

theorem isFloatSuffix_toLower {c : Char} (h : isFloatSuffix c = true) :
    isFloatSuffix c.toLower = true := by
  simp only [isFloatSuffix, Bool.or_eq_true, decide_eq_true_eq] at h
  rcases h with ((rfl | rfl) | rfl) | rfl <;> decide

theorem isLongSuffix_toLower {c : Char} (h : isLongSuffix c = true) :
    isLongSuffix c.toLower = true := by
  simp only [isLongSuffix, Bool.or_eq_true, decide_eq_true_eq] at h
  rcases h with rfl | rfl <;> decide

/-- Digits without the zeros in front of them; the last zero stays. -/
def significant (ds : List Char) : List Char :=
  if (ds.dropWhile (· = '0')).isEmpty then ['0'] else ds.dropWhile (· = '0')

/-- Digits without the zeros at their end; the first digit stays. -/
def shorten (ds : List Char) : List Char :=
  if (ds.reverse.dropWhile (· = '0')).reverse.isEmpty then ds.take 1
  else (ds.reverse.dropWhile (· = '0')).reverse

theorem significant_ne_nil (ds : List Char) : significant ds ≠ [] := by
  unfold significant
  split
  · simp
  · next h => rwa [List.isEmpty_iff] at h

theorem mem_significant {ds : List Char} {c : Char} (h : c ∈ significant ds) :
    c = '0' ∨ c ∈ ds := by
  unfold significant at h
  split at h
  · exact .inl (List.mem_singleton.1 h)
  · exact .inr ((List.dropWhile_sublist _).subset h)

theorem mem_shorten {ds : List Char} {c : Char} (h : c ∈ shorten ds) : c ∈ ds := by
  unfold shorten at h
  split at h
  · exact List.mem_of_mem_take h
  · exact List.mem_reverse.1 ((List.dropWhile_sublist _).subset (List.mem_reverse.1 h))

theorem shorten_eq_nil {ds : List Char} (h : shorten ds = []) : ds = [] := by
  unfold shorten at h
  split at h
  · cases ds with
    | nil => rfl
    | cons d ds => cases h
  · next hne => exact absurd (List.isEmpty_iff.2 h) hne

/-- The exponent without a plus and without leading zeros. -/
def Power.tidied (e : Power Text.isDecimal) : Power Text.isDecimal :=
  { e with
    sign := if e.sign = some '-' then some '-' else none
    digits := significant e.digits
    sign_cases := by
      intro s hs
      split at hs
      · cases hs
        exact .inr rfl
      · cases hs
    digits_ne := significant_ne_nil _
    digits_all := by
      intro c hc
      rcases mem_significant hc with rfl | hc
      · decide
      · exact e.digits_all c hc }

/-- Is the exponent zero? -/
def Power.isZero (e : Power digit) : Bool := e.digits.all (· = '0')

namespace Parts

/-- The number in lowercase. -/
def lowered (p : Parts digit) : Parts digit :=
  { p with
    power := p.power.map Power.lowered
    suffix := p.suffix.map Char.toLower
    suffix_cases := by
      intro c hc
      obtain ⟨d, hd, rfl⟩ := Option.map_eq_some_iff.1 hc
      rcases p.suffix_cases d hd with hfloat | ⟨hlong, hfraction, hpower⟩
      · exact .inl (isFloatSuffix_toLower hfloat)
      · exact .inr ⟨isLongSuffix_toLower hlong, hfraction, by rw [hpower]; rfl⟩
    bare := by
      intro h
      simpa using p.bare h }

/-- The number with a tidy exponent. -/
def tidied (p : Parts Text.isDecimal) : Parts Text.isDecimal :=
  { p with
    power := p.power.map Power.tidied
    suffix_cases := by
      intro c hc
      simpa using p.suffix_cases c hc
    bare := by
      intro h
      simpa using p.bare h }

/-- The number without an exponent of zero, unless a suffix follows it. -/
def unpowered (p : Parts digit) : Parts digit :=
  { p with
    power := if p.power.any Power.isZero && p.suffix.isNone then none else p.power
    suffix_cases := by
      intro c hc
      rcases p.suffix_cases c hc with hfloat | ⟨hlong, hfraction, hpower⟩
      · exact .inl hfloat
      · exact .inr ⟨hlong, hfraction, by rw [hpower]; split <;> rfl⟩
    bare := by
      intro h
      obtain ⟨hpower, hsuffix⟩ := p.bare h
      exact ⟨by rw [hpower]; split <;> rfl, hsuffix⟩ }

/-- The number with a digit in front of the point. -/
def led (p : Parts Text.isDecimal) : Parts Text.isDecimal :=
  { p with
    whole := if p.whole.isEmpty then ['0'] else p.whole
    whole_all := by
      intro c hc
      split at hc
      · rw [List.mem_singleton.1 hc]
        decide
      · exact p.whole_all c hc
    nonempty := by
      intro h
      split at h
      · cases h
      · next hne => exact absurd (List.isEmpty_iff.2 h) hne }

/-- The number without zeros at the end of its fraction, unless a suffix follows this. -/
def shortened (p : Parts digit) : Parts digit :=
  { p with
    fraction := if p.power.isSome || p.suffix.isNone then p.fraction.map shorten else p.fraction
    fraction_all := by
      intro ds hds c hc
      split at hds
      · obtain ⟨es, hes, rfl⟩ := Option.map_eq_some_iff.1 hds
        exact p.fraction_all es hes c (mem_shorten hc)
      · exact p.fraction_all ds hds c hc
    suffix_cases := by
      intro c hc
      rcases p.suffix_cases c hc with hfloat | ⟨hlong, hfraction, hpower⟩
      · exact .inl hfloat
      · exact .inr ⟨hlong, by rw [hfraction]; split <;> rfl, hpower⟩
    nonempty := by
      intro h
      obtain ⟨ds, hds, hne⟩ := p.nonempty h
      rw [hds]
      split
      · exact ⟨_, rfl, fun hnil => hne (shorten_eq_nil hnil)⟩
      · exact ⟨ds, rfl, hne⟩
    bare := by
      intro h
      split at h
      · obtain ⟨ds, hds, hnil⟩ := Option.map_eq_some_iff.1 h
        rw [shorten_eq_nil hnil] at hds
        exact p.bare hds
      · exact p.bare h }

/-- The number without a point that no digit follows. -/
def unpointed (p : Parts digit) : Parts digit :=
  { p with
    fraction := if p.fraction = some [] then none else p.fraction
    fraction_all := by
      intro ds hds
      split at hds
      · cases hds
      · exact p.fraction_all ds hds
    suffix_cases := by
      intro c hc
      rcases p.suffix_cases c hc with hfloat | ⟨hlong, hfraction, hpower⟩
      · exact .inl hfloat
      · exact .inr ⟨hlong, by rw [hfraction]; split <;> rfl, hpower⟩
    nonempty := by
      intro h
      obtain ⟨ds, hds, hne⟩ := p.nonempty h
      refine ⟨ds, ?_, hne⟩
      rw [hds, if_neg]
      · rfl
      · exact fun hnil => hne (Option.some.inj hnil)
    bare := by
      intro h
      split at h
      · cases h
      · exact p.bare h }

/-- The number as it is spelled generically. -/
def normal (p : Parts Text.isDecimal) : Parts Text.isDecimal :=
  p.lowered.tidied.unpowered.led.shortened.unpointed

end Parts

end Lexeme

/-! ## Steps on the text -/

namespace Literal

open Lexeme (Parts Power significant shorten isMark)

theorem drop_takeWhile (q : Char → Bool) (cs : List Char) :
    cs.drop (cs.takeWhile q).length = cs.dropWhile q := by
  have h : (cs.takeWhile q ++ cs.dropWhile q).drop (cs.takeWhile q).length = cs.dropWhile q :=
    List.drop_left
  rwa [List.takeWhile_append_dropWhile] at h

/-- What stands behind is no zero, so only the digits lose some. -/
theorem dropWhile_append_stop {q : Char → Bool} {cs rest : List Char}
    (hrest : ∀ c ∈ rest.head?, q c = false) :
    (cs ++ rest).dropWhile q = cs.dropWhile q ++ rest := by
  rw [List.dropWhile_append]
  split
  · next h =>
    rw [List.isEmpty_iff.1 h, List.nil_append]
    cases rest with
    | nil => rfl
    | cons c cs => rw [List.dropWhile_cons_of_neg (by simp [hrest c rfl])]
  · rfl

variable {p : Parts Text.isDecimal}

/-- A mark is neither a digit nor a point. -/
theorem not_inMantissa_of_isMark {c : Char} (h : isMark c = true) : inMantissa c = false := by
  have hfacts := Lexeme.isMark_facts h
  have hdecimal : Text.isDecimal c = false := by
    rw [Bool.eq_false_iff]
    intro hdecimal
    rw [Text.isDigit_of_isDecimal hdecimal] at hfacts
    cases hfacts.1
  simp [inMantissa, hdecimal, hfacts.2.2.1]

theorem not_zero_of_suffix {c : Char} (h : c ∈ p.suffix.toList.head?) :
    decide (c = '0') = false := by
  rw [decide_eq_false_iff_not]
  rintro rfl
  have hsuffix : '0' ∈ p.suffix := by
    cases hs : p.suffix with
    | none =>
      rw [hs] at h
      cases h
    | some d =>
      rw [hs] at h
      exact h
  exact absurd (Parts.isMark_suffix hsuffix) (by decide)

/-- The mantissa reaches up to the exponent, the suffix or the end. -/
theorem takeWhile_mantissa (p : Parts Text.isDecimal) :
    p.chars.takeWhile inMantissa = p.whole ++ p.point := by
  have hchars : p.chars = (p.whole ++ p.point) ++ (p.powerChars ++ (p.suffix.toList ++ [])) := by
    simp [Parts.chars]
  rw [hchars]
  refine Lexeme.takeWhile_run (fun c hc => ?_) fun c hc => ?_
  · rcases List.mem_append.1 hc with hwhole | hpoint
    · simp [inMantissa, p.whole_all c hwhole]
    · cases hfraction : p.fraction with
      | none =>
        rw [Parts.point, hfraction] at hpoint
        cases hpoint
      | some ds =>
        rw [Parts.point, hfraction] at hpoint
        rcases List.mem_cons.1 hpoint with rfl | hds
        · rfl
        · simp [inMantissa, p.fraction_all ds hfraction c hds]
  · rcases Parts.head_power hc with hmark | ⟨_, _, hnil⟩
    · exact not_inMantissa_of_isMark hmark
    · cases hnil

theorem mantissa_ne_nil (p : Parts Text.isDecimal) : p.whole ++ p.point ≠ [] := by
  intro hnil
  obtain ⟨hwhole, hpoint⟩ := List.append_eq_nil_iff.1 hnil
  obtain ⟨ds, hds, _⟩ := p.nonempty hwhole
  rw [Parts.point, hds] at hpoint
  cases hpoint

/-- A number starts without a sign. -/
theorem sign_chars (p : Parts Text.isDecimal) :
    (p.chars.take 1).filter (fun c => c = '+' || c = '-') = [] := by
  obtain ⟨c, cs, hchars, hstart⟩ := p.starts
  have hc : (decide (c = '+') || decide (c = '-')) = false := by
    rw [Bool.or_eq_false_iff, decide_eq_false_iff_not, decide_eq_false_iff_not]
    rcases hstart with hdigit | ⟨rfl, _⟩
    · constructor
      · rintro rfl
        exact absurd hdigit (by decide)
      · rintro rfl
        exact absurd hdigit (by decide)
    · decide
  simp [hchars, hc]

theorem drop_mantissa (p : Parts Text.isDecimal) :
    p.chars.drop (p.whole ++ p.point).length = p.powerChars ++ p.suffix.toList := by
  have hchars : p.chars = (p.whole ++ p.point) ++ (p.powerChars ++ p.suffix.toList) := by
    simp [Parts.chars]
  rw [hchars, List.drop_left]

theorem splitExponent_none (h : p.power = none) : splitExponent? p.chars = none := by
  have hbehind : p.powerChars ++ p.suffix.toList = p.suffix.toList := by
    rw [Parts.powerChars, h]
    rfl
  unfold splitExponent?
  simp only [sign_chars, List.length_nil, List.drop_zero, takeWhile_mantissa, drop_mantissa,
    hbehind]
  split
  · next rest hsuffix =>
    -- no suffix is a mark
    have hmem : 'e' ∈ p.suffix := Option.mem_toList.1 (by rw [hsuffix]; exact List.mem_cons_self)
    rcases p.suffix_cases 'e' hmem with hfloat | ⟨hlong, _⟩
    · exact absurd hfloat (by decide)
    · exact absurd hlong (by decide)
  · rfl

theorem splitExponent_some {e : Power Text.isDecimal} (h : p.power = some e)
    (hmark : e.mark = 'e') : splitExponent? p.chars =
      some (p.whole ++ p.point, e.sign.toList ++ (e.digits ++ p.suffix.toList)) := by
  have hbehind : p.powerChars ++ p.suffix.toList =
      'e' :: (e.sign.toList ++ (e.digits ++ p.suffix.toList)) := by
    rw [Parts.powerChars, h, ← hmark, ← List.append_assoc]
    rfl
  have hne : (p.whole ++ p.point).isEmpty = false := by
    rw [List.isEmpty_eq_false_iff]
    exact mantissa_ne_nil p
  unfold splitExponent?
  simp only [sign_chars, List.length_nil, List.drop_zero, takeWhile_mantissa, drop_mantissa,
    hbehind, hne]
  rfl

/-- Behind leading zeros stand the other digits and the suffix. -/
theorem dropWhile_zeros (p : Parts Text.isDecimal) (ds : List Char) :
    (ds ++ p.suffix.toList).dropWhile (· = '0') = ds.dropWhile (· = '0') ++ p.suffix.toList :=
  dropWhile_append_stop fun _ hc => not_zero_of_suffix hc

theorem head_isDecimal {ds : List Char} (hds : ∀ c ∈ ds, Text.isDecimal c = true) :
    (((ds ++ p.suffix.toList).head?.map Text.isDecimal).getD false) = !ds.isEmpty := by
  cases ds with
  | cons d ds => exact hds d List.mem_cons_self
  | nil =>
    cases hs : p.suffix with
    | none => rfl
    | some c =>
      have hmantissa := not_inMantissa_of_isMark (Parts.isMark_suffix hs)
      rw [inMantissa, Bool.or_eq_false_iff] at hmantissa
      exact hmantissa.1

/-- Digits do not start with a sign. -/
theorem digits_ne_sign {e : Power Text.isDecimal} {c : Char} {cs rest : List Char}
    (h : e.digits ++ rest = c :: cs) : c ≠ '+' ∧ c ≠ '-' ∧ c ≠ '\n' := by
  obtain ⟨d, ds, hds⟩ := List.exists_cons_of_ne_nil e.digits_ne
  have hd := e.digits_all d (by rw [hds]; exact List.mem_cons_self)
  rw [hds, List.cons_append] at h
  cases h
  refine ⟨?_, ?_, ?_⟩
  · rintro rfl
    exact absurd hd (by decide)
  · rintro rfl
    exact absurd hd (by decide)
  · rintro rfl
    exact absurd hd (by decide)

theorem isZero_eq (e : Power Text.isDecimal) :
    e.isZero = (e.digits.dropWhile (· = '0')).isEmpty := by
  rw [Power.isZero, Bool.eq_iff_iff, List.isEmpty_iff, List.dropWhile_eq_nil_iff, List.all_eq_true]

/-- An exponent of zero starts with one. -/
theorem isEmpty_zeros {e : Power Text.isDecimal} (h : e.isZero = true) {rest : List Char} :
    ((e.digits ++ rest).takeWhile (· = '0')).isEmpty = false := by
  obtain ⟨d, ds, hds⟩ := List.exists_cons_of_ne_nil e.digits_ne
  rw [Power.isZero, hds, List.all_cons, Bool.and_eq_true] at h
  simp [hds, of_decide_eq_true h.1]

theorem atEnd_cons {c : Char} (h : c ≠ '\n') (cs : List Char) : atEnd (c :: cs) = false := by
  unfold atEnd
  split
  · next heq => cases heq
  · next heq =>
    cases heq
    exact absurd rfl h
  · rfl

theorem tidied_chars {e : Power Text.isDecimal} (h : p.power = some e) : p.tidied.chars =
    (p.whole ++ p.point) ++ (e.mark :: e.tidied.sign.toList ++
      (significant e.digits ++ p.suffix.toList)) := by
  have hpower : p.tidied.powerChars = e.tidied.chars := by
    change (p.power.map Power.tidied).elim [] Power.chars = _
    rw [h]
    rfl
  change p.whole ++ (p.point ++ (p.tidied.powerChars ++ p.suffix.toList)) = _
  rw [hpower, Power.chars, List.append_assoc]
  simp only [List.cons_append, List.append_assoc]
  rfl

theorem tidyExponent_chars (hmark : ∀ e ∈ p.power, e.mark = 'e') :
    tidyExponent p.chars = p.tidied.chars := by
  cases hpower : p.power with
  | none =>
    unfold tidyExponent
    rw [splitExponent_none hpower]
    simp [Parts.chars, Parts.tidied, Parts.point, Parts.powerChars, hpower]
  | some e =>
    have hdigits : ∀ c ∈ e.digits.dropWhile (· = '0'), Text.isDecimal c = true :=
      fun c hc => e.digits_all c ((List.dropWhile_sublist _).subset hc)
    rw [tidied_chars hpower, hmark e hpower]
    unfold tidyExponent
    rw [splitExponent_some hpower (hmark e hpower)]
    split
    · next heq => cases heq
    next mantissa behind heq =>
    cases heq
    split
    next sign digits hsplit =>
      obtain ⟨rfl, rfl⟩ : digits = e.digits ++ p.suffix.toList ∧ sign = e.tidied.sign.toList := by
        have htidied : e.tidied.sign = if e.sign = some '-' then some '-' else none := rfl
        cases hsign : e.sign with
        | none =>
          rw [hsign] at hsplit
          rw [htidied, hsign]
          split at hsplit
          · next heq => exact absurd rfl (digits_ne_sign heq).1
          · next heq => exact absurd rfl (digits_ne_sign heq).2.1
          · cases hsplit
            exact ⟨rfl, rfl⟩
        | some s =>
          rw [hsign] at hsplit
          rw [htidied, hsign]
          rcases e.sign_cases s hsign with rfl | rfl
          · cases hsplit
            exact ⟨rfl, rfl⟩
          · cases hsplit
            exact ⟨rfl, rfl⟩
      dsimp only
      rw [drop_takeWhile, dropWhile_zeros, head_isDecimal hdigits, significant]
      by_cases hzero : (e.digits.dropWhile (· = '0')).isEmpty = true
      · rw [hzero, isEmpty_zeros (by rwa [isZero_eq])]
        simp [List.isEmpty_iff.1 hzero]
      · rw [Bool.not_eq_true] at hzero
        rw [hzero]
        simp

theorem dropZeroExponent_chars (hmark : ∀ e ∈ p.power, e.mark = 'e') :
    dropZeroExponent p.chars = p.unpowered.chars := by
  cases hpower : p.power with
  | none =>
    unfold dropZeroExponent
    rw [splitExponent_none hpower]
    simp [Parts.chars, Parts.unpowered, Parts.point, Parts.powerChars, hpower]
  | some e =>
    have hsame (h : (e.isZero && p.suffix.isNone) = false) : p.chars = p.unpowered.chars := by
      simp [Parts.chars, Parts.unpowered, Parts.point, Parts.powerChars, hpower, h]
    unfold dropZeroExponent
    rw [splitExponent_some hpower (hmark e hpower)]
    split
    · next heq => cases heq
    next mantissa behind heq =>
    cases heq
    extract_lets digits zeros rest
    have hdigits : digits = e.digits ++ p.suffix.toList := by
      simp only [digits]
      cases hsign : e.sign with
      | none =>
        split
        · next heq => exact absurd rfl (digits_ne_sign heq).1
        · next heq => exact absurd rfl (digits_ne_sign heq).2.1
        · rfl
      | some s =>
        rcases e.sign_cases s hsign with rfl | rfl
        · rfl
        · rfl
    have hrest : rest = e.digits.dropWhile (· = '0') ++ p.suffix.toList := by
      simp only [rest, zeros, hdigits, drop_takeWhile, dropWhile_zeros]
    by_cases hzero : e.isZero = true
    · have hnil := hzero
      rw [isZero_eq, List.isEmpty_iff] at hnil
      rw [hnil, List.nil_append] at hrest
      have hzeros : zeros.isEmpty = false := by
        simp only [zeros, hdigits]
        exact isEmpty_zeros hzero
      cases hsuffix : p.suffix with
      | none =>
        rw [hsuffix] at hrest
        rw [hzeros, hrest]
        simp [Parts.chars, Parts.unpowered, Parts.point, Parts.powerChars, hpower, hzero, hsuffix,
          atEnd]
      | some c =>
        rw [hsuffix] at hrest
        have hc : c ≠ '\n' := by
          rintro rfl
          exact absurd (Parts.isMark_suffix hsuffix) (by decide)
        rw [hrest, Option.toList_some, atEnd_cons hc, Bool.and_false]
        exact hsame (by rw [hsuffix]; exact Bool.and_false _)
    · rw [Bool.not_eq_true] at hzero
      have hne : e.digits.dropWhile (· = '0') ≠ [] := by
        rw [isZero_eq] at hzero
        exact List.isEmpty_eq_false_iff.1 hzero
      obtain ⟨d, ds, hds⟩ := List.exists_cons_of_ne_nil hne
      have hd : d ≠ '\n' := by
        rintro rfl
        have hmem : '\n' ∈ e.digits :=
          (List.dropWhile_sublist _).subset (by rw [hds]; exact List.mem_cons_self)
        exact absurd (e.digits_all _ hmem) (by decide)
      rw [hrest, hds, List.cons_append, atEnd_cons hd, Bool.and_false]
      exact hsame (by rw [hzero]; rfl)

theorem leadingZero_chars (p : Parts Text.isDecimal) : leadingZero p.chars = p.led.chars := by
  cases hwhole : p.whole with
  | nil =>
    obtain ⟨ds, hds, _⟩ := p.nonempty hwhole
    have hfraction : p.fraction = some ds := hds
    simp [Parts.chars, Parts.led, Parts.point, Parts.powerChars, hwhole, hfraction, leadingZero]
  | cons c cs =>
    have hc := p.whole_all c (by rw [hwhole]; exact List.mem_cons_self)
    have hled : p.led.chars = p.chars := by
      simp [Parts.chars, Parts.led, Parts.point, Parts.powerChars, hwhole]
    rw [hled]
    unfold leadingZero
    split
    · next heq =>
      rw [Parts.chars, hwhole] at heq
      cases heq
      exact absurd hc (by decide)
    · next heq =>
      rw [Parts.chars, hwhole] at heq
      obtain ⟨rfl, _⟩ := List.cons.inj heq
      exact absurd hc (by decide)
    · next heq =>
      rw [Parts.chars, hwhole] at heq
      obtain ⟨rfl, _⟩ := List.cons.inj heq
      exact absurd hc (by decide)
    · rfl

/-! ### The fraction -/

theorem dropTrailingZeros_cons {c : Char} (hc : c ≠ '.') (cs : List Char) :
    dropTrailingZeros (c :: cs) = c :: dropTrailingZeros cs := by
  rw [dropTrailingZeros]
  simp [hc]

theorem dropTrailingZeros_append {cs : List Char} (hcs : '.' ∉ cs) (rest : List Char) :
    dropTrailingZeros (cs ++ rest) = cs ++ dropTrailingZeros rest := by
  induction cs with
  | nil => rfl
  | cons c cs ih =>
    rw [List.mem_cons, not_or] at hcs
    rw [List.cons_append, dropTrailingZeros_cons (Ne.symm hcs.1), ih hcs.2]
    rfl

theorem dropBarePoint_append {cs : List Char} (hcs : '.' ∉ cs) (rest : List Char) :
    dropBarePoint (cs ++ rest) = cs ++ dropBarePoint rest := by
  induction cs with
  | nil => rfl
  | cons c cs ih =>
    rw [List.mem_cons, not_or] at hcs
    have hc : c ≠ '.' := Ne.symm hcs.1
    rw [List.cons_append, dropBarePoint]
    simp only [hc, decide_false, Bool.false_and, Bool.false_eq_true, if_false]
    rw [ih hcs.2]
    rfl

theorem dropTrailingZeros_of_not_mem {cs : List Char} (h : '.' ∉ cs) :
    dropTrailingZeros cs = cs := by
  have happend := dropTrailingZeros_append h []
  rwa [List.append_nil, dropTrailingZeros, List.append_nil] at happend

theorem dropBarePoint_of_not_mem {cs : List Char} (h : '.' ∉ cs) : dropBarePoint cs = cs := by
  have happend := dropBarePoint_append h []
  rwa [List.append_nil, dropBarePoint, List.append_nil] at happend

theorem not_mem_digits {ds : List Char} (h : ∀ c ∈ ds, Text.isDecimal c = true) : '.' ∉ ds :=
  fun hmem => absurd (h _ hmem) (by decide)

/-- What follows the mantissa has no point in it. -/
theorem not_mem_behind (p : Parts Text.isDecimal) : '.' ∉ p.powerChars ++ p.suffix.toList := by
  rw [List.mem_append, not_or]
  constructor
  · cases hpower : p.power with
    | none =>
      rw [Parts.powerChars, hpower]
      exact List.not_mem_nil
    | some e =>
      rw [Parts.powerChars, hpower]
      change '.' ∉ e.mark :: (e.sign.toList ++ e.digits)
      rw [List.mem_cons, List.mem_append, not_or, not_or]
      refine ⟨?_, fun hsign => ?_, not_mem_digits e.digits_all⟩
      · intro hmark
        exact absurd e.isMark_mark (by rw [← hmark]; decide)
      · rcases e.sign_cases _ (Option.mem_toList.1 hsign) with h | h
        · exact absurd h (by decide)
        · exact absurd h (by decide)
  · intro hsuffix
    exact absurd (Parts.isMark_suffix (Option.mem_toList.1 hsuffix)) (by decide)

/-- What follows the mantissa is an exponent or the end, but for a suffix. -/
theorem atExponentOrEnd_behind (hmark : ∀ e ∈ p.power, e.mark = 'e') :
    atExponentOrEnd (p.powerChars ++ p.suffix.toList) = (p.power.isSome || p.suffix.isNone) := by
  cases hpower : p.power with
  | some e =>
    rw [Parts.powerChars, hpower]
    change (some e.mark == some 'e' || _) = _
    rw [hmark e hpower]
    rfl
  | none =>
    rw [Parts.powerChars, hpower]
    cases hsuffix : p.suffix with
    | none => rfl
    | some c =>
      have hc := p.suffix_cases c hsuffix
      have hne : c ≠ 'e' ∧ c ≠ '\n' := by
        constructor
        · rintro rfl
          rcases hc with hfloat | ⟨hlong, _⟩
          · exact absurd hfloat (by decide)
          · exact absurd hlong (by decide)
        · rintro rfl
          rcases hc with hfloat | ⟨hlong, _⟩
          · exact absurd hfloat (by decide)
          · exact absurd hlong (by decide)
      change (some c == some 'e' || atEnd [c]) = false
      rw [atEnd_cons hne.2, Bool.or_false]
      simp [hne.1]

/-- The fraction is the run of digits behind the point. -/
theorem takeWhile_fraction {ds : List Char} (hds : ∀ c ∈ ds, Text.isDecimal c = true) :
    (ds ++ (p.powerChars ++ p.suffix.toList)).takeWhile Text.isDecimal = ds := by
  refine Lexeme.takeWhile_run hds fun c hc => ?_
  have hc' : c ∈ (p.powerChars ++ (p.suffix.toList ++ [])).head? := by simpa using hc
  rcases Parts.head_power hc' with hmark | ⟨_, _, hnil⟩
  · have hmantissa := not_inMantissa_of_isMark hmark
    rw [inMantissa, Bool.or_eq_false_iff] at hmantissa
    exact hmantissa.1
  · cases hnil

/-- A fraction that does not get shorter stays as it is. -/
theorem shorten_eq_self {ds : List Char} (h : ds.length ≤ (shorten ds).length) :
    shorten ds = ds := by
  have hprefix : shorten ds <+: ds := by
    unfold shorten
    split
    · exact List.take_prefix 1 ds
    · rw [← List.reverse_suffix, List.reverse_reverse]
      exact List.dropWhile_suffix _
  exact hprefix.eq_of_length_le h

theorem dropTrailingZeros_chars (hmark : ∀ e ∈ p.power, e.mark = 'e') :
    dropTrailingZeros p.chars = p.shortened.chars := by
  rw [Parts.chars, dropTrailingZeros_append (not_mem_digits p.whole_all)]
  cases hfraction : p.fraction with
  | none =>
    have hnone : p.shortened = p := by
      ext1 <;> simp [Parts.shortened, hfraction]
    rw [hnone, Parts.chars, Parts.point, hfraction]
    change _ ++ dropTrailingZeros (p.powerChars ++ p.suffix.toList) = _
    rw [dropTrailingZeros_of_not_mem (not_mem_behind p)]
    rfl
  | some ds =>
    have hds := p.fraction_all ds hfraction
    have hkeep : '.' ∉ ds ++ (p.powerChars ++ p.suffix.toList) := by
      rw [List.mem_append, not_or]
      exact ⟨not_mem_digits hds, not_mem_behind p⟩
    have hshortened : p.shortened.chars = p.whole ++ '.' ::
        ((if p.power.isSome || p.suffix.isNone then shorten ds else ds) ++
          (p.powerChars ++ p.suffix.toList)) := by
      change p.whole ++ ((if p.power.isSome || p.suffix.isNone then p.fraction.map shorten
        else p.fraction).elim [] ('.' :: ·) ++ (p.powerChars ++ p.suffix.toList)) = _
      rw [hfraction]
      split
      · rfl
      · rfl
    have hshorter : (if (ds.reverse.dropWhile (· = '0')).reverse.isEmpty then ds.take 1
        else (ds.reverse.dropWhile (· = '0')).reverse) = shorten ds := rfl
    rw [hshortened, Parts.point, hfraction]
    change p.whole ++ dropTrailingZeros ('.' :: (ds ++ (p.powerChars ++ p.suffix.toList))) = _
    rw [dropTrailingZeros]
    simp only [takeWhile_fraction hds, List.drop_left, atExponentOrEnd_behind hmark,
      dropTrailingZeros_of_not_mem hkeep, hshorter, decide_true, Bool.true_and]
    by_cases hend : (p.power.isSome || p.suffix.isNone) = true
    · by_cases hlength : (shorten ds).length < ds.length
      · simp only [hend, hlength, decide_true, Bool.and_self, if_true, List.cons_append]
      · rw [shorten_eq_self (Nat.le_of_not_lt hlength)]
        simp
    · simp only [hend, Bool.and_false, Bool.false_eq_true, if_false]

theorem dropBarePoint_chars (p : Parts Text.isDecimal) :
    dropBarePoint p.chars = p.unpointed.chars := by
  have hpointed : p.unpointed.chars = p.whole ++
      ((if p.fraction = some [] then none else p.fraction).elim [] ('.' :: ·) ++
        (p.powerChars ++ p.suffix.toList)) := rfl
  rw [hpointed, Parts.chars, dropBarePoint_append (not_mem_digits p.whole_all), Parts.point]
  cases hfraction : p.fraction with
  | none => exact congrArg (p.whole ++ ·) (dropBarePoint_of_not_mem (not_mem_behind p))
  | some ds =>
    have hds := p.fraction_all ds hfraction
    cases ds with
    | nil =>
      obtain ⟨hpower, hsuffix⟩ := p.bare hfraction
      rw [if_pos rfl, Parts.powerChars, hpower, hsuffix]
      rfl
    | cons d ds =>
      have hd := hds d List.mem_cons_self
      have hnot : atExponentOrEnd (d :: (ds ++ (p.powerChars ++ p.suffix.toList))) = false := by
        have hne : d ≠ 'e' ∧ d ≠ '\n' := by
          constructor
          · rintro rfl
            exact absurd hd (by decide)
          · rintro rfl
            exact absurd hd (by decide)
        rw [atExponentOrEnd, atEnd_cons hne.2]
        simp [hne.1]
      have hkeep : '.' ∉ (d :: ds) ++ (p.powerChars ++ p.suffix.toList) := by
        rw [List.mem_append, not_or]
        exact ⟨not_mem_digits hds, not_mem_behind p⟩
      rw [if_neg (by simp)]
      change p.whole ++ dropBarePoint ('.' :: d :: (ds ++ (p.powerChars ++ p.suffix.toList))) = _
      rw [dropBarePoint, hnot, Bool.and_false, if_neg (by decide)]
      exact congrArg (p.whole ++ '.' :: ·) (dropBarePoint_of_not_mem hkeep)

/-! ### All steps -/

theorem lower_chars (p : Parts Text.isDecimal) :
    Text.lower (String.ofList p.chars) = String.ofList p.lowered.chars := by
  have hmark {c : Char} (h : isMark c = true) : c.toNat < 128 := by
    simp only [isMark, Lexeme.isFloatSuffix, Lexeme.isLongSuffix, Bool.or_eq_true,
      decide_eq_true_eq] at h
    rcases h with ((rfl | rfl) | ((rfl | rfl) | rfl) | rfl) | rfl | rfl <;> decide
  have hplain : ∀ c ∈ p.chars, Text.isDecimal c = true ∨ c.toNat < 128 := by
    intro c hc
    rcases Parts.mem_chars hc with hdecimal | rfl | rfl | rfl | h
    · exact .inl hdecimal
    · exact .inr (by decide)
    · exact .inr (by decide)
    · exact .inr (by decide)
    · exact .inr (hmark h)
  have hdigits {ds : List Char} (hds : ∀ c ∈ ds, Text.isDecimal c = true) :
      ds.map Char.toLower = ds := by
    conv_rhs => rw [← List.map_id ds]
    exact List.map_congr_left fun d hd => Text.toLower_of_isDecimal (hds d hd)
  have hpoint : p.point.map Char.toLower = p.point := by
    unfold Parts.point
    cases hfraction : p.fraction with
    | none => rfl
    | some ds => exact congrArg ('.' :: ·) (hdigits (p.fraction_all ds hfraction))
  have hpower : p.powerChars.map Char.toLower = p.lowered.powerChars := by
    change p.powerChars.map Char.toLower = (p.power.map Power.lowered).elim [] Power.chars
    unfold Parts.powerChars
    cases p.power with
    | none => rfl
    | some e =>
      have hsign : e.sign.toList.map Char.toLower = e.sign.toList := by
        cases hs : e.sign with
        | none => rfl
        | some s =>
          rcases e.sign_cases s hs with rfl | rfl
          · rfl
          · rfl
      have hlower : e.mark.toLower = 'e' := by
        rcases e.mark_cases with h | h
        · rw [h]
          rfl
        · rw [h]
          rfl
      change (e.mark :: (e.sign.toList ++ e.digits)).map Char.toLower = 'e' :: _
      rw [List.map_cons, List.map_append, hsign, hlower, hdigits e.digits_all]
      rfl
  have hsuffix : p.suffix.toList.map Char.toLower = (p.suffix.map Char.toLower).toList := by
    cases p.suffix with
    | none => rfl
    | some c => rfl
  rw [Text.lower_ofList hplain, Parts.chars, List.map_append, List.map_append, List.map_append,
    hdigits p.whole_all, hpoint, hpower, hsuffix]
  rfl

/-- The generic spelling of a number is that of its parts. -/
theorem generic_chars (p : Parts Text.isDecimal) :
    generic (String.ofList p.chars) = String.ofList p.normal.chars := by
  have hlowered : ∀ e ∈ p.lowered.power, e.mark = 'e' := by
    intro e he
    obtain ⟨f, _, rfl⟩ := Option.map_eq_some_iff.1 he
    rfl
  have htidied : ∀ e ∈ p.lowered.tidied.power, e.mark = 'e' := by
    intro e he
    obtain ⟨f, hf, rfl⟩ := Option.map_eq_some_iff.1 he
    exact hlowered f hf
  have hunpowered : ∀ e ∈ p.lowered.tidied.unpowered.power, e.mark = 'e' := by
    intro e he
    refine htidied e ?_
    unfold Parts.unpowered at he
    dsimp only at he
    split at he
    · cases he
    · exact he
  rw [generic, lower_chars, String.toList_ofList, tidyExponent_chars hlowered,
    dropZeroExponent_chars htidied, leadingZero_chars,
    dropTrailingZeros_chars (p := p.lowered.tidied.unpowered.led) hunpowered, dropBarePoint_chars]
  rfl

end Literal

end MonkeyFormat
