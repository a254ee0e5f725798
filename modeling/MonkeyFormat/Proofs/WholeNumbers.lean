import Mathlib
import MonkeyFormat.Literal.Recovery

set_option autoImplicit false

/-! # Whole numbers

A text that is spelled like a whole number is an optional minus, perhaps a hexadecimal mark,
digits, perhaps a long suffix, and perhaps a line break. From these parts the text of a token and
the text of a literal are read in different ways, and both give the same number. -/

namespace MonkeyFormat

/-! ## Decimal digits -/

namespace Text

theorem toNat_of_isDigit {c : Char} (h : c.isDigit = true) : 48 ≤ c.toNat ∧ c.toNat ≤ 57 := by
  simp only [Char.isDigit, Bool.and_eq_true, decide_eq_true_eq, UInt32.le_iff_toNat_le,
    ge_iff_le] at h
  exact h

theorem isDecimal_of_ascii {c : Char} (h : c.toNat < 128) : isDecimal c = c.isDigit := by
  unfold isDecimal decimalValue?
  rw [if_pos h]
  split <;> simp_all

/-- A decimal digit is one of the ten digits of a script. -/
theorem exists_zero {c : Char} (h : isDecimal c = true) :
    ∃ z ∈ decimalZeros.toList, z ≤ c.toNat ∧ c.toNat < z + 10 := by
  by_cases hlow : c.toNat < 128
  · rw [isDecimal_of_ascii hlow] at h
    have hrange := toNat_of_isDigit h
    exact ⟨48, by decide, hrange.1, Nat.lt_succ_of_le hrange.2⟩
  · unfold isDecimal decimalValue? at h
    rw [if_neg hlow, Option.isSome_map, Array.find?_isSome] at h
    obtain ⟨z, hz, hin⟩ := h
    rw [Bool.and_eq_true, decide_eq_true_eq, decide_eq_true_eq] at hin
    exact ⟨z, Array.mem_def.1 hz, hin⟩

/-- What holds of the ten digits of every script holds of every decimal digit. -/
theorem of_isDecimal {p : Char → Bool} {c : Char}
    (hall : (decimalZeros.toList.all fun z =>
      (List.range 10).all fun d => p (Char.ofNat (z + d))) = true)
    (h : isDecimal c = true) : p c = true := by
  obtain ⟨z, hz, hle, hlt⟩ := exists_zero h
  have hd := List.all_eq_true.1 (List.all_eq_true.1 hall z hz) (c.toNat - z)
    (List.mem_range.2 (by omega))
  rwa [Nat.add_sub_cancel' hle, Char.ofNat_toNat] at hd

theorem decimalValue_lt {c : Char} {d : Nat} (h : decimalValue? c = some d) : d < 10 := by
  unfold decimalValue? at h
  split at h
  · split at h
    · next hc =>
      cases h
      have hrange := toNat_of_isDigit hc
      have hzero : '0'.toNat = 48 := rfl
      omega
    · cases h
  · obtain ⟨z, hz, hd⟩ := Option.map_eq_some_iff.1 h
    have hin := Array.find?_some hz
    rw [Bool.and_eq_true, decide_eq_true_eq, decide_eq_true_eq] at hin
    omega

end Text

namespace Number

theorem isPadding_of_isDecimal {c : Char} (h : Text.isDecimal c = true) : isPadding c = false := by
  have hnot := Text.of_isDecimal (p := fun c => !isPadding c) (by decide +kernel) h
  simpa using hnot

end Number

namespace Number

/-- The character itself, or the digit among `0` to `9` of its value. -/
def asciiDigit (c : Char) : Char :=
  match Text.decimalValue? c with
  | some d => Char.ofNat ('0'.toNat + d)
  | none => c

/-- What is read between blanks. -/
theorem plainChars_eq {cs ended : List Char} (hcs : ∀ c ∈ cs, isPadding c = false)
    (hended : ∀ c ∈ ended, isPadding c = true) :
    plainChars (String.ofList (cs ++ ended)) = cs.map asciiDigit := by
  have hinner :
      Text.trimEndOf isPadding (Text.trimStartOf isPadding (String.ofList (cs ++ ended))) =
      String.ofList cs := by
    have hstart : (cs ++ ended).dropWhile isPadding = if cs = [] then [] else cs ++ ended := by
      cases cs with
      | nil => simpa using hended
      | cons c cs => simp [hcs c List.mem_cons_self]
    have hstop : (ended.reverse ++ cs.reverse).dropWhile isPadding = cs.reverse := by
      rw [List.dropWhile_append_of_pos fun c hc => hended c (List.mem_reverse.1 hc)]
      refine List.dropWhile_eq_self_iff.2 fun hlen => ?_
      rw [hcs _ (List.mem_reverse.1 (List.getElem_mem hlen))]
      decide
    rw [Text.trimStartOf, Text.trimEndOf, String.toList_ofList, String.toList_ofList, hstart]
    split
    · next hnil => simp [hnil]
    · rw [List.reverse_append, hstop, List.reverse_reverse]
  change (Text.trimEndOf isPadding
    (Text.trimStartOf isPadding (String.ofList (cs ++ ended)))).toList.map asciiDigit = _
  rw [hinner, String.toList_ofList]

theorem asciiDigit_of_not_isDecimal {c : Char} (h : Text.isDecimal c = false) :
    asciiDigit c = c := by
  unfold Text.isDecimal at h
  unfold asciiDigit
  split
  · next d hd =>
    rw [hd] at h
    cases h
  · rfl

theorem isDigit_asciiDigit {c : Char} (h : Text.isDecimal c = true) :
    (asciiDigit c).isDigit = true := by
  obtain ⟨d, hd⟩ := Option.isSome_iff_exists.1 h
  have hdigits : ∀ d < 10, (Char.ofNat ('0'.toNat + d)).isDigit = true := by decide
  rw [asciiDigit, hd]
  exact hdigits d (Text.decimalValue_lt hd)

/-- The characters of a run of digits. -/
theorem mem_digitRun {base : Nat} {cs : List Char} {after : Bool} {ds : List Nat}
    (h : digitRun? base after cs = some ds) {c : Char} (hc : c ∈ cs) :
    c = '_' ∨ (digitValue? base c).isSome = true := by
  fun_induction digitRun? base after cs generalizing ds with
  | case1 => cases hc
  | case2 => cases hc
  | case3 cs ih =>
    rcases List.mem_cons.1 hc with rfl | hc
    · exact .inl rfl
    · exact ih h hc
  | case4 => cases h
  | case5 after d cs _ ih =>
    obtain ⟨v, hv, hrest⟩ := Option.bind_eq_some_iff.1 h
    obtain ⟨vs, hvs, _⟩ := Option.bind_eq_some_iff.1 hrest
    rcases List.mem_cons.1 hc with rfl | hc
    · exact .inr (by rw [hv]; rfl)
    · exact ih hvs hc

theorem splitSign_eq_self {cs : List Char} (h : ∀ c ∈ cs.head?, c ≠ '-' ∧ c ≠ '+') :
    splitSign cs = (false, cs) := by
  unfold splitSign
  split
  · exact absurd rfl (h '-' rfl).1
  · exact absurd rfl (h '+' rfl).2
  · rfl

theorem mem_splitSign {cs : List Char} {c : Char} (hc : c ∈ cs) :
    c ∈ ['-', '+'] ∨ c ∈ (splitSign cs).2 := by
  unfold splitSign
  split
  · rcases List.mem_cons.1 hc with rfl | hc
    · exact .inl (by decide)
    · exact .inr hc
  · rcases List.mem_cons.1 hc with rfl | hc
    · exact .inl (by decide)
    · exact .inr hc
  · exact .inr hc

theorem mem_dropHexMark {cs : List Char} {c : Char} (hc : c ∈ cs) :
    c ∈ ['0', 'x', 'X', '_'] ∨ c ∈ dropHexMark cs := by
  unfold dropHexMark
  split
  · split
    · next x cs hx =>
      simp only [List.mem_cons] at hc
      rw [Bool.or_eq_true, decide_eq_true_eq, decide_eq_true_eq] at hx
      rcases hc with rfl | rfl | rfl | hc
      · exact .inl (by decide)
      · rcases hx with rfl | rfl
        · exact .inl (by decide)
        · exact .inl (by decide)
      · exact .inl (by decide)
      · exact .inr hc
    · exact .inr hc
  · split
    · next x cs _ hx =>
      simp only [List.mem_cons] at hc
      rw [Bool.or_eq_true, decide_eq_true_eq, decide_eq_true_eq] at hx
      rcases hc with rfl | rfl | hc
      · exact .inl (by decide)
      · rcases hx with rfl | rfl
        · exact .inl (by decide)
        · exact .inl (by decide)
      · exact .inr hc
    · exact .inr hc
  · exact .inr hc

section Read

variable {cs ended : List Char} {n : Int} (hcs : ∀ c ∈ cs, isPadding c = false)
  (hended : ∀ c ∈ ended, isPadding c = true)
include hcs hended

/-- A decimal number has no characters but a sign, underscores and digits. -/
theorem mem_of_readDecimal (h : readDecimal? (String.ofList (cs ++ ended)) = some n) {c : Char}
    (hc : c ∈ cs) : asciiDigit c ∈ ['-', '+'] ∨ asciiDigit c = '_' ∨
      (digitValue? 10 (asciiDigit c)).isSome = true := by
  unfold readDecimal? at h
  rw [plainChars_eq hcs hended] at h
  obtain ⟨ds, hds, _⟩ := Option.bind_eq_some_iff.1 h
  rcases mem_splitSign (List.mem_map_of_mem (f := asciiDigit) hc) with hsign | hmem
  · exact .inl hsign
  · exact .inr (mem_digitRun hds hmem)

/-- A hexadecimal number has no characters but a sign, its mark, underscores and digits. -/
theorem mem_of_readHex (h : readHex? (String.ofList (cs ++ ended)) = some n) {c : Char}
    (hc : c ∈ cs) : asciiDigit c ∈ ['-', '+'] ∨ asciiDigit c ∈ ['0', 'x', 'X', '_'] ∨
      asciiDigit c = '_' ∨ (digitValue? 16 (asciiDigit c)).isSome = true := by
  unfold readHex? at h
  rw [plainChars_eq hcs hended] at h
  obtain ⟨ds, hds, _⟩ := Option.bind_eq_some_iff.1 h
  rcases mem_splitSign (List.mem_map_of_mem (f := asciiDigit) hc) with hsign | hmem
  · exact .inl hsign
  · rcases mem_dropHexMark hmem with hmark | hmem
    · exact .inr (.inl hmark)
    · exact .inr (.inr (mem_digitRun hds hmem))

end Read

/-- Without a sign in front, digits are read as they are. -/
theorem readDecimal_unsigned {cs ended : List Char}
    (hcs : ∀ c ∈ cs, Text.isDecimal c = true) (hended : ∀ c ∈ ended, isPadding c = true) :
    readDecimal? (String.ofList (cs ++ ended)) = (digitRun? 10 false (cs.map asciiDigit)).bind
      fun ds => if ds.length ≤ maxDigits then some (ofDigits 10 ds : Int) else none := by
  have hsplit : splitSign (cs.map asciiDigit) = (false, cs.map asciiDigit) := by
    refine splitSign_eq_self fun c hc => ?_
    obtain ⟨d, hd, rfl⟩ := List.mem_map.1 (List.mem_of_mem_head? hc)
    have hdigit := isDigit_asciiDigit (hcs d hd)
    constructor
    · intro heq
      rw [heq] at hdigit
      exact absurd hdigit (by decide)
    · intro heq
      rw [heq] at hdigit
      exact absurd hdigit (by decide)
  unfold readDecimal?
  rw [plainChars_eq (fun c hc => isPadding_of_isDecimal (hcs c hc)) hended, hsplit]
  rfl

theorem asciiDigit_of_isDigit {c : Char} (h : c.isDigit = true) : asciiDigit c = c := by
  have hrange := Text.toNat_of_isDigit h
  have hall : ((List.range 10).all fun d =>
    decide (asciiDigit (Char.ofNat (48 + d)) = Char.ofNat (48 + d))) = true := by decide +kernel
  have hdigit := List.all_eq_true.1 hall (c.toNat - 48) (List.mem_range.2 (by omega))
  rwa [Nat.add_sub_cancel' hrange.1, Char.ofNat_toNat, decide_eq_true_eq] at hdigit

theorem readDecimal_negative {cs ended : List Char}
    (hcs : ∀ c ∈ cs, Text.isDecimal c = true) (hended : ∀ c ∈ ended, isPadding c = true) :
    readDecimal? (String.ofList ('-' :: (cs ++ ended))) =
      (digitRun? 10 false (cs.map asciiDigit)).bind fun ds =>
        if ds.length ≤ maxDigits then some (-(ofDigits 10 ds : Int)) else none := by
  have hpadding : ∀ c ∈ '-' :: cs, isPadding c = false := by
    intro c hc
    rcases List.mem_cons.1 hc with rfl | hc
    · decide
    · exact isPadding_of_isDecimal (hcs c hc)
  have hminus : asciiDigit '-' = '-' := asciiDigit_of_not_isDecimal (by decide)
  unfold readDecimal?
  rw [← List.cons_append, plainChars_eq hpadding hended, List.map_cons, hminus]
  rfl

end Number

/-! ## The parts of a whole number -/

namespace Literal

/-- The parts of a text that is spelled like a whole number. -/
structure Whole where
  sign : List Char
  mark : List Char
  digits : List Char
  suffix : List Char
  ended : List Char
  sign_cases : sign = [] ∨ sign = ['-']
  base_cases : (mark = [] ∧ ∀ d ∈ digits, Text.isDecimal d = true) ∨
    ∃ x, (x = 'x' ∨ x = 'X') ∧ mark = ['0', x] ∧ ∀ d ∈ digits, Lexeme.isHexDigit d = true
  digits_ne : digits ≠ []
  suffix_cases : suffix = [] ∨ ∃ c, Lexeme.isLongSuffix c = true ∧ suffix = [c]
  ended_cases : ended = [] ∨ ended = ['\n']

namespace Whole

/-- What the number is read from. -/
def front (w : Whole) : List Char := w.sign ++ w.mark ++ w.digits

/-- The whole text. -/
def chars (w : Whole) : List Char := w.front ++ w.suffix ++ w.ended

end Whole

theorem eq_of_hasHexMark {cs : List Char} (h : hasHexMark (String.ofList cs) = true) :
    ∃ m, (m = 'x' ∨ m = 'X') ∧ cs = '0' :: m :: cs.drop 2 := by
  rw [hasHexMark, Bool.or_eq_true, String.startsWith_string_iff, String.startsWith_string_iff,
    String.toList_ofList] at h
  rw [String.toList_ofList] at h
  rcases h with ⟨rest, rfl⟩ | ⟨rest, rfl⟩
  · exact ⟨'x', .inl rfl, rfl⟩
  · exact ⟨'X', .inr rfl, rfl⟩

/-- A text of the shape of a whole number has its parts. -/
theorem exists_whole {raw : String} (h : isWholeShaped raw = true) :
    ∃ w : Whole, raw.toList = w.chars := by
  unfold isWholeShaped at h
  extract_lets cs unended body closed at h
  have hended : ∃ ended, (ended = [] ∨ ended = ['\n']) ∧ cs = unended ++ ended := by
    by_cases hlast : cs.getLast? = some '\n'
    · refine ⟨['\n'], .inr rfl, ?_⟩
      simp only [unended, hlast, beq_self_eq_true, if_true]
      exact (List.dropLast_append_getLast? _ hlast).symm
    · exact ⟨[], .inl rfl, by simp [unended, hlast]⟩
  have hsign : ∃ sign, (sign = [] ∨ sign = ['-']) ∧ unended = sign ++ body := by
    by_cases hhead : unended.head? = some '-'
    · refine ⟨['-'], .inr rfl, ?_⟩
      simp only [body, hhead, beq_self_eq_true, if_true]
      cases hun : unended with
      | nil => simp [hun] at hhead
      | cons c cs => simpa [hun] using hhead
    · exact ⟨[], .inl rfl, by simp [body, hhead]⟩
  -- the digits, and at most a long suffix behind them
  have hclosed {p : Char → Bool} {ds : List Char} (hds : closed p ds = true) :
      ∃ digits suffix, ds = digits ++ suffix ∧ digits ≠ [] ∧ (∀ d ∈ digits, p d = true) ∧
        (suffix = [] ∨ ∃ c, Lexeme.isLongSuffix c = true ∧ suffix = [c]) := by
    simp only [closed, Bool.and_eq_true, Bool.or_eq_true, Bool.not_eq_true', beq_iff_eq] at hds
    refine ⟨_, _, List.takeWhile_append_dropWhile.symm, ?_,
      fun d hd => List.all_eq_true.1 List.all_takeWhile d hd, ?_⟩
    · intro hnil
      rw [hnil] at hds
      exact absurd hds.1 (by decide)
    · rcases hds.2 with hnil | ⟨hone, hall⟩
      · exact .inl (List.isEmpty_iff.1 hnil)
      · obtain ⟨c, hc⟩ := List.length_eq_one_iff.1 hone
        rw [hc] at hall ⊢
        exact .inr ⟨c, by simpa using hall, rfl⟩
  obtain ⟨ended, hend, hcs⟩ := hended
  obtain ⟨sign, hsgn, hun⟩ := hsign
  rw [Bool.or_eq_true, Bool.and_eq_true] at h
  rcases h with ⟨hmark, h⟩ | h
  · obtain ⟨x, hx, hbody⟩ := eq_of_hasHexMark hmark
    obtain ⟨digits, suffix, hds, hne, hall, hsuffix⟩ := hclosed h
    refine ⟨⟨sign, ['0', x], digits, suffix, ended, hsgn, .inr ⟨x, hx, rfl, hall⟩, hne, hsuffix,
      hend⟩, ?_⟩
    change cs = _
    rw [hcs, hun, hbody, hds]
    simp [Whole.chars, Whole.front]
  · obtain ⟨digits, suffix, hds, hne, hall, hsuffix⟩ := hclosed h
    refine ⟨⟨sign, [], digits, suffix, ended, hsgn, .inl ⟨rfl, hall⟩, hne, hsuffix, hend⟩, ?_⟩
    change cs = _
    rw [hcs, hun, hds]
    simp [Whole.chars, Whole.front]

/-! ## Both readings -/

theorem not_isLongSuffix_of_mem {w : Whole} {d : Char} (hd : d ∈ w.digits) :
    Lexeme.isLongSuffix d = false := by
  rw [Bool.eq_false_iff]
  intro hlong
  have hletter : d = 'l' ∨ d = 'L' := by simpa [Lexeme.isLongSuffix] using hlong
  rcases w.base_cases with ⟨_, hall⟩ | ⟨_, _, _, hall⟩
  · have hdecimal := hall d hd
    rcases hletter with rfl | rfl
    · exact absurd hdecimal (by decide)
    · exact absurd hdecimal (by decide)
  · have hhex := hall d hd
    rcases hletter with rfl | rfl
    · exact absurd hhex (by decide)
    · exact absurd hhex (by decide)

/-- What is left without a long suffix at the very end. -/
def Whole.unsuffixed (w : Whole) : List Char :=
  if w.ended = [] then w.front else w.chars

theorem Whole.front_eq_concat (w : Whole) :
    ∃ init d, w.front = init ++ [d] ∧ Lexeme.isLongSuffix d = false := by
  refine ⟨w.sign ++ w.mark ++ w.digits.dropLast, w.digits.getLast w.digits_ne, ?_,
    not_isLongSuffix_of_mem (List.getLast_mem w.digits_ne)⟩
  rw [List.append_assoc, List.dropLast_append_getLast]
  rfl

/-- A single suffix and a run of them are dropped alike. -/
theorem unsuffixed_eq {raw : String} {w : Whole} (h : raw.toList = w.chars) :
    dropSuffix Lexeme.isLongSuffix raw = .ok (String.ofList w.unsuffixed) ∧
      Text.trimEndOf Lexeme.isLongSuffix raw = String.ofList w.unsuffixed := by
  obtain ⟨init, d, hfront, hd⟩ := w.front_eq_concat
  have hraw : raw = String.ofList w.chars := by rw [← h, String.ofList_toList]
  subst hraw
  unfold dropSuffix Text.trimEndOf Whole.unsuffixed Whole.chars
  rcases w.ended_cases with hended | hended
  · rcases w.suffix_cases with hsuffix | ⟨c, hc, hsuffix⟩
    · simp [hended, hsuffix, hfront, hd, pure, Except.pure]
    · simp [hended, hsuffix, hfront, hd, hc, pure, Except.pure]
  · have hbreak : Lexeme.isLongSuffix '\n' = false := by decide
    simp [hended, hbreak, pure, Except.pure]

theorem toNat_of_isHexDigit {c : Char} (h : Lexeme.isHexDigit c = true) :
    48 ≤ c.toNat ∧ c.toNat ≤ 102 := by
  simp only [Lexeme.isHexDigit, Char.isDigit, Bool.or_eq_true, Bool.and_eq_true,
    decide_eq_true_eq, UInt32.le_iff_toNat_le, Char.le_def, ge_iff_le] at h
  simp at h
  have htoNat : c.toNat = c.val.toNat := rfl
  omega

theorem isPadding_of_isHexDigit {c : Char} (h : Lexeme.isHexDigit c = true) :
    Number.isPadding c = false := by
  have hrange := toNat_of_isHexDigit h
  have hblank : Text.isBlank c = false := by
    simp only [Text.isBlank, Bool.or_eq_false_iff, Bool.and_eq_false_iff, decide_eq_false_iff_not,
      beq_eq_false_iff_ne]
    omega
  rw [Number.isPadding, hblank]
  rfl

theorem Whole.not_isPadding {w : Whole} {c : Char} (hc : c ∈ w.front) :
    Number.isPadding c = false := by
  rw [Whole.front, List.mem_append, List.mem_append] at hc
  rcases hc with (hc | hc) | hc
  · rcases w.sign_cases with hsign | hsign
    · simp [hsign] at hc
    · rw [hsign, List.mem_singleton] at hc
      subst hc
      decide
  · rcases w.base_cases with ⟨hmark, _⟩ | ⟨x, hx, hmark, _⟩
    · simp [hmark] at hc
    · rw [hmark, List.mem_cons, List.mem_singleton] at hc
      rcases hc with rfl | rfl
      · decide
      · rcases hx with rfl | rfl
        · decide
        · decide
  · rcases w.base_cases with ⟨_, hall⟩ | ⟨_, _, _, hall⟩
    · exact Number.isPadding_of_isDecimal (hall c hc)
    · exact isPadding_of_isHexDigit (hall c hc)

/-- A long suffix does not stand before a line break if the text can be read. -/
theorem unsuffixed_of_read {w : Whole} {n : Int}
    (h : (if hasHexMark (String.ofList w.unsuffixed) then
      Number.readHex? (String.ofList w.unsuffixed)
      else Number.readDecimal? (String.ofList w.unsuffixed)) = some n) :
    w.unsuffixed = w.front ++ w.ended := by
  rcases w.ended_cases with hended | hended
  · rw [Whole.unsuffixed, if_pos hended, hended, List.append_nil]
  rcases w.suffix_cases with hsuffix | ⟨c, hc, hsuffix⟩
  · rw [Whole.unsuffixed, if_neg (by simp [hended]), Whole.chars, hsuffix, List.append_nil]
  · exfalso
    have htext : w.unsuffixed = (w.front ++ [c]) ++ ['\n'] := by
      rw [Whole.unsuffixed, if_neg (by simp [hended]), Whole.chars, hsuffix, hended]
    have hletter : c = 'l' ∨ c = 'L' := by simpa [Lexeme.isLongSuffix] using hc
    have hcs : ∀ d ∈ w.front ++ [c], Number.isPadding d = false := by
      intro d hd
      rcases List.mem_append.1 hd with hd | hd
      · exact Whole.not_isPadding hd
      · rw [List.mem_singleton.1 hd]
        rcases hletter with rfl | rfl
        · decide
        · decide
    have hbreak : ∀ d ∈ ['\n'], Number.isPadding d = true := by
      intro d hd
      rw [List.mem_singleton.1 hd]
      decide
    have hmem : c ∈ w.front ++ [c] := by simp
    rw [htext] at h
    split at h
    · have hread := Number.mem_of_readHex hcs hbreak h hmem
      rcases hletter with rfl | rfl
      · exact absurd hread (by decide)
      · exact absurd hread (by decide)
    · have hread := Number.mem_of_readDecimal hcs hbreak h hmem
      rcases hletter with rfl | rfl
      · exact absurd hread (by decide)
      · exact absurd hread (by decide)

theorem hasHexMark_decimal {digits ended : List Char}
    (hall : ∀ d ∈ digits, Text.isDecimal d = true) (hended : ended = [] ∨ ended = ['\n']) :
    hasHexMark (String.ofList (digits ++ ended)) = false := by
  rw [Bool.eq_false_iff]
  intro hmark
  obtain ⟨x, hx, hsplit⟩ := eq_of_hasHexMark hmark
  have hmem : x ∈ digits ++ ended := by
    rw [hsplit]
    simp
  rcases List.mem_append.1 hmem with hmem | hmem
  · rcases hx with rfl | rfl
    · exact absurd (hall _ hmem) (by decide)
    · exact absurd (hall _ hmem) (by decide)
  · rcases hended with rfl | rfl
    · cases hmem
    · rw [List.mem_singleton] at hmem
      subst hmem
      rcases hx with hx | hx
      · exact absurd hx (by decide)
      · exact absurd hx (by decide)

theorem startsWith_minus {cs : List Char} :
    (String.ofList cs).startsWith "-" = true ↔ cs.head? = some '-' := by
  rw [String.startsWith_string_iff, String.toList_ofList, String.toList_ofList]
  constructor
  · rintro ⟨rest, rfl⟩
    rfl
  · intro hhead
    obtain ⟨rest, rfl⟩ := List.head?_eq_some_iff.1 hhead
    exact ⟨rest, rfl⟩

/-- Digits are read without a sign. -/
theorem readWhole_unsigned {raw : String} {cs : List Char} {n : Int}
    (htrim : Text.trimEndOf Lexeme.isLongSuffix raw = String.ofList cs)
    (hhead : cs.head? ≠ some '-')
    (hread : (if hasHexMark (String.ofList cs) then
      Number.readHex? (String.ofList (cs.drop 2)) else Number.readDecimal? (String.ofList cs)) =
        some n) : readWhole raw = .ok n := by
  have hsign : (String.ofList cs).startsWith "-" = false := by
    rw [Bool.eq_false_iff]
    exact fun h => hhead (startsWith_minus.1 h)
  have hstart : cs.dropWhile (· = '-') = cs := by
    cases cs with
    | nil => rfl
    | cons c cs =>
      have hc : c ≠ '-' := by simpa using hhead
      simp [hc]
  unfold readWhole
  rw [htrim]
  simp only [hsign, Text.trimStartOf, String.toList_ofList, hstart, hread]
  change Except.ok (1 * n) = _
  rw [one_mul]

theorem readWhole_negative {raw : String} {cs : List Char} {n : Int}
    (htrim : Text.trimEndOf Lexeme.isLongSuffix raw = String.ofList ('-' :: cs))
    (hhead : cs.head? ≠ some '-') (hmark : hasHexMark (String.ofList cs) = false)
    (hread : Number.readDecimal? (String.ofList cs) = some n) : readWhole raw = .ok (-n) := by
  have hsign : (String.ofList ('-' :: cs)).startsWith "-" = true := startsWith_minus.2 rfl
  have hstart : ('-' :: cs).dropWhile (· = '-') = cs := by
    cases cs with
    | nil => rfl
    | cons c cs =>
      have hc : c ≠ '-' := by simpa using hhead
      simp [hc]
  unfold readWhole
  rw [htrim]
  simp only [hsign, Text.trimStartOf, String.toList_ofList, hstart, hmark, hread]
  change Except.ok (-1 * n) = _
  rw [neg_one_mul]

theorem isPadding_of_ended {ended : List Char} (h : ended = [] ∨ ended = ['\n']) :
    ∀ c ∈ ended, Number.isPadding c = true := by
  intro c hc
  rcases h with rfl | rfl
  · cases hc
  · rw [List.mem_singleton.1 hc]
    decide

theorem asciiDigit_of_isHexDigit {c : Char} (h : Lexeme.isHexDigit c = true) :
    Number.asciiDigit c = c := by
  by_cases hdigit : c.isDigit = true
  · exact Number.asciiDigit_of_isDigit hdigit
  · have hlow : c.toNat < 128 := by
      have := toNat_of_isHexDigit h
      omega
    refine Number.asciiDigit_of_not_isDecimal ?_
    unfold Text.isDecimal Text.decimalValue?
    rw [if_pos hlow, if_neg hdigit]
    rfl

theorem hasHexMark_of_head {cs : List Char} (h : cs.head? ≠ some '0') :
    hasHexMark (String.ofList cs) = false := by
  rw [Bool.eq_false_iff]
  intro hmark
  obtain ⟨x, _, hsplit⟩ := eq_of_hasHexMark hmark
  rw [hsplit] at h
  exact h rfl

theorem hasHexMark_of_mark {x : Char} (hx : x = 'x' ∨ x = 'X') (cs : List Char) :
    hasHexMark (String.ofList ('0' :: x :: cs)) = true := by
  rw [hasHexMark, Bool.or_eq_true, String.startsWith_string_iff, String.startsWith_string_iff]
  rcases hx with rfl | rfl
  · exact .inl ⟨cs, by simp⟩
  · exact .inr ⟨cs, by simp⟩

section Hex

variable {digits : List Char} (hall : ∀ d ∈ digits, Lexeme.isHexDigit d = true)
include hall

theorem map_hexDigits : digits.map Number.asciiDigit = digits := by
  conv_rhs => rw [← List.map_id digits]
  exact List.map_congr_left fun d hd => asciiDigit_of_isHexDigit (hall d hd)

theorem not_mem_hexDigits {c : Char} (h : Lexeme.isHexDigit c = false) : c ∉ digits := by
  intro hc
  rw [hall c hc] at h
  cases h

theorem isPadding_marked {x : Char} (hx : x = 'x' ∨ x = 'X') :
    ∀ c ∈ '0' :: x :: digits, Number.isPadding c = false := by
  intro c hc
  rw [List.mem_cons, List.mem_cons] at hc
  rcases hc with rfl | rfl | hc
  · decide
  · rcases hx with rfl | rfl
    · decide
    · decide
  · exact isPadding_of_isHexDigit (hall c hc)

theorem dropHexMark_marked {x : Char} (hx : x = 'x' ∨ x = 'X') :
    Number.dropHexMark ('0' :: x :: digits) = digits := by
  have hbar := not_mem_hexDigits hall (show Lexeme.isHexDigit '_' = false by decide)
  unfold Number.dropHexMark
  split
  · next y cs heq =>
    cases heq
    simp at hbar
  · next y cs _ heq =>
    cases heq
    rcases hx with rfl | rfl
    · rfl
    · rfl
  · next h => exact absurd rfl (h x digits)

theorem dropHexMark_digits : Number.dropHexMark digits = digits := by
  have hbar := not_mem_hexDigits hall (show Lexeme.isHexDigit '_' = false by decide)
  unfold Number.dropHexMark
  split
  · simp at hbar
  · next y cs _ =>
    have hy := hall y (by simp)
    rw [if_neg]
    rw [Bool.or_eq_true, decide_eq_true_eq, decide_eq_true_eq]
    rintro (rfl | rfl)
    · exact absurd hy (by decide)
    · exact absurd hy (by decide)
  · rfl

variable {ended : List Char} (hended : ∀ c ∈ ended, Number.isPadding c = true)
include hended

/-- Behind its mark a hexadecimal number is read digit by digit. -/
theorem readHex_digits : Number.readHex? (String.ofList (digits ++ ended)) =
    (Number.digitRun? 16 false digits).map fun ds => (Number.ofDigits 16 ds : Int) := by
  have hplain := Number.plainChars_eq (fun d hd => isPadding_of_isHexDigit (hall d hd)) hended
  have hsplit : Number.splitSign digits = (false, digits) := by
    refine Number.splitSign_eq_self fun c hc => ?_
    have hhex := hall c (List.mem_of_mem_head? hc)
    constructor
    · rintro rfl
      exact absurd hhex (by decide)
    · rintro rfl
      exact absurd hhex (by decide)
  unfold Number.readHex?
  rw [hplain, map_hexDigits hall, hsplit]
  dsimp only
  rw [dropHexMark_digits hall, Option.map_eq_bind]
  rfl

/-- With its mark a hexadecimal number is read as it is without it. -/
theorem readHex_marked {x : Char} (hx : x = 'x' ∨ x = 'X') :
    Number.readHex? (String.ofList ('0' :: x :: (digits ++ ended))) =
      (Number.digitRun? 16 false digits).map fun ds => (Number.ofDigits 16 ds : Int) := by
  have hzero : Number.asciiDigit '0' = '0' := by decide
  have hmark : Number.asciiDigit x = x := by
    rcases hx with rfl | rfl
    · decide
    · decide
  have hplain := Number.plainChars_eq (isPadding_marked hall hx) hended
  rw [List.map_cons, List.map_cons, map_hexDigits hall, hzero, hmark] at hplain
  unfold Number.readHex?
  rw [← List.cons_append, ← List.cons_append, hplain]
  change (Number.digitRun? 16 false (Number.dropHexMark ('0' :: x :: digits))).bind _ = _
  rw [dropHexMark_marked hall hx, Option.map_eq_bind]
  rfl

end Hex

section Agree

variable {raw : String} {sign digits ended : List Char} {n : Int}
  (hsign : sign = [] ∨ sign = ['-']) (hne : digits ≠ [])
  (hended : ended = [] ∨ ended = ['\n'])
include hsign hne hended

/-- A decimal number is recovered as it was read. -/
theorem readWhole_decimal (hall : ∀ d ∈ digits, Text.isDecimal d = true)
    (htrim : Text.trimEndOf Lexeme.isLongSuffix raw = String.ofList (sign ++ digits ++ ended))
    (hread : (if hasHexMark (String.ofList (sign ++ digits ++ ended)) then
      Number.readHex? (String.ofList (sign ++ digits ++ ended))
      else Number.readDecimal? (String.ofList (sign ++ digits ++ ended))) = some n) :
    readWhole raw = .ok n := by
  have hnomark := hasHexMark_decimal hall hended
  have hpadding := isPadding_of_ended hended
  have hhead : (digits ++ ended).head? ≠ some '-' := by
    obtain ⟨d, ds, rfl⟩ := List.exists_cons_of_ne_nil hne
    have hd := hall d List.mem_cons_self
    rintro heq
    cases heq
    exact absurd hd (by decide)
  rcases hsign with rfl | rfl
  · rw [List.nil_append] at htrim hread
    refine readWhole_unsigned htrim hhead ?_
    simp only [hnomark, Bool.false_eq_true, if_false] at hread ⊢
    exact hread
  · have hcons : ['-'] ++ digits ++ ended = '-' :: (digits ++ ended) := rfl
    have hmark : hasHexMark (String.ofList ('-' :: (digits ++ ended))) = false :=
      hasHexMark_of_head (by simp)
    rw [hcons] at htrim hread
    simp only [hmark, Bool.false_eq_true, if_false] at hread
    rw [Number.readDecimal_negative hall hpadding] at hread
    obtain ⟨ds, hds, hlength⟩ := Option.bind_eq_some_iff.1 hread
    split at hlength
    · next hle =>
      obtain rfl := Option.some.inj hlength
      refine readWhole_negative htrim hhead hnomark ?_
      rw [Number.readDecimal_unsigned hall hpadding, hds, Option.bind_some, if_pos hle]
    · cases hlength

omit hne in
/-- A hexadecimal number is recovered as it was read, and has no sign. -/
theorem readWhole_hex {x : Char} (hx : x = 'x' ∨ x = 'X')
    (hall : ∀ d ∈ digits, Lexeme.isHexDigit d = true)
    (htrim : Text.trimEndOf Lexeme.isLongSuffix raw =
      String.ofList (sign ++ ['0', x] ++ digits ++ ended))
    (hread : (if hasHexMark (String.ofList (sign ++ ['0', x] ++ digits ++ ended)) then
      Number.readHex? (String.ofList (sign ++ ['0', x] ++ digits ++ ended))
      else Number.readDecimal? (String.ofList (sign ++ ['0', x] ++ digits ++ ended))) = some n) :
    readWhole raw = .ok n := by
  have hpadding := isPadding_of_ended hended
  have hfront := isPadding_marked hall hx
  rcases hsign with rfl | rfl
  · have hcons : [] ++ ['0', x] ++ digits ++ ended = '0' :: x :: (digits ++ ended) := rfl
    rw [hcons] at htrim hread
    refine readWhole_unsigned htrim (by simp) ?_
    simp only [hasHexMark_of_mark hx, if_true] at hread ⊢
    rw [← hread, List.drop_succ_cons, List.drop_succ_cons, List.drop_zero]
    rw [readHex_digits hall hpadding, readHex_marked hall hpadding hx]
  · exfalso
    have hcons :
      ['-'] ++ ['0', x] ++ digits ++ ended = ('-' :: (['0', x] ++ digits)) ++ ended := rfl
    rw [hcons] at hread
    have hmark : hasHexMark (String.ofList (('-' :: (['0', x] ++ digits)) ++ ended)) = false :=
      hasHexMark_of_head (by simp)
    simp only [hmark, Bool.false_eq_true, if_false] at hread
    have hminus : ∀ c ∈ '-' :: (['0', x] ++ digits), Number.isPadding c = false := by
      intro c hc
      rcases List.mem_cons.1 hc with rfl | hc
      · decide
      · exact hfront c hc
    have hmem := Number.mem_of_readDecimal hminus hpadding hread (c := x) (by simp)
    rcases hx with rfl | rfl
    · exact absurd hmem (by decide)
    · exact absurd hmem (by decide)

end Agree

/-- The text of a number token, spelled like a whole number, is read as the same number whether
it is read as a token or recovered. -/
theorem value_whole {raw : String} {v : Value} (h : value .number raw = .ok v)
    (hshape : isWholeShaped raw = true) : ∃ n, v = .int n ∧ readWhole raw = .ok n := by
  obtain ⟨w, hw⟩ := exists_whole hshape
  obtain ⟨hdrop, htrim⟩ := unsuffixed_eq hw
  obtain ⟨n, hn, hread⟩ : ∃ n, v = .int n ∧ (if hasHexMark (String.ofList w.unsuffixed) then
      Number.readHex? (String.ofList w.unsuffixed)
      else Number.readDecimal? (String.ofList w.unsuffixed)) = some n := by
    unfold value at h
    simp only [hdrop, bind, Except.bind] at h
    generalize (if hasHexMark (String.ofList w.unsuffixed) then _ else _) = r at h ⊢
    cases r with
    | none => cases h
    | some n =>
      cases h
      exact ⟨n, rfl, rfl⟩
  refine ⟨n, hn, ?_⟩
  rw [unsuffixed_of_read hread, Whole.front] at htrim hread
  rcases w.base_cases with ⟨hmark, hall⟩ | ⟨x, hx, hmark, hall⟩
  · rw [hmark, List.append_nil] at htrim hread
    exact readWhole_decimal w.sign_cases w.digits_ne w.ended_cases hall htrim hread
  · rw [hmark] at htrim hread
    exact readWhole_hex w.sign_cases w.ended_cases hx hall htrim hread

end Literal

end MonkeyFormat
