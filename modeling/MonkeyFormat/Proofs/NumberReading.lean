import MonkeyFormat.Proofs.Numerals
import MonkeyFormat.Proofs.WholeNumbers

set_option autoImplicit false

/-! # Reading numbers in decimal

A number token that can be read is written in decimal digits. What it is read as depends on its
parts only: digits in front of and behind the point make the significand, and the exponent and the
length of the fraction its scale. -/

namespace MonkeyFormat

namespace Text

/-- The value of a decimal digit. -/
def digitOf (c : Char) : Nat := (decimalValue? c).getD 0

theorem digitOf_lt (c : Char) : digitOf c < 10 := by
  unfold digitOf
  cases h : decimalValue? c with
  | none => decide
  | some d => exact decimalValue_lt h

theorem oddUpTo_congr {m n : Nat} {xs : List Nat} (h : ∀ a ∈ xs, a ≤ m ↔ a ≤ n) :
    oddUpTo m xs = oddUpTo n xs := by
  induction xs with
  | nil => rfl
  | cons a xs ih =>
    have ha : decide (a ≤ m) = decide (a ≤ n) := decide_eq_decide.2 (h a List.mem_cons_self)
    rw [oddUpTo, oddUpTo, ih fun b hb => h b (List.mem_cons_of_mem _ hb), ha]

/-- No digits start or stop between the zero and the nine of a script. -/
theorem digitToggles_zeros : (decimalZeros.toList.all fun z => oddUpTo z digitToggles.toList &&
    digitToggles.toList.all fun a => decide (a ≤ z) || decide (z + 10 ≤ a)) = true := by
  decide +kernel

/-- Every decimal digit is a digit. -/
theorem isDigit_of_isDecimal {c : Char} (h : isDecimal c = true) : isDigit c = true := by
  unfold isDigit
  split
  · next hlow => rwa [isDecimal_of_ascii hlow] at h
  · obtain ⟨z, hz, hle, hlt⟩ := exists_zero h
    have hzero := List.all_eq_true.1 digitToggles_zeros z hz
    rw [Bool.and_eq_true, List.all_eq_true] at hzero
    rw [holdsAt_eq_oddUpTo increasing_digitToggles, ← hzero.1]
    refine oddUpTo_congr fun a ha => ?_
    have hapart := hzero.2 a ha
    rw [Bool.or_eq_true, decide_eq_true_eq, decide_eq_true_eq] at hapart
    omega

/-- Among the first characters the digits are the decimal ones. -/
theorem isDecimal_of_isDigit {c : Char} (hlow : c.toNat < 128) (h : isDigit c = true) :
    isDecimal c = true := by
  rw [isDigit, if_pos hlow] at h
  rwa [isDecimal_of_ascii hlow]

end Text

namespace Number

/-! ## What can be read -/

theorem mem_dropWhile {p : Char → Bool} {cs : List Char} {c : Char} (hc : c ∈ cs)
    (hp : p c = false) : c ∈ cs.dropWhile p := by
  rw [← List.takeWhile_append_dropWhile (p := p) (l := cs), List.mem_append] at hc
  rcases hc with hc | hc
  · have hpos := List.all_eq_true.1 List.all_takeWhile c hc
    rw [hp] at hpos
    cases hpos
  · exact hc

/-- Every character that is no blank is read. -/
theorem mem_plainChars {s : String} {c : Char} (hc : c ∈ s.toList)
    (hpadding : isPadding c = false) :
    asciiDigit c ∈ plainChars s := by
  have hinner : c ∈ (Text.trimEndOf isPadding (Text.trimStartOf isPadding s)).toList := by
    rw [Text.trimEndOf, Text.trimStartOf, String.toList_ofList, String.toList_ofList,
      List.mem_reverse]
    exact mem_dropWhile (List.mem_reverse.2 (mem_dropWhile hc hpadding)) hpadding
  exact List.mem_map_of_mem hinner

theorem isDigit_of_isPadding {c : Char} (h : isPadding c = true) : Text.isDigit c = false := by
  have hall : ([0x85, 0xa0, 0x1680, 0x2028, 0x2029, 0x202f, 0x205f, 0x3000] ++
      (List.range 11).map (0x2000 + ·)).all (fun n =>
        !Text.oddUpTo n Text.digitToggles.toList) = true := by decide +kernel
  rw [isPadding, Bool.and_eq_true] at h
  unfold Text.isDigit
  split
  · next hlow =>
    rw [Bool.eq_false_iff]
    intro hdigit
    have hrange := Text.toNat_of_isDigit hdigit
    have hblank := h.1
    simp only [Text.isBlank, Bool.or_eq_true, Bool.and_eq_true, decide_eq_true_eq,
      beq_iff_eq] at hblank
    omega
  · next hhigh =>
    rw [Text.holdsAt_eq_oddUpTo Text.increasing_digitToggles]
    have hmem : c.toNat ∈ [0x85, 0xa0, 0x1680, 0x2028, 0x2029, 0x202f, 0x205f, 0x3000] ++
        (List.range 11).map (0x2000 + ·) := by
      have hblank := h.1
      simp only [Text.isBlank, Bool.or_eq_true, Bool.and_eq_true, decide_eq_true_eq,
        beq_iff_eq] at hblank
      simp only [List.mem_append, List.mem_cons, List.not_mem_nil, or_false, List.mem_map,
        List.mem_range]
      by_cases hmid : 0x2000 ≤ c.toNat ∧ c.toNat ≤ 0x200a
      · exact .inr ⟨c.toNat - 0x2000, by omega, by omega⟩
      · omega
    simpa using List.all_eq_true.1 hall c.toNat hmem

theorem toNat_of_digitValue {base : Nat} {c : Char} (h : (digitValue? base c).isSome = true) :
    c.toNat < 128 := by
  unfold digitValue? at h
  by_contra hhigh
  have hdigit : ¬c.isDigit = true := fun hd => by
    have := Text.toNat_of_isDigit hd
    omega
  have hlower : ¬('a' ≤ c ∧ c ≤ 'f') := fun hc => by
    have : c.toNat ≤ 102 := hc.2
    omega
  have hupper : ¬('A' ≤ c ∧ c ≤ 'F') := fun hc => by
    have : c.toNat ≤ 70 := hc.2
    omega
  simp [hdigit, hlower, hupper] at h

theorem ascii_of_digitRun {base : Nat} {cs : List Char} {after : Bool} {ds : List Nat}
    (h : digitRun? base after cs = some ds) : ∀ c ∈ cs, c.toNat < 128 := by
  intro c hc
  rcases mem_digitRun h hc with rfl | hdigit
  · decide
  · exact toNat_of_digitValue hdigit

theorem ascii_of_splitSign {cs : List Char} (h : ∀ c ∈ (splitSign cs).2, c.toNat < 128) :
    ∀ c ∈ cs, c.toNat < 128 := by
  intro c hc
  rcases mem_splitSign hc with hsign | hrest
  · simp only [List.mem_cons, List.not_mem_nil, or_false] at hsign
    rcases hsign with rfl | rfl
    · decide
    · decide
  · exact h c hrest

theorem ascii_of_readDecimal {s : String} {n : Int} (h : readDecimal? s = some n) :
    ∀ c ∈ plainChars s, c.toNat < 128 := by
  refine ascii_of_splitSign ?_
  unfold readDecimal? at h
  generalize splitSign (plainChars s) = r at h ⊢
  obtain ⟨ds, hds, _⟩ := Option.bind_eq_some_iff.1 h
  exact ascii_of_digitRun hds

theorem ascii_of_readHex {s : String} {n : Int} (h : readHex? s = some n) :
    ∀ c ∈ plainChars s, c.toNat < 128 := by
  refine ascii_of_splitSign ?_
  unfold readHex? at h
  generalize splitSign (plainChars s) = r at h ⊢
  obtain ⟨ds, hds, _⟩ := Option.bind_eq_some_iff.1 h
  intro c hc
  rcases mem_dropHexMark hc with hmark | hdigit
  · simp only [List.mem_cons, List.not_mem_nil, or_false] at hmark
    rcases hmark with rfl | rfl | rfl | rfl <;> decide
  · exact ascii_of_digitRun hds c hdigit

theorem ascii_of_dropUnderscores {after : Bool} {cs ds : List Char}
    (h : dropUnderscores? after cs = some ds) (hds : ∀ c ∈ ds, c.toNat < 128) :
    ∀ c ∈ cs, c.toNat < 128 := by
  fun_induction dropUnderscores? after cs generalizing ds with
  | case1 => nofun
  | case2 after c cs hc ih =>
    obtain ⟨es, hes, rfl⟩ := Option.map_eq_some_iff.1 h
    intro d hd
    rcases List.mem_cons.1 hd with rfl | hd
    · decide
    rcases List.mem_cons.1 hd with rfl | hd
    · exact hds d List.mem_cons_self
    · exact ih hes (fun d hd => hds d (List.mem_cons_of_mem _ hd)) d hd
  | case3 => cases h
  | case4 => cases h
  | case5 after c cs _ _ ih =>
    obtain ⟨es, hes, rfl⟩ := Option.map_eq_some_iff.1 h
    intro d hd
    rcases List.mem_cons.1 hd with rfl | hd
    · exact hds d List.mem_cons_self
    · exact ih hes (fun d hd => hds d (List.mem_cons_of_mem _ hd)) d hd

theorem toNat_of_isDigit_or {c : Char} (h : c.isDigit = true) : c.toNat < 128 := by
  have hrange := Text.toNat_of_isDigit h
  omega

theorem ascii_of_readUnsigned {negative : Bool} {cs : List Char} {x : Binary64}
    (h : readUnsigned? negative cs = some x) : ∀ c ∈ cs, c.toNat < 128 := by
  have hdigits {ds : List Char} {c : Char} (hc : c ∈ ds.takeWhile Char.isDigit) :
      c.toNat < 128 := toNat_of_isDigit_or (List.all_eq_true.1 List.all_takeWhile c hc)
  unfold readUnsigned? at h
  extract_lets whole afterWhole at h
  have hbehind : cs.dropWhile Char.isDigit = afterWhole := rfl
  clear_value afterWhole
  split at h
  next fraction afterFraction hsplit =>
    have hfraction : ∀ c ∈ afterWhole, c.toNat < 128 ∨ c ∈ afterFraction := by
      intro c hc
      split at hsplit
      · next rest =>
        cases hsplit
        rw [List.mem_cons, ← List.takeWhile_append_dropWhile (p := Char.isDigit) (l := rest),
          List.mem_append] at hc
        rcases hc with rfl | hc | hc
        · exact .inl (by decide)
        · exact .inl (hdigits hc)
        · exact .inr hc
      · cases hsplit
        exact .inr hc
    have hpower : ∀ c ∈ afterFraction, c.toNat < 128 := by
      extract_lets value at h
      split at h
      · cases h
      · split at h
        · nofun
        · next e rest =>
          split at h
          · next he =>
            generalize hr : splitSign rest = r at h
            obtain ⟨ds, hds, _⟩ := Option.map_eq_some_iff.1 h
            intro c hc
            rcases List.mem_cons.1 hc with rfl | hc
            · rw [Bool.or_eq_true, decide_eq_true_eq, decide_eq_true_eq] at he
              rcases he with rfl | rfl
              · decide
              · decide
            · have hrest : ∀ c ∈ rest, c.toNat < 128 := by
                refine ascii_of_splitSign ?_
                rw [hr]
                exact ascii_of_digitRun hds
              exact hrest c hc
          · cases h
    intro c hc
    rw [← List.takeWhile_append_dropWhile (p := Char.isDigit) (l := cs), List.mem_append,
      hbehind] at hc
    rcases hc with hc | hc
    · exact hdigits hc
    · rcases hfraction c hc with hlow | hc
      · exact hlow
      · exact hpower c hc

theorem toNat_of_toLower {c : Char} (h : c.toLower.toNat < 128) : c.toNat < 128 := by
  by_cases hupper : c.isUpper = true
  · have hrange : 65 ≤ c.toNat ∧ c.toNat ≤ 90 := by
      simp only [Char.isUpper, decide_eq_true_eq] at hupper
      exact hupper
    omega
  · rwa [Char.toLower_eq_of_not_isUpper hupper] at h

theorem ascii_of_readFloat {s : String} {x : Binary64} (h : readFloat? s = some x) :
    ∀ c ∈ plainChars s, c.toNat < 128 := by
  refine ascii_of_splitSign ?_
  unfold readFloat? at h
  generalize splitSign (plainChars s) = r at h ⊢
  obtain ⟨negative, cs⟩ := r
  -- the words that are numbers, in any case
  have hword {word : String} (hcs : String.ofList (cs.map Char.toLower) = word)
      (hall : word.toList.all (·.toNat < 128) = true) : ∀ c ∈ cs, c.toNat < 128 := by
    intro c hc
    have hmem : c.toLower ∈ word.toList := by
      rw [← hcs, String.toList_ofList]
      exact List.mem_map_of_mem hc
    exact toNat_of_toLower (by simpa using List.all_eq_true.1 hall _ hmem)
  dsimp only at h
  split at h
  · next hnan => exact hword hnan (by decide)
  split at h
  · next hinf =>
    rw [Bool.or_eq_true, decide_eq_true_eq, decide_eq_true_eq] at hinf
    rcases hinf with hinf | hinf
    · exact hword hinf (by decide)
    · exact hword hinf (by decide)
  · obtain ⟨ds, hds, hread⟩ := Option.bind_eq_some_iff.1 h
    exact ascii_of_dropUnderscores hds (ascii_of_readUnsigned hread)

/-- A digit of a text that can be read is a decimal one. -/
theorem isDecimal_of_ascii_plainChars {s : String} (h : ∀ c ∈ plainChars s, c.toNat < 128)
    {c : Char} (hc : c ∈ s.toList) (hdigit : Text.isDigit c = true) : Text.isDecimal c = true := by
  have hpadding : isPadding c = false := by
    rw [Bool.eq_false_iff]
    intro hpadding
    rw [isDigit_of_isPadding hpadding] at hdigit
    cases hdigit
  by_contra hdecimal
  have hlow := h _ (mem_plainChars hc hpadding)
  rw [asciiDigit_of_not_isDecimal (Bool.eq_false_iff.2 hdecimal)] at hlow
  exact hdecimal (Text.isDecimal_of_isDigit hlow hdigit)

end Number

namespace Literal

theorem mem_of_dropSuffix {q : Char → Bool} {raw s : String} (h : dropSuffix q raw = .ok s)
    {c : Char} (hc : c ∈ raw.toList) : q c = true ∨ c ∈ s.toList := by
  unfold dropSuffix at h
  split at h
  · cases h
  · next d cs hraw =>
    have hsplit : raw.toList = cs.reverse ++ [d] := by
      rw [← List.reverse_reverse raw.toList, hraw, List.reverse_cons]
    split at h
    · next hd =>
      cases h
      rw [hsplit, List.mem_append, List.mem_singleton] at hc
      rw [String.toList_ofList]
      rcases hc with hc | rfl
      · exact .inr hc
      · exact .inl hd
    · cases h
      exact .inr hc

theorem readable_eq_ok {α : Type} {r : Option α} {a : α} (h : readable r = .ok a) :
    r = some a := by
  cases r with
  | none => cases h
  | some b =>
    cases h
    rfl

/-- The digits of a number token that can be read are decimal ones. -/
theorem isDecimal_of_value {kind : TokenKind} {raw : String} {v : Value}
    (hkind : kind = .number ∨ kind = .float) (h : value kind raw = .ok v) {c : Char}
    (hc : c ∈ raw.toList) (hdigit : Text.isDigit c = true) : Text.isDecimal c = true := by
  -- a suffix is a letter
  have hsuffix {q : Char → Bool} {s : String} (hq : ∀ c, q c = true → Lexeme.isMark c = true)
      (hdrop : dropSuffix q raw = .ok s)
      (hs : ∀ c ∈ Number.plainChars s, c.toNat < 128) : Text.isDecimal c = true := by
    rcases mem_of_dropSuffix hdrop hc with hmark | hmem
    · rw [(Lexeme.isMark_facts (hq c hmark)).1] at hdigit
      cases hdigit
    · exact Number.isDecimal_of_ascii_plainChars hs hmem hdigit
  rcases hkind with rfl | rfl
  · have hq : ∀ c, Lexeme.isLongSuffix c = true → Lexeme.isMark c = true := by
      intro c hlong
      simp [Lexeme.isMark, hlong]
    obtain ⟨s, hdrop, h⟩ := bind_eq_ok h
    refine hsuffix hq hdrop ?_
    obtain ⟨n, hread, _⟩ := bind_eq_ok h
    by_cases hmark : hasHexMark s = true
    · rw [if_pos hmark] at hread
      exact Number.ascii_of_readHex (readable_eq_ok hread)
    · rw [if_neg hmark] at hread
      exact Number.ascii_of_readDecimal (readable_eq_ok hread)
  · have hq : ∀ c, Lexeme.isFloatSuffix c = true → Lexeme.isMark c = true := by
      intro c hfloat
      simp [Lexeme.isMark, hfloat]
    obtain ⟨s, hdrop, h⟩ := bind_eq_ok h
    obtain ⟨x, hread, _⟩ := bind_eq_ok h
    exact hsuffix hq hdrop (Number.ascii_of_readFloat (readable_eq_ok hread))

end Literal

/-! ## Digits of all scripts -/

namespace Number

theorem asciiDigit_eq {c : Char} (h : Text.isDecimal c = true) :
    asciiDigit c = Char.ofNat ('0'.toNat + Text.digitOf c) := by
  obtain ⟨d, hd⟩ := Option.isSome_iff_exists.1 h
  rw [asciiDigit, Text.digitOf, hd]
  rfl

/-- The value of an ASCII digit. -/
def asciiValue (c : Char) : Nat := c.toNat - '0'.toNat

theorem asciiValue_asciiDigit {c : Char} (h : Text.isDecimal c = true) :
    asciiValue (asciiDigit c) = Text.digitOf c := by
  have hall : ∀ d < 10, asciiValue (Char.ofNat ('0'.toNat + d)) = d := by decide
  rw [asciiDigit_eq h]
  exact hall _ (Text.digitOf_lt c)

theorem digitValue_of_isDigit {c : Char} (h : c.isDigit = true) :
    digitValue? 10 c = some (asciiValue c) := by
  have hrange := Text.toNat_of_isDigit h
  have hzero : '0'.toNat = 48 := rfl
  unfold digitValue? asciiValue
  simp only [h, if_true]
  exact if_pos (by omega)

/-- A run of digits is read digit by digit. -/
theorem digitRun_of_digits {base : Nat} {f : Char → Nat} {cs : List Char}
    (hcs : ∀ c ∈ cs, digitValue? base c = some (f c)) {after : Bool}
    (hne : cs ≠ [] ∨ after = true) : digitRun? base after cs = some (cs.map f) := by
  induction cs generalizing after with
  | nil =>
    obtain rfl := hne.resolve_left (fun h => h rfl)
    rfl
  | cons c cs ih =>
    have hc := hcs c List.mem_cons_self
    have hbar : c ≠ '_' := by
      rintro rfl
      simp [digitValue?] at hc
    rw [digitRun?.eq_3 _ _ _ _ hbar, hc,
      ih (fun d hd => hcs d (List.mem_cons_of_mem _ hd)) (.inr rfl)]
    rfl

/-- The number with the given decimal digits, of any script. -/
def decimalNat (ds : List Char) : Nat := ofDigits 10 (ds.map Text.digitOf)

theorem map_asciiValue {ds : List Char} (h : ∀ d ∈ ds, Text.isDecimal d = true) :
    (ds.map asciiDigit).map asciiValue = ds.map Text.digitOf := by
  rw [List.map_map]
  exact List.map_congr_left fun d hd => asciiValue_asciiDigit (h d hd)

end Number

namespace Lexeme

variable {digit : Char → Bool}

/-- The power of ten of an exponent. -/
def Power.value (e : Power Text.isDecimal) : Int :=
  Number.signed (e.sign = some '-') (Number.decimalNat e.digits)

/-- The exponent in ASCII digits. -/
def Power.ascii (e : Power Text.isDecimal) : Power Char.isDigit :=
  { e with
    digits := e.digits.map Number.asciiDigit
    digits_ne := by simpa using e.digits_ne
    digits_all := List.forall_mem_map.2 fun c hc => Number.isDigit_asciiDigit (e.digits_all c hc) }

namespace Parts

/-- The digits behind the point. -/
def places (p : Parts digit) : List Char := p.fraction.getD []

/-- The digits in front of and behind the point, read as one number. -/
def significand (p : Parts Text.isDecimal) : Nat := Number.decimalNat (p.whole ++ p.places)

/-- The power of ten that scales the significand. -/
def scale (p : Parts Text.isDecimal) : Int := p.power.elim 0 Power.value - p.places.length

/-- The floating point number nearest to the number. -/
def nearest (p : Parts Text.isDecimal) : Binary64 :=
  Binary64.ofDecimal false p.significand p.scale

/-- The number in ASCII digits. -/
def ascii (p : Parts Text.isDecimal) : Parts Char.isDigit where
  whole := p.whole.map Number.asciiDigit
  fraction := p.fraction.map (List.map Number.asciiDigit)
  power := p.power.map Power.ascii
  suffix := p.suffix
  whole_all := List.forall_mem_map.2 fun c hc => Number.isDigit_asciiDigit (p.whole_all c hc)
  fraction_all := by
    intro ds hds
    obtain ⟨es, hes, rfl⟩ := Option.map_eq_some_iff.1 hds
    exact List.forall_mem_map.2 fun c hc => Number.isDigit_asciiDigit (p.fraction_all es hes c hc)
  suffix_cases := by
    intro c hc
    simpa using p.suffix_cases c hc
  nonempty := by
    intro h
    obtain ⟨ds, hds, hne⟩ := p.nonempty (List.map_eq_nil_iff.1 h)
    exact ⟨_, Option.map_eq_some_iff.2 ⟨ds, hds, rfl⟩, by simpa using hne⟩
  bare := by
    intro h
    obtain ⟨ds, hds, hnil⟩ := Option.map_eq_some_iff.1 h
    rw [List.map_eq_nil_iff.1 hnil] at hds
    simpa using p.bare hds

theorem ascii_chars (p : Parts Text.isDecimal) :
    p.chars.map Number.asciiDigit = p.ascii.chars := by
  have hsame {c : Char} (h : Text.isDigit c = false) : Number.asciiDigit c = c := by
    refine Number.asciiDigit_of_not_isDecimal ?_
    rw [Bool.eq_false_iff]
    intro hdecimal
    rw [Text.isDigit_of_isDecimal hdecimal] at h
    cases h
  have hpoint : p.point.map Number.asciiDigit = p.ascii.point := by
    change p.point.map Number.asciiDigit =
      (p.fraction.map (List.map Number.asciiDigit)).elim [] ('.' :: ·)
    unfold point
    cases p.fraction with
    | none => rfl
    | some ds =>
      change Number.asciiDigit '.' :: ds.map Number.asciiDigit = _
      rw [hsame (by decide)]
      rfl
  have hpower : p.powerChars.map Number.asciiDigit = p.ascii.powerChars := by
    change p.powerChars.map Number.asciiDigit = (p.power.map Power.ascii).elim [] Power.chars
    unfold powerChars
    cases p.power with
    | none => rfl
    | some e =>
      have hsign : e.sign.toList.map Number.asciiDigit = e.sign.toList := by
        cases hs : e.sign with
        | none => rfl
        | some s =>
          change [Number.asciiDigit s] = [s]
          rcases e.sign_cases s hs with rfl | rfl
          · rw [hsame (by decide)]
          · rw [hsame (by decide)]
      change e.chars.map Number.asciiDigit = e.ascii.chars
      rw [Power.chars, List.map_cons, List.map_append, hsign,
        hsame (isMark_facts e.isMark_mark).1]
      rfl
  have hsuffix : p.suffix.toList.map Number.asciiDigit = p.suffix.toList := by
    cases hs : p.suffix with
    | none => rfl
    | some c =>
      change [Number.asciiDigit c] = [c]
      rw [hsame (isMark_facts (isMark_suffix hs)).1]
  rw [chars, List.map_append, List.map_append, List.map_append, hpoint, hpower, hsuffix]
  rfl

theorem isPadding_of_mem {p : Parts Text.isDecimal} {c : Char} (h : c ∈ p.chars) :
    Number.isPadding c = false := by
  rcases mem_chars h with hdigit | rfl | rfl | rfl | hmark
  · exact Number.isPadding_of_isDecimal hdigit
  · decide
  · decide
  · decide
  · -- no letter is a blank
    simp only [isMark, isFloatSuffix, isLongSuffix, Bool.or_eq_true, decide_eq_true_eq] at hmark
    rcases hmark with ((rfl | rfl) | ((rfl | rfl) | rfl) | rfl) | rfl | rfl <;> decide

theorem plainChars_chars (p : Parts Text.isDecimal) :
    Number.plainChars (String.ofList p.chars) = p.ascii.chars := by
  have hplain := Number.plainChars_eq (fun c hc => p.isPadding_of_mem hc) (List.forall_mem_nil _)
  rwa [List.append_nil, ascii_chars] at hplain

/-- The first character of a number is a digit or a point. -/
theorem not_sign_of_head {p : Parts Char.isDigit} {c : Char} (h : c ∈ p.chars.head?) :
    c.isDigit = true ∨ c = '.' := by
  obtain ⟨d, cs, hchars, hstart⟩ := p.starts
  rw [hchars] at h
  obtain rfl : d = c := Option.some.inj h
  exact hstart.imp_right And.left

theorem splitSign_chars (p : Parts Char.isDigit) : Number.splitSign p.chars = (false, p.chars) := by
  refine Number.splitSign_eq_self fun c hc => ?_
  rcases not_sign_of_head hc with hdigit | rfl
  · constructor
    · rintro rfl
      exact absurd hdigit (by decide)
    · rintro rfl
      exact absurd hdigit (by decide)
  · decide

theorem dropUnderscores_of_not_mem {cs : List Char} (h : '_' ∉ cs) (after : Bool) :
    Number.dropUnderscores? after cs = some cs := by
  fun_induction Number.dropUnderscores? after cs with
  | case1 => rfl
  | case2 => simp at h
  | case3 => simp at h
  | case4 => simp at h
  | case5 after c cs _ _ ih =>
    rw [ih fun hmem => h (List.mem_cons_of_mem _ hmem)]
    rfl

/-- No number is a word. -/
theorem word_ne {p : Parts Char.isDigit} {word : String}
    (hword : word.toList.head?.any Char.isAlpha = true) :
    String.ofList (p.chars.map Char.toLower) ≠ word := by
  rintro rfl
  obtain ⟨c, cs, hchars, hstart⟩ := p.starts
  have halpha : c.toLower.isAlpha = true := by
    rw [String.toList_ofList, hchars] at hword
    exact hword
  rcases hstart with hdigit | ⟨rfl, _⟩
  · have hupper : ¬c.isUpper = true := by
      intro hupper
      have hrange := Text.toNat_of_isDigit hdigit
      have hcapital : 65 ≤ c.toNat := by
        simp only [Char.isUpper, decide_eq_true_eq] at hupper
        exact hupper.1
      omega
    rw [Char.toLower_eq_of_not_isUpper hupper] at halpha
    have hletter : Text.isLetter c = true := by
      rw [Text.isLetter, if_pos (Number.toNat_of_isDigit_or hdigit), halpha]
    have hnot := Text.isDigit_of_isLetter hletter
    rw [Text.isDigit, if_pos (Number.toNat_of_isDigit_or hdigit), hdigit] at hnot
    cases hnot
  · exact absurd halpha (by decide)

theorem not_mem_underscore (p : Parts Char.isDigit) : '_' ∉ p.chars := by
  intro h
  rcases mem_chars h with hdigit | h | h | h | h
  · exact absurd hdigit (by decide)
  · exact absurd h (by decide)
  · exact absurd h (by decide)
  · exact absurd h (by decide)
  · exact absurd h (by decide)

theorem splitSign_power (e : Power Char.isDigit) :
    Number.splitSign (e.sign.toList ++ e.digits) = (decide (e.sign = some '-'), e.digits) := by
  cases hsign : e.sign with
  | none =>
    refine Number.splitSign_eq_self fun c hc => ?_
    have hdigit := e.digits_all c (List.mem_of_mem_head? hc)
    constructor
    · rintro rfl
      exact absurd hdigit (by decide)
    · rintro rfl
      exact absurd hdigit (by decide)
  | some s =>
    rcases e.sign_cases s hsign with rfl | rfl
    · rfl
    · rfl

/-- A number without a suffix is read as the double precision number nearest to it. -/
theorem readUnsigned_chars (p : Parts Char.isDigit) (hsuffix : p.suffix = none) :
    Number.readUnsigned? false p.chars = some (Binary64.ofDecimal false
      (Number.ofDigits 10 ((p.whole ++ p.places).map Number.asciiValue))
      (p.power.elim 0 (fun e => Number.signed (e.sign = some '-')
        (Number.ofDigits 10 (e.digits.map Number.asciiValue))) - p.places.length)) := by
  have hmark {c : Char} (hc : isMark c = true) : c.isDigit = false := by
    rw [Bool.eq_false_iff]
    intro hdigit
    have hnot := (isMark_facts hc).1
    rw [Text.isDigit, if_pos (Number.toNat_of_isDigit_or hdigit), hdigit] at hnot
    cases hnot
  have hchars : p.chars = p.whole ++ (p.point ++ p.powerChars) := by
    rw [chars, hsuffix, Option.toList_none, List.append_nil]
  have hhead : ∀ c ∈ (p.point ++ p.powerChars).head?, c.isDigit = false := by
    intro c hc
    have hc' : c ∈ (p.point ++ (p.powerChars ++ (p.suffix.toList ++ []))).head? := by
      rw [hsuffix]
      simpa using hc
    rcases head_point hc' with rfl | h | h
    · decide
    · exact hmark h
    · cases h
  have hpowerMark : ∀ c ∈ p.powerChars.head?, isMark c = true := by
    intro c hc
    have hc' : c ∈ (p.powerChars ++ (p.suffix.toList ++ [])).head? := by
      rw [hsuffix]
      simpa using hc
    rcases head_power hc' with h | ⟨_, _, h⟩
    · exact h
    · cases h
  have hpower : ∀ c ∈ p.powerChars.head?, c.isDigit = false := fun c hc => hmark (hpowerMark c hc)
  unfold Number.readUnsigned?
  extract_lets whole behindWhole
  have hwhole : whole = p.whole := by
    simp only [whole, hchars]
    exact takeWhile_run p.whole_all hhead
  have hbehind : behindWhole = p.point ++ p.powerChars := by
    simp only [behindWhole, hchars]
    exact dropWhile_run p.whole_all hhead
  clear_value whole behindWhole
  subst hwhole hbehind
  split
  next fraction behind hsplit =>
    obtain ⟨rfl, rfl⟩ : fraction = p.places ∧ behind = p.powerChars := by
      cases hfraction : p.fraction with
      | none =>
        have hpoint : p.point = [] := by rw [point, hfraction]; rfl
        have hplaces : p.places = [] := by rw [places, hfraction]; rfl
        rw [hpoint, List.nil_append] at hsplit
        rw [hplaces]
        split at hsplit
        · next rest hdot =>
          -- an exponent has no point in front
          rw [hdot] at hpowerMark
          exact absurd (hpowerMark '.' rfl) (by decide)
        · cases hsplit
          exact ⟨rfl, rfl⟩
      | some ds =>
        have hpoint : p.point = '.' :: ds := by rw [point, hfraction]; rfl
        have hplaces : p.places = ds := by rw [places, hfraction]; rfl
        have hds := p.fraction_all ds hfraction
        rw [hpoint, List.cons_append] at hsplit
        rw [hplaces]
        split at hsplit
        · next rest hrest =>
          cases hrest
          rw [takeWhile_run hds hpower, dropWhile_run hds hpower] at hsplit
          cases hsplit
          exact ⟨rfl, rfl⟩
        · next hno => exact absurd rfl (hno _)
    have hsome : ¬(p.whole.isEmpty && p.places.isEmpty) = true := by
      rw [Bool.and_eq_true, List.isEmpty_iff, List.isEmpty_iff]
      rintro ⟨hwhole, hplaces⟩
      obtain ⟨ds, hds, hne⟩ := p.nonempty hwhole
      rw [places, hds] at hplaces
      exact hne hplaces
    rw [if_neg hsome]
    cases hp : p.power with
    | none =>
      have hnone : p.powerChars = [] := by rw [powerChars, hp]; rfl
      rw [hnone]
      rfl
    | some e =>
      have hchars : p.powerChars = e.mark :: (e.sign.toList ++ e.digits) := by
        rw [powerChars, hp]
        rfl
      have hrun := Number.digitRun_of_digits
        (fun c hc => Number.digitValue_of_isDigit (e.digits_all c hc))
        (.inl e.digits_ne : _ ∨ false = true)
      have hmark : (decide (e.mark = 'e') || decide (e.mark = 'E')) = true := by
        simpa using e.mark_cases
      rw [hchars]
      simp only [hmark, if_true, splitSign_power, hrun]
      rfl

theorem ascii_value (e : Power Text.isDecimal) :
    Number.signed (e.ascii.sign = some '-')
      (Number.ofDigits 10 (e.ascii.digits.map Number.asciiValue)) = e.value := by
  change Number.signed _ (Number.ofDigits 10
    ((e.digits.map Number.asciiDigit).map Number.asciiValue)) = _
  rw [Number.map_asciiValue e.digits_all]
  rfl

theorem places_all {p : Parts digit} : ∀ c ∈ p.places, digit c = true := by
  unfold places
  cases hfraction : p.fraction with
  | none => nofun
  | some ds => exact p.fraction_all ds hfraction

/-- A number without a suffix is read as the floating point number nearest to it. -/
theorem readFloat_chars {p : Parts Text.isDecimal} (hsuffix : p.suffix = none) :
    Number.readFloat? (String.ofList p.chars) = some p.nearest := by
  have hplaces : p.ascii.places = p.places.map Number.asciiDigit := by
    change (p.fraction.map (List.map Number.asciiDigit)).getD [] = _
    rw [places]
    cases p.fraction with
    | none => rfl
    | some ds => rfl
  have hsignificand : Number.ofDigits 10
      ((p.ascii.whole ++ p.ascii.places).map Number.asciiValue) = p.significand := by
    change Number.ofDigits 10
      ((p.whole.map Number.asciiDigit ++ p.ascii.places).map Number.asciiValue) = _
    rw [hplaces, ← List.map_append, Number.map_asciiValue]
    · rfl
    · intro c hc
      rcases List.mem_append.1 hc with hc | hc
      · exact p.whole_all c hc
      · exact places_all c hc
  have hscale : p.ascii.power.elim 0 (fun e => Number.signed (e.sign = some '-')
      (Number.ofDigits 10 (e.digits.map Number.asciiValue))) - (p.ascii.places.length : Int) =
        p.scale := by
    rw [hplaces, List.length_map, scale]
    change (p.power.map Power.ascii).elim 0 _ - _ = _
    cases p.power with
    | none => rfl
    | some e =>
      rw [Option.map_some, Option.elim_some, Option.elim_some, ascii_value]
  unfold Number.readFloat?
  rw [plainChars_chars, splitSign_chars]
  dsimp only
  rw [if_neg (word_ne (by decide)), if_neg, dropUnderscores_of_not_mem (not_mem_underscore _),
    Option.bind_some, readUnsigned_chars _ hsuffix, hsignificand, hscale]
  · rfl
  · rw [Bool.or_eq_true, decide_eq_true_eq, decide_eq_true_eq, not_or]
    exact ⟨word_ne (by decide), word_ne (by decide)⟩

/-! ## The values of tokens -/

theorem chars_unsuffixed (p : Parts digit) : p.chars = p.unsuffixed.chars ++ p.suffix.toList := by
  simp only [chars, List.append_assoc]
  rfl

/-- Without a suffix a number ends in a digit or in a point. -/
theorem last_of_unsuffixed {p : Parts digit} (hsuffix : p.suffix = none) :
    ∃ cs c, p.chars = cs ++ [c] ∧ (digit c = true ∨ c = '.') := by
  have hlast (cs : List Char) {ds : List Char} (hne : ds ≠ [])
      (hall : ∀ c ∈ ds, digit c = true ∨ c = '.') (hchars : p.chars = cs ++ ds) :
      ∃ cs c, p.chars = cs ++ [c] ∧ (digit c = true ∨ c = '.') := by
    refine ⟨cs ++ ds.dropLast, ds.getLast hne, ?_, hall _ (List.getLast_mem hne)⟩
    rw [hchars, List.append_assoc, List.dropLast_append_getLast]
  have hchars : p.chars = p.whole ++ (p.point ++ p.powerChars) := by
    rw [chars, hsuffix, Option.toList_none, List.append_nil]
  cases hpower : p.power with
  | some e =>
    refine hlast (p.whole ++ (p.point ++ e.mark :: e.sign.toList)) e.digits_ne
      (fun c hc => .inl (e.digits_all c hc)) ?_
    rw [hchars, powerChars, hpower]
    change p.whole ++ (p.point ++ e.chars) = _
    simp [Power.chars]
  | none =>
    rw [powerChars, hpower] at hchars
    cases hfraction : p.fraction with
    | some ds =>
      refine hlast p.whole (List.cons_ne_nil '.' ds) (fun c hc => ?_) ?_
      · rcases List.mem_cons.1 hc with rfl | hc
        · exact .inr rfl
        · exact .inl (p.fraction_all ds hfraction c hc)
      · rw [hchars, point, hfraction]
        simp
    | none =>
      refine hlast [] (whole_ne_nil hfraction) (fun c hc => .inl (p.whole_all c hc)) ?_
      rw [hchars, point, hfraction]
      simp

end Parts

end Lexeme

namespace Literal

open Lexeme (Parts Power)

theorem dropSuffix_concat {q : Char → Bool} (cs : List Char) (c : Char) :
    dropSuffix q (String.ofList (cs ++ [c])) =
      .ok (if q c then String.ofList cs else String.ofList (cs ++ [c])) := by
  unfold dropSuffix
  rw [String.toList_ofList, List.reverse_concat]
  simp only [List.reverse_reverse]
  rfl

/-- The suffix is dropped, and nothing else. -/
theorem dropSuffix_chars {p : Parts Text.isDecimal} {q : Char → Bool}
    (hq : ∀ c, q c = true → Lexeme.isMark c = true) (hsuffix : ∀ c ∈ p.suffix, q c = true) :
    dropSuffix q (String.ofList p.chars) = .ok (String.ofList p.unsuffixed.chars) := by
  cases hs : p.suffix with
  | some c =>
    rw [p.chars_unsuffixed, hs, Option.toList_some, dropSuffix_concat, if_pos (hsuffix c hs)]
  | none =>
    obtain ⟨cs, c, hchars, hc⟩ := Parts.last_of_unsuffixed (p := p.unsuffixed) rfl
    have hnot : ¬q c = true := by
      intro hmark
      have hfacts := Lexeme.isMark_facts (hq c hmark)
      rcases hc with hdigit | rfl
      · rw [Text.isDigit_of_isDecimal hdigit] at hfacts
        cases hfacts.1
      · exact hfacts.2.2.1 rfl
    rw [p.chars_unsuffixed, hs, Option.toList_none, List.append_nil, hchars, dropSuffix_concat,
      if_neg hnot]

/-- A float is read as the floating point number nearest to it. -/
theorem value_float {p : Parts Text.isDecimal} (h : p.kind = .float) :
    value .float (String.ofList p.chars) = .ok (.float p.nearest) := by
  have hsuffix : ∀ c ∈ p.suffix, Lexeme.isFloatSuffix c = true := by
    intro c hc
    rcases p.suffix_cases c hc with hfloat | ⟨hlong, hfraction, hpower⟩
    · exact hfloat
    · have hscaled : p.isScaled = false := by rw [Parts.isScaled, hfraction, hpower]; rfl
      rw [Parts.kind, hscaled, hc] at h
      by_contra hnot
      simp [hnot] at h
  have hmark (c : Char) (hc : Lexeme.isFloatSuffix c = true) : Lexeme.isMark c = true := by
    simp [Lexeme.isMark, hc]
  have hread := Parts.readFloat_chars (p := p.unsuffixed) rfl
  unfold value
  simp only [dropSuffix_chars hmark hsuffix, hread, bind, Except.bind]
  rfl

/-- A number without fraction and exponent consists of its digits. -/
theorem unsuffixed_of_number {p : Parts Text.isDecimal} (h : p.kind = .number) :
    p.fraction = none ∧ p.power = none ∧ (∀ c ∈ p.suffix, Lexeme.isLongSuffix c = true) := by
  have hnot : (p.isScaled || p.suffix.any Lexeme.isFloatSuffix) = false := by
    rw [Bool.eq_false_iff]
    intro hscaled
    rw [Parts.kind, if_pos hscaled] at h
    cases h
  rw [Bool.or_eq_false_iff, Parts.isScaled, Bool.or_eq_false_iff] at hnot
  refine ⟨by simpa using hnot.1.1, by simpa using hnot.1.2, fun c hc => ?_⟩
  rcases p.suffix_cases c hc with hfloat | ⟨hlong, _⟩
  · rw [hc, Option.any_some, hfloat] at hnot
    cases hnot.2
  · exact hlong

theorem chars_of_number {p : Parts Text.isDecimal} (h : p.kind = .number) :
    p.chars = p.whole ++ p.suffix.toList := by
  obtain ⟨hfraction, hpower, _⟩ := unsuffixed_of_number h
  rw [Parts.chars, Parts.point, hfraction, Parts.powerChars, hpower]
  rfl

/-- A whole number is read digit by digit, if it does not have too many of them. -/
theorem value_number {p : Parts Text.isDecimal} (h : p.kind = .number) :
    value .number (String.ofList p.chars) =
      if p.whole.length ≤ Number.maxDigits then .ok (.int p.significand)
      else .error .unreadableNumber := by
  obtain ⟨hfraction, hpower, hsuffix⟩ := unsuffixed_of_number h
  have hmark (c : Char) (hc : Lexeme.isLongSuffix c = true) : Lexeme.isMark c = true := by
    simp [Lexeme.isMark, hc]
  have hchars : p.unsuffixed.chars = p.whole ++ [] := by
    change p.whole ++ (p.point ++ (p.powerChars ++ [])) = _
    rw [Parts.point, hfraction, Parts.powerChars, hpower]
    rfl
  have hne : p.whole.map Number.asciiDigit ≠ [] :=
    mt List.map_eq_nil_iff.1 (Parts.whole_ne_nil hfraction)
  have hdigits : ∀ c ∈ p.whole.map Number.asciiDigit, c.isDigit = true :=
    List.forall_mem_map.2 fun c hc => Number.isDigit_asciiDigit (p.whole_all c hc)
  have hsignificand : p.significand = Number.ofDigits 10 (p.whole.map Text.digitOf) := by
    rw [Parts.significand, Parts.places, hfraction, Option.getD_none, List.append_nil]
    rfl
  have hread : Number.readDecimal? (String.ofList (p.whole ++ [])) =
      if p.whole.length ≤ Number.maxDigits then some (p.significand : Int) else none := by
    rw [Number.readDecimal_unsigned p.whole_all (fun c hc => absurd hc List.not_mem_nil),
      Number.digitRun_of_digits (fun c hc => Number.digitValue_of_isDigit (hdigits c hc))
        (.inl hne : _ ∨ false = true), Option.bind_some,
      Number.map_asciiValue p.whole_all, List.length_map, ← hsignificand]
  have hnomark := hasHexMark_decimal p.whole_all (.inl rfl)
  unfold value
  simp only [dropSuffix_chars hmark hsuffix, hchars, hread, hnomark, bind, Except.bind,
    Bool.false_eq_true, if_false]
  by_cases hle : p.whole.length ≤ Number.maxDigits
  · simp only [if_pos hle]
    rfl
  · simp only [if_neg hle]
    rfl

end Literal

end MonkeyFormat
