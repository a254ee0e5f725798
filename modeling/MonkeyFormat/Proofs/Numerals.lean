import MonkeyFormat.Proofs.Lexing

set_option autoImplicit false

/-! # Numbers in decimal

A number in decimal consists of digits, a fraction, an exponent and a suffix, not all of which must
be there. What the lexer takes has such parts; and a text of such parts is taken as a whole, unless
something follows with which the number could go on. The class of the digits is a parameter, since
the lexer takes digits that cannot be read as a number. -/

namespace MonkeyFormat

namespace Lexeme

/-! ## The parts of a number -/

/-- An exponent. -/
@[ext]
structure Power (digit : Char → Bool) where
  mark : Char
  sign : Option Char
  digits : List Char
  mark_cases : mark = 'e' ∨ mark = 'E'
  sign_cases : ∀ s ∈ sign, s = '+' ∨ s = '-'
  digits_ne : digits ≠ []
  digits_all : ∀ c ∈ digits, digit c = true

/-- A number in decimal. A long suffix is that of a whole number; and the point may stand behind
the digits alone, but then it is the last character. -/
@[ext]
structure Parts (digit : Char → Bool) where
  whole : List Char
  /-- The digits behind the point, if there is one. -/
  fraction : Option (List Char)
  power : Option (Power digit)
  suffix : Option Char
  whole_all : ∀ c ∈ whole, digit c = true
  fraction_all : ∀ ds ∈ fraction, ∀ c ∈ ds, digit c = true
  suffix_cases : ∀ c ∈ suffix, isFloatSuffix c = true ∨
    isLongSuffix c = true ∧ fraction = none ∧ power = none
  nonempty : whole = [] → ∃ ds ∈ fraction, ds ≠ []
  bare : fraction = some [] → power = none ∧ suffix = none

variable {digit : Char → Bool}

/-- The characters of an exponent. -/
def Power.chars (e : Power digit) : List Char := e.mark :: (e.sign.toList ++ e.digits)

namespace Parts

/-- The point and the digits behind it. -/
def point (p : Parts digit) : List Char := p.fraction.elim [] ('.' :: ·)

/-- The characters of the exponent. -/
def powerChars (p : Parts digit) : List Char := p.power.elim [] Power.chars

/-- The whole number. -/
def chars (p : Parts digit) : List Char :=
  p.whole ++ (p.point ++ (p.powerChars ++ p.suffix.toList))

/-- Without a fraction there are digits in front. -/
theorem whole_ne_nil {p : Parts digit} (h : p.fraction = none) : p.whole ≠ [] := by
  intro hnil
  obtain ⟨ds, hds, _⟩ := p.nonempty hnil
  rw [h] at hds
  cases hds

/-- Are there a fraction or an exponent? -/
def isScaled (p : Parts digit) : Bool := p.fraction.isSome || p.power.isSome

/-- The number without its suffix. -/
def unsuffixed (p : Parts digit) : Parts digit :=
  { p with
    suffix := none
    suffix_cases := nofun
    bare := fun h => ⟨(p.bare h).1, rfl⟩ }

/-- A fraction, an exponent and some suffixes make a float. -/
def kind (p : Parts digit) : TokenKind :=
  if p.isScaled || p.suffix.any isFloatSuffix then .float else .number

end Parts

/-! ## What the lexer takes -/

/-- A run that cannot go on is taken as a whole. -/
theorem takeWhile_run {α : Type} {p : α → Bool} {run rest : List α} (hrun : ∀ c ∈ run, p c = true)
    (hrest : ∀ c ∈ rest.head?, p c = false) : (run ++ rest).takeWhile p = run := by
  rw [List.takeWhile_append_of_pos hrun]
  cases rest with
  | nil => rw [List.takeWhile_nil, List.append_nil]
  | cons c cs => rw [List.takeWhile_cons_of_neg (by simp [hrest c rfl]), List.append_nil]

/-- Behind a run that cannot go on stands the rest. -/
theorem dropWhile_run {α : Type} {p : α → Bool} {run rest : List α} (hrun : ∀ c ∈ run, p c = true)
    (hrest : ∀ c ∈ rest.head?, p c = false) : (run ++ rest).dropWhile p = rest := by
  rw [List.dropWhile_append_of_pos hrun]
  cases rest with
  | nil => rfl
  | cons c cs => rw [List.dropWhile_cons_of_neg (by simp [hrest c rfl])]

theorem startsWith_iff {q : Char → Bool} {cs : List Char} :
    startsWith q cs = true ↔ ∃ c ∈ cs.head?, q c = true := by
  cases cs with
  | nil => simp [startsWith]
  | cons c cs => simp [startsWith]

theorem startsWith_false {q : Char → Bool} {cs : List Char} :
    startsWith q cs = false ↔ ∀ c ∈ cs.head?, q c = false := by
  cases cs with
  | nil => simp [startsWith]
  | cons c cs => simp [startsWith]

theorem fraction_point (b : Bool) (cs : List Char) : fraction b ('.' :: cs) =
    if startsDigit cs then '.' :: cs.takeWhile Text.isDigit
    else if b && !startsWith Text.isLetter cs then ['.'] else [] := rfl

theorem exponent_cons {m : Char} (hm : m = 'e' ∨ m = 'E') (cs : List Char) : exponent (m :: cs) =
    if startsDigit cs then m :: cs.takeWhile Text.isDigit
    else match cs with
      | sign :: ds =>
        if (sign = '+' || sign = '-') && startsDigit ds then m :: sign :: ds.takeWhile Text.isDigit
        else []
      | [] => [] :=
  if_pos (by simpa using hm)

theorem startsWith_suffix (q : Char → Bool) (s : Option Char) :
    startsWith q s.toList = s.any q := by
  cases s with
  | none => rfl
  | some c => rfl

/-- A number cannot go on with the character, whatever it ends in. -/
def stops (c : Char) : Bool :=
  !(Text.isDigit c || Text.isLetter c || Text.isWordChar c || c = '_' || c = '.')

theorem stops_iff {c : Char} : stops c = true ↔ Text.isDigit c = false ∧ Text.isLetter c = false ∧
    Text.isWordChar c = false ∧ c ≠ '_' ∧ c ≠ '.' := by
  simp [stops, and_assoc]

/-- The letters of a number are those of its mark and of its suffix. -/
def isMark (c : Char) : Bool := c = 'e' || c = 'E' || isFloatSuffix c || isLongSuffix c

theorem isMark_facts {c : Char} (h : isMark c = true) : Text.isDigit c = false ∧
    Text.isLetter c = true ∧ c ≠ '.' ∧ c ≠ 'x' ∧ c ≠ 'X' := by
  have hall : (['e', 'E', 'f', 'F', 'd', 'D', 'l', 'L'].all fun c =>
      !Text.isDigit c && Text.isLetter c && decide (c ≠ '.') && decide (c ≠ 'x') &&
        decide (c ≠ 'X')) = true := by decide +kernel
  have hmem : c ∈ ['e', 'E', 'f', 'F', 'd', 'D', 'l', 'L'] := by
    simp only [isMark, isFloatSuffix, isLongSuffix, Bool.or_eq_true, decide_eq_true_eq] at h
    simp only [List.mem_cons, List.not_mem_nil, or_false]
    tauto
  have hc := List.all_eq_true.1 hall c hmem
  simp only [Bool.and_eq_true, Bool.not_eq_true', decide_eq_true_eq] at hc
  tauto

theorem Power.isMark_mark (e : Power digit) : isMark e.mark = true := by
  rcases e.mark_cases with h | h
  · rw [h]
    rfl
  · rw [h]
    rfl

theorem Parts.isMark_suffix {p : Parts digit} {c : Char} (h : c ∈ p.suffix) : isMark c = true := by
  rcases p.suffix_cases c h with hfloat | ⟨hlong, _⟩
  · simp [isMark, hfloat]
  · simp [isMark, hlong]

namespace Parts

variable {p : Parts digit} {rest : List Char}

/-- Behind the exponent stands the suffix, or else what follows. -/
theorem head_suffix {c : Char} (h : c ∈ (p.suffix.toList ++ rest).head?) :
    c ∈ p.suffix ∨ p.suffix = none ∧ c ∈ rest.head? := by
  cases hsuffix : p.suffix with
  | none =>
    rw [hsuffix] at h
    exact .inr ⟨rfl, h⟩
  | some s =>
    rw [hsuffix] at h
    exact .inl h

/-- Behind the fraction stands a mark or a suffix, or else what follows. -/
theorem head_power {c : Char} (h : c ∈ (p.powerChars ++ (p.suffix.toList ++ rest)).head?) :
    isMark c = true ∨ p.power = none ∧ p.suffix = none ∧ c ∈ rest.head? := by
  cases hpower : p.power with
  | none =>
    rw [powerChars, hpower] at h
    rcases head_suffix h with hsuffix | ⟨hsuffix, hrest⟩
    · exact .inl (isMark_suffix hsuffix)
    · exact .inr ⟨rfl, hsuffix, hrest⟩
  | some e =>
    rw [powerChars, hpower] at h
    obtain rfl : e.mark = c := by simpa [Power.chars] using h
    exact .inl e.isMark_mark

/-- Behind the whole digits stands a point, a mark or a suffix, or else what follows. -/
theorem head_point {c : Char}
    (h : c ∈ (p.point ++ (p.powerChars ++ (p.suffix.toList ++ rest))).head?) :
    c = '.' ∨ isMark c = true ∨ c ∈ rest.head? := by
  cases hfraction : p.fraction with
  | none =>
    rw [point, hfraction] at h
    rcases head_power h with hmark | ⟨_, _, hrest⟩
    · exact .inr (.inl hmark)
    · exact .inr (.inr hrest)
  | some ds =>
    rw [point, hfraction] at h
    exact .inl (by simpa using h.symm)

section Taken

variable (hdigit : ∀ c, digit c = true → Text.isDigit c = true)
  (hrest : ∀ c ∈ rest.head?, stops c = true)
include hdigit hrest

theorem takeWhile_whole :
    (p.whole ++ (p.point ++ (p.powerChars ++ (p.suffix.toList ++ rest)))).takeWhile Text.isDigit =
      p.whole := by
  refine takeWhile_run (fun c hc => hdigit c (p.whole_all c hc)) fun c hc => ?_
  rcases head_point hc with rfl | hmark | hnext
  · decide +kernel
  · exact (isMark_facts hmark).1
  · exact (stops_iff.1 (hrest c hnext)).1

theorem takeWhile_digits {ds : List Char} (hds : ∀ c ∈ ds, digit c = true) :
    (ds ++ (p.powerChars ++ (p.suffix.toList ++ rest))).takeWhile Text.isDigit = ds := by
  refine takeWhile_run (fun c hc => hdigit c (hds c hc)) fun c hc => ?_
  rcases head_power hc with hmark | ⟨_, _, hnext⟩
  · exact (isMark_facts hmark).1
  · exact (stops_iff.1 (hrest c hnext)).1

omit hrest in
theorem startsDigit_of_digits {ds : List Char} (hne : ds ≠ [])
    (hds : ∀ c ∈ ds, digit c = true) (cs : List Char) : startsDigit (ds ++ cs) = true := by
  obtain ⟨d, ds, rfl⟩ := List.exists_cons_of_ne_nil hne
  exact hdigit d (hds d List.mem_cons_self)

theorem fraction_eq :
    Lexeme.fraction (!p.whole.isEmpty) (p.point ++ (p.powerChars ++ (p.suffix.toList ++ rest))) =
      p.point := by
  cases hfraction : p.fraction with
  | none =>
    rw [point, hfraction]
    change Lexeme.fraction (!p.whole.isEmpty)
      (p.powerChars ++ (p.suffix.toList ++ rest)) = []
    unfold Lexeme.fraction
    split
    · next heq =>
      -- a point would follow the number
      have hpoint : '.' ∈ (p.powerChars ++ (p.suffix.toList ++ rest)).head? := by
        rw [heq]
        rfl
      rcases head_power hpoint with hmark | ⟨_, _, hnext⟩
      · exact absurd hmark (by decide)
      · exact absurd (hrest _ hnext) (by decide)
    · rfl
  | some ds =>
    have hdigits := takeWhile_digits hdigit hrest (p := p) (p.fraction_all ds hfraction)
    rw [point, hfraction]
    change Lexeme.fraction (!p.whole.isEmpty)
      ('.' :: (ds ++ (p.powerChars ++ (p.suffix.toList ++ rest)))) = '.' :: ds
    rw [fraction_point, hdigits]
    cases ds with
    | cons d ds =>
      refine if_pos ?_
      exact hdigit d (p.fraction_all _ hfraction d List.mem_cons_self)
    | nil =>
      obtain ⟨hpower, hsuffix⟩ := p.bare hfraction
      have hwhole : p.whole ≠ [] := by
        intro hnil
        obtain ⟨ds, hds, hne⟩ := p.nonempty hnil
        rw [hfraction] at hds
        exact hne (Option.some.inj hds).symm
      rw [powerChars, hpower, hsuffix]
      change (if startsDigit rest then _ else _) = _
      rw [if_neg, if_pos]
      · have hletter : startsWith Text.isLetter rest = false :=
          startsWith_false.2 fun c hc => (stops_iff.1 (hrest c hc)).2.1
        change (!p.whole.isEmpty && !startsWith Text.isLetter rest) = true
        rw [hletter]
        simpa using hwhole
      · rw [Bool.not_eq_true]
        exact startsWith_false.2 fun c hc => (stops_iff.1 (hrest c hc)).1

theorem exponent_eq : exponent (p.powerChars ++ (p.suffix.toList ++ rest)) = p.powerChars := by
  cases hpower : p.power with
  | none =>
    rw [powerChars, hpower]
    change exponent (p.suffix.toList ++ rest) = []
    unfold exponent
    split
    · next e cs heq =>
      rw [if_neg]
      rw [Bool.or_eq_true, decide_eq_true_eq, decide_eq_true_eq]
      intro he
      have hmem : e ∈ (p.suffix.toList ++ rest).head? := by
        rw [heq]
        rfl
      rcases head_suffix hmem with hsuffix | ⟨_, hnext⟩
      · rcases p.suffix_cases e hsuffix with hfloat | ⟨hlong, _⟩
        · rcases he with rfl | rfl <;> exact absurd hfloat (by decide)
        · rcases he with rfl | rfl <;> exact absurd hlong (by decide)
      · rcases he with rfl | rfl <;> exact absurd (hrest _ hnext) (by decide)
    · rfl
  | some e =>
    have hdigits : (e.digits ++ (p.suffix.toList ++ rest)).takeWhile Text.isDigit = e.digits := by
      refine takeWhile_run (fun c hc => hdigit c (e.digits_all c hc)) fun c hc => ?_
      rcases head_suffix hc with hsuffix | ⟨_, hnext⟩
      · exact (isMark_facts (isMark_suffix hsuffix)).1
      · exact (stops_iff.1 (hrest c hnext)).1
    have hstart := startsDigit_of_digits hdigit e.digits_ne e.digits_all
      (p.suffix.toList ++ rest)
    rw [powerChars, hpower]
    change exponent (e.mark :: ((e.sign.toList ++ e.digits) ++ (p.suffix.toList ++ rest))) = e.chars
    rw [List.append_assoc, Power.chars, exponent_cons e.mark_cases]
    cases hsign : e.sign with
    | none =>
      rw [Option.toList_none, List.nil_append, List.nil_append, if_pos hstart, hdigits]
    | some s =>
      have hs := e.sign_cases s hsign
      have hnot : ¬startsDigit (s :: (e.digits ++ (p.suffix.toList ++ rest))) = true := by
        rcases hs with rfl | rfl
        · exact (show ¬Text.isDigit '+' = true by decide)
        · exact (show ¬Text.isDigit '-' = true by decide)
      have hboth : ((decide (s = '+') || decide (s = '-')) &&
          startsDigit (e.digits ++ (p.suffix.toList ++ rest))) = true := by
        rw [hstart, Bool.and_true]
        simpa using hs
      rw [Option.toList_some, List.cons_append, List.nil_append, if_neg hnot]
      simp only [hboth, if_true, hdigits]
      rfl

omit hdigit in
theorem suffix_eq :
    ((p.suffix.toList ++ rest).take 1).filter
      (fun c => isFloatSuffix c || (!p.isScaled && isLongSuffix c)) = p.suffix.toList := by
  cases hsuffix : p.suffix with
  | none =>
    cases rest with
    | nil => rfl
    | cons c cs =>
      -- what follows is no letter
      have hnot : isMark c = false := by
        rw [Bool.eq_false_iff]
        intro hmark
        have hletter := (isMark_facts hmark).2.1
        rw [(stops_iff.1 (hrest c rfl)).2.1] at hletter
        cases hletter
      simp only [isMark, Bool.or_eq_false_iff] at hnot
      simp [hnot.1.2, hnot.2]
  | some s =>
    have hs : (isFloatSuffix s || (!p.isScaled && isLongSuffix s)) = true := by
      rcases p.suffix_cases s hsuffix with hfloat | ⟨hlong, hfraction, hpower⟩
      · rw [hfloat, Bool.true_or]
      · rw [isScaled, hfraction, hpower, hlong]
        exact Bool.or_true _
    simp [hs]

omit hdigit hrest in
theorem isScaled_eq : (!p.point.isEmpty || !p.powerChars.isEmpty) = p.isScaled := by
  rw [point, powerChars, isScaled]
  cases p.fraction with
  | none =>
    cases p.power with
    | none => rfl
    | some e => rfl
  | some ds => rfl

/-- A number is taken as a whole where nothing follows with which it could go on. -/
theorem decimalNumeral_chars : decimalNumeral (p.chars ++ rest) = .number p.kind p.chars := by
  have hchars : p.chars ++ rest =
      p.whole ++ (p.point ++ (p.powerChars ++ (p.suffix.toList ++ rest))) := by
    simp only [chars, List.append_assoc]
  rw [hchars]
  simp only [decimalNumeral, takeWhile_whole hdigit hrest, List.drop_left,
    fraction_eq hdigit hrest, exponent_eq hdigit hrest, isScaled_eq,
    suffix_eq hrest, startsWith_suffix]
  have htaken : p.whole ++ p.point ++ p.powerChars ++ p.suffix.toList = p.chars := by
    simp only [chars, List.append_assoc]
  rw [htaken]
  cases rest with
  | nil => rfl
  | cons c cs =>
    have hc := stops_iff.1 (hrest c rfl)
    simp only [hc.2.2.1, hc.2.2.2.1, decide_false, Bool.or_false, Bool.false_eq_true, if_false]
    rfl

end Taken

end Parts

/-! ## The parts of what is taken -/

theorem isDigit_of_mem_takeWhile {cs : List Char} {c : Char}
    (h : c ∈ cs.takeWhile Text.isDigit) : Text.isDigit c = true :=
  List.all_eq_true.1 List.all_takeWhile c h

theorem takeWhile_ne_nil {cs : List Char} (h : startsDigit cs = true) :
    cs.takeWhile Text.isDigit ≠ [] := by
  obtain ⟨c, hc, hdigit⟩ := startsWith_iff.1 h
  obtain ⟨rest, rfl⟩ := List.head?_eq_some_iff.1 hc
  simp [hdigit]

/-- What is taken for an exponent is one. -/
theorem exists_power (cs : List Char)
    (hdigit : ∀ c ∈ exponent cs, Text.isDigit c = true → digit c = true) :
    ∃ e : Option (Power digit), exponent cs = e.elim [] Power.chars ∧
      (startsWith Text.isLetter cs = false → e = none) := by
  have hnone (h : exponent cs = []) : ∃ e : Option (Power digit),
      exponent cs = e.elim [] Power.chars ∧ (startsWith Text.isLetter cs = false → e = none) :=
    ⟨none, h, fun _ => rfl⟩
  cases cs with
  | nil => exact hnone rfl
  | cons m cs =>
    by_cases hm : m = 'e' ∨ m = 'E'
    · have hletter : startsWith Text.isLetter (m :: cs) = true := by
        rcases hm with rfl | rfl
        · rfl
        · rfl
      by_cases hstart : startsDigit cs = true
      · have htaken : exponent (m :: cs) = m :: cs.takeWhile Text.isDigit := by
          rw [exponent_cons hm, if_pos hstart]
        rw [htaken] at hdigit ⊢
        refine ⟨some ⟨m, none, cs.takeWhile Text.isDigit, hm, nofun, takeWhile_ne_nil hstart, ?_⟩,
          rfl, fun h => ?_⟩
        · exact fun c hc => hdigit c (List.mem_cons_of_mem _ hc) (isDigit_of_mem_takeWhile hc)
        · rw [hletter] at h
          cases h
      · cases cs with
        | nil => exact hnone (by rw [exponent_cons hm, if_neg hstart])
        | cons s ds =>
          by_cases hsign : ((decide (s = '+') || decide (s = '-')) && startsDigit ds) = true
          · have htaken : exponent (m :: s :: ds) = m :: s :: ds.takeWhile Text.isDigit := by
              rw [exponent_cons hm, if_neg hstart]
              exact if_pos hsign
            rw [Bool.and_eq_true] at hsign
            rw [htaken] at hdigit ⊢
            refine ⟨some ⟨m, some s, ds.takeWhile Text.isDigit, hm, ?_,
              takeWhile_ne_nil hsign.2, ?_⟩, rfl, fun h => ?_⟩
            · rintro _ ⟨⟩
              simpa using hsign.1
            · exact fun c hc => hdigit c (by simp [hc]) (isDigit_of_mem_takeWhile hc)
            · rw [hletter] at h
              cases h
          · refine hnone ?_
            rw [exponent_cons hm, if_neg hstart]
            exact if_neg hsign
    · refine hnone ?_
      unfold exponent
      exact if_neg (by simpa using hm)

/-- What is taken for a fraction is one. A point alone stands behind digits and before no
letter. -/
theorem exists_fraction (b : Bool) (cs : List Char)
    (hdigit : ∀ c ∈ fraction b cs, Text.isDigit c = true → digit c = true) :
    ∃ f : Option (List Char), fraction b cs = f.elim [] ('.' :: ·) ∧
      (∀ ds ∈ f, ∀ c ∈ ds, digit c = true) ∧
      (f = some [] → startsWith Text.isLetter (cs.drop (fraction b cs).length) = false) ∧
      (∀ rest, cs = '.' :: rest → startsDigit rest = true → ∃ ds ∈ f, ds ≠ []) := by
  by_cases hpoint : ∃ rest, cs = '.' :: rest
  · obtain ⟨rest, rfl⟩ := hpoint
    rw [fraction_point] at hdigit ⊢
    by_cases hstart : startsDigit rest = true
    · rw [if_pos hstart] at hdigit ⊢
      refine ⟨some (rest.takeWhile Text.isDigit), rfl, ?_, fun hnil => ?_, fun _ _ _ => ?_⟩
      · rintro _ ⟨⟩ c hc
        exact hdigit c (List.mem_cons_of_mem _ hc) (isDigit_of_mem_takeWhile hc)
      · exact absurd (Option.some.inj hnil) (takeWhile_ne_nil hstart)
      · exact ⟨_, rfl, takeWhile_ne_nil hstart⟩
    · have hno (f : Option (List Char)) : ∀ ds, '.' :: rest = '.' :: ds → startsDigit ds = true →
          ∃ ds ∈ f, ds ≠ [] := by
        rintro _ ⟨⟩ hdigits
        exact absurd hdigits hstart
      rw [if_neg hstart] at hdigit ⊢
      split
      · next hbare =>
        rw [Bool.and_eq_true, Bool.not_eq_true'] at hbare
        exact ⟨some [], rfl, by rintro _ ⟨⟩ c ⟨⟩, fun _ => hbare.2, hno _⟩
      · exact ⟨none, rfl, nofun, nofun, hno _⟩
  · refine ⟨none, ?_, nofun, nofun, fun rest heq => absurd ⟨rest, heq⟩ hpoint⟩
    unfold fraction
    split
    · next rest => exact absurd ⟨rest, rfl⟩ hpoint
    · rfl

/-- What is taken for a suffix is one letter at most. -/
theorem exists_suffix (q : Char → Bool) (cs : List Char) : ∃ s : Option Char,
    (cs.take 1).filter q = s.toList ∧ ∀ c ∈ s, q c = true ∧ c ∈ cs.head? := by
  cases cs with
  | nil => exact ⟨none, rfl, nofun⟩
  | cons c cs =>
    by_cases hc : q c = true
    · refine ⟨some c, by simp [hc], ?_⟩
      rintro _ ⟨⟩
      exact ⟨hc, rfl⟩
    · exact ⟨none, by simp [hc], nofun⟩

/-- The lexer takes a number in decimal. -/
theorem exists_parts {c : Char} {cs taken : List Char} {kind : TokenKind}
    (hstart : (Text.isDigit c || (c = '.' && startsDigit cs)) = true)
    (h : decimalNumeral (c :: cs) = .number kind taken)
    (hdigit : ∀ c ∈ taken, Text.isDigit c = true → digit c = true) :
    ∃ p : Parts digit, taken = p.chars ∧ kind = p.kind := by
  unfold decimalNumeral at h
  extract_lets whole behindWhole frac behindFraction power behindPower isFloat suffix knd tkn at h
  have hnumber : knd = kind ∧ tkn = taken := by
    split at h
    · split at h
      · cases h
      · exact Numeral.number.inj h
    · exact Numeral.number.inj h
  rw [← hnumber.1, ← hnumber.2]
  rw [← hnumber.2] at hdigit
  have hmem {d : Char} (hd : d ∈ whole ∨ d ∈ frac ∨ d ∈ power) : d ∈ tkn := by
    simp only [tkn, List.mem_append]
    tauto
  obtain ⟨f, hf, hfall, hfbare, hfne⟩ :=
    exists_fraction (!whole.isEmpty) behindWhole fun d hd => hdigit d (hmem (.inr (.inl hd)))
  obtain ⟨e, he, heletter⟩ := exists_power behindFraction fun d hd =>
    hdigit d (hmem (.inr (.inr hd)))
  obtain ⟨s, hs, hsall⟩ :=
    exists_suffix (fun c => isFloatSuffix c || (!isFloat && isLongSuffix c)) behindPower
  have hfrac : frac = f.elim [] ('.' :: ·) := hf
  have hpower : power = e.elim [] Power.chars := he
  have hsuffix : suffix = s.toList := hs
  have hscaled : isFloat = (f.isSome || e.isSome) := by
    simp only [isFloat, hfrac, hpower]
    cases f with
    | none =>
      cases e with
      | none => rfl
      | some e => rfl
    | some ds => rfl
  refine ⟨⟨whole, f, e, s, ?_, hfall, ?_, ?_, ?_⟩, ?_, ?_⟩
  · exact fun d hd => hdigit d (hmem (.inl hd)) (isDigit_of_mem_takeWhile hd)
  · intro d hd
    have hq := (hsall d hd).1
    rw [Bool.or_eq_true, Bool.and_eq_true, Bool.not_eq_true', hscaled] at hq
    rcases hq with hfloat | ⟨hnot, hlong⟩
    · exact .inl hfloat
    · rw [Bool.or_eq_false_iff] at hnot
      exact .inr ⟨hlong, Option.not_isSome_iff_eq_none.1 (by simp [hnot.1]),
        Option.not_isSome_iff_eq_none.1 (by simp [hnot.2])⟩
  · intro hwhole
    -- no digit stands in front, so a point with digits behind it does
    have hc : Text.isDigit c = false := by
      rw [Bool.eq_false_iff]
      intro hc
      simp [whole, hc] at hwhole
    rw [hc, Bool.false_or, Bool.and_eq_true, decide_eq_true_eq] at hstart
    refine hfne cs ?_ hstart.2
    simp only [behindWhole, hwhole, hstart.1]
    rfl
  · intro hnil
    have hletter := hfbare hnil
    obtain rfl := heletter hletter
    refine ⟨rfl, ?_⟩
    cases s with
    | none => rfl
    | some d =>
      obtain ⟨hq, hhead⟩ := hsall d rfl
      have hmark : isMark d = true := by
        rw [Bool.or_eq_true, Bool.and_eq_true] at hq
        rcases hq with hfloat | ⟨_, hlong⟩
        · simp [isMark, hfloat]
        · simp [isMark, hlong]
      have hbehind : behindPower = behindFraction := by
        simp only [behindPower, hpower]
        rfl
      rw [hbehind] at hhead
      have hnot := startsWith_false.1 hletter d hhead
      rw [(isMark_facts hmark).2.1] at hnot
      cases hnot
  · simp only [tkn, hfrac, hpower, hsuffix, Parts.chars, Parts.point, Parts.powerChars,
      List.append_assoc]
  · have hany : startsWith isFloatSuffix suffix = s.any isFloatSuffix := by
      rw [hsuffix, startsWith_suffix]
    simp only [knd, hscaled, hany]
    rfl

/-! ## Tokens -/

/-- What may stand in a number. -/
theorem Parts.mem_chars {p : Parts digit} {c : Char} (h : c ∈ p.chars) :
    digit c = true ∨ c = '.' ∨ c = '+' ∨ c = '-' ∨ isMark c = true := by
  simp only [chars, List.mem_append, Option.mem_toList] at h
  rcases h with hwhole | hpoint | hpower | hsuffix
  · exact .inl (p.whole_all c hwhole)
  · cases hfraction : p.fraction with
    | none => simp [point, hfraction] at hpoint
    | some ds =>
      rw [point, hfraction] at hpoint
      rcases List.mem_cons.1 hpoint with rfl | hds
      · exact .inr (.inl rfl)
      · exact .inl (p.fraction_all ds hfraction c hds)
  · cases hp : p.power with
    | none => simp [powerChars, hp] at hpower
    | some e =>
      rw [powerChars, hp] at hpower
      rcases List.mem_cons.1 hpower with rfl | hpower
      · exact .inr (.inr (.inr (.inr e.isMark_mark)))
      · rcases List.mem_append.1 hpower with hsign | hdigits
        · rcases e.sign_cases c (Option.mem_toList.1 hsign) with rfl | rfl
          · exact .inr (.inr (.inl rfl))
          · exact .inr (.inr (.inr (.inl rfl)))
        · exact .inl (e.digits_all c hdigits)
  · exact .inr (.inr (.inr (.inr (isMark_suffix hsuffix))))

/-- The first character of a number is a digit, or a point that a digit follows. -/
theorem Parts.starts (p : Parts digit) : ∃ c cs, p.chars = c :: cs ∧
    (digit c = true ∨ c = '.' ∧ ∃ d ∈ cs.head?, digit d = true) := by
  cases hwhole : p.whole with
  | cons c cs =>
    refine ⟨c, cs ++ (p.point ++ (p.powerChars ++ p.suffix.toList)), ?_, .inl ?_⟩
    · rw [chars, hwhole, List.cons_append]
    · exact p.whole_all c (by rw [hwhole]; exact List.mem_cons_self)
  | nil =>
    obtain ⟨ds, hfraction, hne⟩ := p.nonempty hwhole
    obtain ⟨d, ds, rfl⟩ := List.exists_cons_of_ne_nil hne
    refine ⟨'.', d :: (ds ++ (p.powerChars ++ p.suffix.toList)), ?_, .inr ⟨rfl, d, rfl, ?_⟩⟩
    · rw [chars, hwhole, point, hfraction]
      rfl
    · exact p.fraction_all _ hfraction d List.mem_cons_self

section Taken

variable {p : Parts digit} {rest : List Char}
  (hdigit : ∀ c, digit c = true → Text.isDigit c = true)
  (hrest : ∀ c ∈ rest.head?, stops c = true)
include hdigit hrest

/-- A number in decimal has no hexadecimal mark. -/
theorem numeral_chars : numeral (p.chars ++ rest) = .number p.kind p.chars := by
  have hx : ∀ c ∈ p.chars, c ≠ 'x' ∧ c ≠ 'X' := by
    intro c hc
    rcases p.mem_chars hc with hd | rfl | rfl | rfl | hmark
    · constructor
      · rintro rfl
        exact absurd (hdigit _ hd) (by decide)
      · rintro rfl
        exact absurd (hdigit _ hd) (by decide)
    · decide
    · decide
    · decide
    · exact (isMark_facts hmark).2.2.2
  unfold numeral
  split
  · next x cs heq =>
    have hnot : ¬(decide (x = 'x') || decide (x = 'X')) = true := by
      rw [Bool.or_eq_true, decide_eq_true_eq, decide_eq_true_eq]
      intro hmark
      obtain ⟨c, ds, hchars, _⟩ := p.starts
      rw [hchars, List.cons_append] at heq
      obtain ⟨rfl, hbehind⟩ := List.cons.inj heq
      cases ds with
      | nil =>
        have hnext := hrest x (by rw [show rest = x :: cs from hbehind]; rfl)
        rcases hmark with rfl | rfl
        · exact absurd hnext (by decide)
        · exact absurd hnext (by decide)
      | cons d ds =>
        obtain ⟨rfl, _⟩ := List.cons.inj hbehind
        have hd := hx d (by rw [hchars]; simp)
        rcases hmark with rfl | rfl
        · exact hd.1 rfl
        · exact hd.2 rfl
    rw [if_neg hnot, ← heq]
    exact Parts.decimalNumeral_chars hdigit hrest
  · exact Parts.decimalNumeral_chars hdigit hrest

/-- A number in decimal is the token at the front. -/
theorem front?_chars : front? (p.chars ++ rest) = some (p.kind, p.chars) := by
  have hnumeral := numeral_chars hdigit hrest (p := p)
  obtain ⟨c, cs, hchars, hstart⟩ := p.starts
  rw [hchars, List.cons_append] at hnumeral ⊢
  have hword : startsWord c = false := by
    rcases hstart with hc | ⟨rfl, _⟩
    · have hletter : Text.isLetter c = false := by
        rw [Bool.eq_false_iff]
        intro hletter
        have hnot := Text.isDigit_of_isLetter hletter
        rw [hdigit c hc] at hnot
        cases hnot
      have hother : c ≠ '_' ∧ c ≠ '$' := by
        constructor
        · rintro rfl
          exact absurd (hdigit _ hc) (by decide)
        · rintro rfl
          exact absurd (hdigit _ hc) (by decide)
      simp [startsWord, hletter, hother]
    · decide
  have hnumber : (Text.isDigit c || (decide (c = '.') && startsDigit (cs ++ rest))) = true := by
    rcases hstart with hc | ⟨rfl, d, hd, hdd⟩
    · rw [hdigit c hc, Bool.true_or]
    · obtain ⟨ds, rfl⟩ := List.head?_eq_some_iff.1 hd
      rw [Bool.or_eq_true, Bool.and_eq_true]
      exact .inr ⟨rfl, hdigit d hdd⟩
  rw [front?, if_neg (by rw [hword]; decide), if_pos hnumber, hnumeral]

omit hrest in
theorem numeral_alone : numeral p.chars = .number p.kind p.chars := by
  have hnumeral : numeral (p.chars ++ []) = .number p.kind p.chars := numeral_chars hdigit nofun
  rwa [List.append_nil] at hnumeral

omit hrest in
theorem front?_alone : front? p.chars = some (p.kind, p.chars) := by
  have hfront : front? (p.chars ++ []) = some (p.kind, p.chars) := front?_chars hdigit nofun
  rwa [List.append_nil] at hfront

end Taken

/-- A text that is a token of its own lexes into this token. -/
theorem tokenize_single {taken : List Char} {kind : TokenKind}
    (hstart : startsGap taken = false) (hfront : front? taken = some (kind, taken))
    (htaken : taken ≠ []) (hknown : kind ≠ .unknown) (hend : kind ≠ .endOfInput)
    (origin : Option String) : ∃ ts, tokenize (String.ofList taken) origin = .ok (ts, []) ∧
      ts.map Token.glyph = [⟨kind, String.ofList taken⟩, Lexer.endGlyph] := by
  have hscan : Scans ([] ++ (taken ++ [])) [⟨kind, String.ofList taken⟩] := by
    refine .token [] taken [] kind [] nofun ?_ ?_ htaken hknown hend (.blank [] nofun)
    · rw [List.append_nil]
      exact hstart
    · rw [List.append_nil]
      exact hfront
  have htokens := tokenize_of_scans hscan origin
  rwa [List.nil_append, List.append_nil] at htokens

end Lexeme

end MonkeyFormat
