import MonkeyFormat.Proofs.AlikeTrees
import MonkeyFormat.Proofs.TokenPlaces

set_option autoImplicit false

/-! # Sources with the same tokens

No literal but a number is spelled like a whole number, so trees that are parsed are plain; and
sources with the same tokens give trees that are alike. -/

namespace MonkeyFormat

/-! ## What a whole number is spelled with -/

namespace Literal

/-- May the character stand in a whole number that is not hexadecimal? -/
def inWhole (c : Char) : Bool :=
  c = '\n' || c = '-' || Text.isDecimal c || Lexeme.isLongSuffix c

/-- May the character stand in a hexadecimal number? -/
def inHex (c : Char) : Bool := inWhole c || c = 'x' || c = 'X' || Lexeme.isHexDigit c

/-- The characters that make a number a float. -/
def floatMarks : List Char := ['.', 'e', 'E', 'f', 'F', 'd', 'D']

theorem inWhole_of_mem_floatMarks : ∀ c ∈ floatMarks, inWhole c = false := by
  have hall : floatMarks.all (fun d => decide (d.toNat < 128) &&
      !(d = '\n' || d = '-' || d.isDigit || Lexeme.isLongSuffix d)) = true := by decide
  intro c hc
  have h := List.all_eq_true.1 hall c hc
  rw [Bool.and_eq_true, decide_eq_true_eq, Bool.not_eq_true'] at h
  rw [inWhole, Text.isDecimal_of_ascii h.1]
  exact h.2

/-- The characters of a whole number: those of a hexadecimal one have its mark among them. -/
theorem mem_of_isWholeShaped {raw : String} (h : isWholeShaped raw = true) :
    (('x' ∈ raw.toList ∨ 'X' ∈ raw.toList) ∧ ∀ c ∈ raw.toList, inHex c = true) ∨
      ∀ c ∈ raw.toList, inWhole c = true := by
  obtain ⟨w, hw⟩ := exists_whole h
  rw [hw]
  -- what is neither the mark nor a digit
  have hsides {c : Char} (hc : c ∈ w.chars) (hmark : c ∉ w.mark) (hdigits : c ∉ w.digits) :
      inWhole c = true := by
    simp only [Whole.chars, Whole.front, List.mem_append] at hc
    rcases hc with (((hc | hc) | hc) | hc) | hc
    · rcases w.sign_cases with hsign | hsign
      · simp [hsign] at hc
      · simp [inWhole, List.mem_singleton.1 (hsign ▸ hc)]
    · exact absurd hc hmark
    · exact absurd hc hdigits
    · rcases w.suffix_cases with hsuffix | ⟨d, hd, hsuffix⟩
      · simp [hsuffix] at hc
      · simp [inWhole, List.mem_singleton.1 (hsuffix ▸ hc), hd]
    · rcases w.ended_cases with hended | hended
      · simp [hended] at hc
      · simp [inWhole, List.mem_singleton.1 (hended ▸ hc)]
  rcases w.base_cases with ⟨hmark, hall⟩ | ⟨x, hx, hmark, hall⟩
  · right
    intro c hc
    by_cases hdigits : c ∈ w.digits
    · simp [inWhole, hall c hdigits]
    · exact hsides hc (by simp [hmark]) hdigits
  · left
    have hmem : x ∈ w.chars := by simp [Whole.chars, Whole.front, hmark]
    refine ⟨?_, fun c hc => ?_⟩
    · rcases hx with rfl | rfl
      · exact .inl hmem
      · exact .inr hmem
    · by_cases hdigits : c ∈ w.digits
      · simp [inHex, hall c hdigits]
      by_cases hcmark : c ∈ w.mark
      · rw [hmark, List.mem_cons, List.mem_singleton] at hcmark
        rcases hcmark with rfl | rfl
        · decide
        · rcases hx with rfl | rfl
          · decide
          · decide
      · simp [inHex, hsides hc hcmark hdigits]

/-- A text with a character that no whole number has. -/
theorem isWholeShaped_of_mem {raw : String} {c : Char} (hc : c ∈ raw.toList)
    (hhex : inHex c = false) : isWholeShaped raw = false := by
  rw [Bool.eq_false_iff]
  intro h
  rcases mem_of_isWholeShaped h with ⟨_, h⟩ | h
  · have := h c hc
    rw [hhex] at this
    cases this
  · have := h c hc
    unfold inHex at hhex
    rw [this] at hhex
    simp at hhex

/-- A text without a hexadecimal mark, and with a character that no other whole number has. -/
theorem isWholeShaped_of_unmarked {raw : String} {c : Char} (hc : c ∈ raw.toList)
    (hwhole : inWhole c = false) (hx : 'x' ∉ raw.toList) (hX : 'X' ∉ raw.toList) :
    isWholeShaped raw = false := by
  rw [Bool.eq_false_iff]
  intro h
  rcases mem_of_isWholeShaped h with ⟨hmark | hmark, _⟩ | h
  · exact hx hmark
  · exact hX hmark
  · have := h c hc
    rw [hwhole] at this
    cases this

end Literal

/-! ## The texts of floats -/

namespace Lexeme

open Literal (floatMarks)

/-- A fraction is a point and some digits. -/
theorem fraction_cases (b : Bool) (cs : List Char) :
    fraction b cs = [] ∨
      ∃ ds, fraction b cs = '.' :: ds ∧ ∀ d ∈ ds, Text.isDigit d = true := by
  unfold fraction
  split
  · split
    · exact .inr ⟨_, rfl, List.all_eq_true.1 List.all_takeWhile⟩
    · split
      · exact .inr ⟨[], rfl, nofun⟩
      · exact .inl rfl
  · exact .inl rfl

/-- Is `c` a sign or a digit? -/
def inPower (c : Char) : Prop := c = '+' ∨ c = '-' ∨ Text.isDigit c = true

/-- An exponent is its mark, a sign perhaps, and some digits. -/
theorem exponent_cases (cs : List Char) :
    exponent cs = [] ∨
      ∃ e ds, (e = 'e' ∨ e = 'E') ∧ exponent cs = e :: ds ∧ ∀ d ∈ ds, inPower d := by
  have hdigits (ds : List Char) : ∀ d ∈ ds.takeWhile Text.isDigit, inPower d := fun d hd =>
    .inr (.inr (List.all_eq_true.1 List.all_takeWhile d hd))
  unfold exponent
  split
  · next e ds =>
    split
    · next he =>
      simp only [Bool.or_eq_true, decide_eq_true_eq] at he
      split
      · exact .inr ⟨e, _, he, rfl, hdigits _⟩
      split
      · next _ sign es _ =>
        split
        · next hsign =>
          simp only [Bool.and_eq_true, Bool.or_eq_true, decide_eq_true_eq] at hsign
          refine .inr ⟨e, _, he, rfl, fun d hd => ?_⟩
          rcases List.mem_cons.1 hd with rfl | hd
          · rcases hsign.1 with rfl | rfl
            · exact .inl rfl
            · exact .inr (.inl rfl)
          · exact hdigits es d hd
        · exact .inl rfl
      · exact .inl rfl
    · exact .inl rfl
  · exact .inl rfl

theorem not_isHexMark_of_isDigit {c : Char} (h : Text.isDigit c = true) : c ≠ 'x' ∧ c ≠ 'X' := by
  constructor
  · rintro rfl
    exact absurd h (by decide +kernel)
  · rintro rfl
    exact absurd h (by decide +kernel)

/-- A float has a point, an exponent or a suffix. -/
theorem exists_floatMark {b : Bool} {cs ds suffix : List Char}
    (h : (!(fraction b cs).isEmpty || !(exponent ds).isEmpty ||
      startsWith isFloatSuffix suffix) = true) :
    ∃ c ∈ floatMarks, c ∈ fraction b cs ++ exponent ds ++ suffix := by
  simp only [List.mem_append]
  rcases fraction_cases b cs with hfrac | ⟨_, hfrac, _⟩
  · rcases exponent_cases ds with hpower | ⟨e, _, he, hpower, _⟩
    · rw [hfrac, hpower] at h
      cases suffix with
      | nil => cases h
      | cons c es =>
        have hc : isFloatSuffix c = true := h
        refine ⟨c, ?_, .inr List.mem_cons_self⟩
        simp only [isFloatSuffix, Bool.or_eq_true, decide_eq_true_eq] at hc
        rcases hc with ((rfl | rfl) | rfl) | rfl <;> decide
    · refine ⟨e, ?_, .inl (.inr ?_)⟩
      · rcases he with rfl | rfl <;> decide
      · rw [hpower]
        exact List.mem_cons_self
  · refine ⟨'.', by decide, .inl (.inl ?_)⟩
    rw [hfrac]
    exact List.mem_cons_self

/-- What a decimal number is spelled with is no hexadecimal mark. -/
theorem not_isHexMark_of_mem {b long : Bool} {whole cs ds es : List Char} {c : Char}
    (hwhole : ∀ d ∈ whole, Text.isDigit d = true)
    (h : c ∈ whole ++ fraction b cs ++ exponent ds ++
      es.filter fun c => isFloatSuffix c || (long && isLongSuffix c)) : c ≠ 'x' ∧ c ≠ 'X' := by
  simp only [List.mem_append] at h
  rcases h with ((h | h) | h) | h
  · exact not_isHexMark_of_isDigit (hwhole c h)
  · rcases fraction_cases b cs with hfrac | ⟨ps, hfrac, hdigits⟩
    · rw [hfrac] at h
      cases h
    · rw [hfrac] at h
      rcases List.mem_cons.1 h with rfl | h
      · decide
      · exact not_isHexMark_of_isDigit (hdigits c h)
  · rcases exponent_cases ds with hpower | ⟨e, ps, he, hpower, hps⟩
    · rw [hpower] at h
      cases h
    · rw [hpower] at h
      rcases List.mem_cons.1 h with rfl | h
      · rcases he with rfl | rfl <;> decide
      · rcases hps c h with rfl | rfl | hdigit
        · decide
        · decide
        · exact not_isHexMark_of_isDigit hdigit
  · constructor
    · rintro rfl
      cases long <;> exact absurd (List.mem_filter.1 h).2 (by decide)
    · rintro rfl
      cases long <;> exact absurd (List.mem_filter.1 h).2 (by decide)

/-- A float is not spelled like a whole number. -/
theorem decimalNumeral_float {cs taken : List Char}
    (h : decimalNumeral cs = .number .float taken) :
    Literal.isWholeShaped (String.ofList taken) = false := by
  simp only [decimalNumeral] at h
  generalize hfrac : fraction _ _ = frac at h
  generalize hpower : exponent _ = power at h
  generalize hsuffix : List.filter _ _ = suffix at h
  have hkind : (!frac.isEmpty || !power.isEmpty || startsWith isFloatSuffix suffix) = true ∧
      taken = cs.takeWhile Text.isDigit ++ frac ++ power ++ suffix := by
    have hnumber {kind : TokenKind} {t : List Char} {c : Prop} [Decidable c]
        (heq : Numeral.number (if c then .float else kind) t = .number .float taken)
        (hkind : kind ≠ .float) : c ∧ taken = t := by
      injection heq with heq htaken
      refine ⟨?_, htaken.symm⟩
      by_contra hnot
      rw [if_neg hnot] at heq
      exact hkind heq
    split at h
    · split at h
      · cases h
      · exact hnumber h (by decide)
    · exact hnumber h (by decide)
  obtain ⟨hkind, rfl⟩ := hkind
  rw [← hfrac, ← hpower] at hkind
  obtain ⟨c, hc, hmem⟩ := exists_floatMark hkind
  have hmarks {d : Char} (hd : d ∈ cs.takeWhile Text.isDigit ++ frac ++ power ++ suffix) :
      d ≠ 'x' ∧ d ≠ 'X' := by
    revert hd
    rw [← hfrac, ← hpower, ← hsuffix]
    exact not_isHexMark_of_mem (List.all_eq_true.1 List.all_takeWhile)
  refine Literal.isWholeShaped_of_unmarked (c := c) ?_ ?_ ?_ ?_
  · rw [String.toList_ofList, ← hfrac, ← hpower]
    simp only [List.mem_append] at hmem ⊢
    rcases hmem with (hmem | hmem) | hmem
    · exact .inl (.inl (.inr hmem))
    · exact .inl (.inr hmem)
    · exact .inr hmem
  · exact Literal.inWhole_of_mem_floatMarks c hc
  · rw [String.toList_ofList]
    exact fun hx => (hmarks hx).1 rfl
  · rw [String.toList_ofList]
    exact fun hX => (hmarks hX).2 rfl

theorem numeral_float {cs taken : List Char} (h : numeral cs = .number .float taken) :
    Literal.isWholeShaped (String.ofList taken) = false := by
  unfold numeral at h
  split at h
  · split at h
    · cases (hexNumeral_eq h).1
    · exact decimalNumeral_float h
  · exact decimalNumeral_float h

/-! ## The texts of tokens -/

theorem sound_of_reserved {s : String} {kind : TokenKind} (h : TokenKind.ofText? s = some kind) :
    Glyph.Sound ⟨kind, s⟩ := by
  have hall : ∀ r ∈ reserved, ∀ k ∈ [TokenKind.float, .string, .char, .literal],
      TokenKind.ofText? r = some k → Literal.isWholeShaped r = false := by decide +kernel
  exact fun hkind => hall s (mem_reserved_of_ofText? h) kind hkind h

theorem sound_of_front {cs taken : List Char} {kind : TokenKind}
    (h : front? cs = some (kind, taken)) : Glyph.Sound ⟨kind, String.ofList taken⟩ := by
  cases cs with
  | nil => cases h
  | cons c cs =>
    simp only [front?] at h
    split at h
    · cases h
      cases htext : TokenKind.ofText? (String.ofList (word (c :: cs))) with
      | none => exact fun hkind => absurd hkind (show TokenKind.ident ∉ _ by decide)
      | some k => exact sound_of_reserved htext
    split at h
    · next hdigit =>
      split at h
      · next k t hnumeral =>
        cases h
        rcases (numeral_eq hdigit hnumeral).1 with rfl | rfl
        · exact fun hkind => absurd hkind (show TokenKind.number ∉ _ by decide)
        · exact fun _ => numeral_float hnumeral
      · cases h
    split at h
    · next hquote =>
      split at h
      · cases h
        have hhex : Literal.inHex c = false := by
          simp only [Bool.or_eq_true, decide_eq_true_eq] at hquote
          rcases hquote with rfl | rfl <;> decide
        refine fun _ => Literal.isWholeShaped_of_mem (c := c) ?_ hhex
        rw [String.toList_ofList]
        exact List.mem_cons_self
      · cases h
    · cases hsymbol : symbol? (c :: cs) with
      | some kt =>
        rw [hsymbol] at h
        cases h
        exact sound_of_reserved (symbol?_eq_some hsymbol)
      | none =>
        rw [hsymbol] at h
        cases h
        exact fun hkind => absurd hkind (show TokenKind.unknown ∉ _ by decide)

end Lexeme

theorem tokenize_sound {source : String} {origin : Option String} {tokens : List Token}
    {comments : List Comment} (h : tokenize source origin = .ok (tokens, comments)) :
    ∀ t ∈ tokens, t.glyph.Sound := by
  intro t ht
  rcases tokenize_front h t ht with hend | ⟨cs, taken, hfront, htext⟩
  · intro hkind
    rw [show t.glyph.kind = .endOfInput from hend] at hkind
    exact absurd hkind (by decide)
  · rw [Token.glyph, htext]
    exact Lexeme.sound_of_front hfront

/-! ## The trees of sources -/

section

variable {source source' : String} {o : Options} {root root' : Node}
  {comments comments' : List Comment}

/-- Sources with the same tokens give trees that are alike. -/
theorem parse_like {tokens tokens' : List Token}
    (htokens : tokenize source o.origin = .ok (tokens, comments))
    (htokens' : tokenize source' o.origin = .ok (tokens', comments'))
    (hsame : tokens.map Token.glyph = tokens'.map Token.glyph)
    (h : parse source o = .ok (root, comments)) (h' : parse source' o = .ok (root', comments')) :
    root.Like root' := by
  obtain ⟨ts, q, hts, hrun⟩ := parse_eq_ok h
  obtain ⟨ts', q', hts', hrun'⟩ := parse_eq_ok h'
  rw [htokens] at hts
  rw [htokens'] at hts'
  cases hts
  cases hts'
  have hlike : (Parser.start tokens source o.origin).Like
      (Parser.start tokens' source' o.origin) := by
    have hglyphs : List.Forall₂ (fun t t' : Token => t.glyph = t'.glyph) tokens tokens' := by
      have heq : List.Forall₂ Eq (tokens.map Token.glyph) (tokens'.map Token.glyph) := by
        rw [hsame]
        exact List.forall₂_refl _
      exact List.forall₂_map_left_iff.1 (List.forall₂_map_right_iff.1 heq)
    have hboth := (List.forall₂_and_left _ _).2 ⟨tokenize_sound htokens, hglyphs⟩
    exact hboth.imp fun _ _ ht => ⟨ht.2, ht.1⟩
  rcases Parse.matches_startRule o _ _ hlike _ _ _ _ hrun hrun' with ⟨_, hroot⟩ | h | h
  · exact hroot
  · exact h.elim
  · exact h.elim

/-- A parsed tree is plain. -/
theorem parse_plain (h : parse source o = .ok (root, comments)) : root.Plain := by
  obtain ⟨tokens, _, htokens, _⟩ := parse_eq_ok h
  exact (parse_like htokens htokens rfl h h).plain

end

end MonkeyFormat
