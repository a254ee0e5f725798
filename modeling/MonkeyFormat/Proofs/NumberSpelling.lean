import MonkeyFormat.Proofs.AlikeSources
import MonkeyFormat.Proofs.NearestIntegers
import MonkeyFormat.Proofs.WholeSpelling
import MonkeyFormat.Tree.Comparison

set_option autoImplicit false

/-! # The spelling of a number keeps its kind

However a number is written, its spelling is one token again, of the kind that was written, and
spelled as it is. This holds of every number the lexer takes and that has a value, but for floats
whose value is infinite: written without a fraction they are spelled like whole numbers. -/

namespace MonkeyFormat

namespace Lexeme

/-! ## The numbers that are written -/

/-- The kind of a number is taken from no other text. -/
theorem exists_numeral {cs taken : List Char} {kind : TokenKind}
    (h : front? cs = some (kind, taken)) (hkind : kind = .number ∨ kind = .float) :
    ∃ c rest, (Text.isDigit c || (c = '.' && startsDigit rest)) = true ∧
      numeral (c :: rest) = .number kind taken := by
  have hreserved {s : String} (hs : TokenKind.ofText? s = some kind) : False := by
    have hall : ∀ r ∈ reserved, TokenKind.ofText? r ≠ some .number ∧
        TokenKind.ofText? r ≠ some .float := by decide +kernel
    have hne := hall s (mem_reserved_of_ofText? hs)
    rcases hkind with rfl | rfl
    · exact hne.1 hs
    · exact hne.2 hs
  cases cs with
  | nil => cases h
  | cons c rest =>
    rw [front?] at h
    split at h
    · exfalso
      cases htext : TokenKind.ofText? (String.ofList (word (c :: rest))) with
      | some k =>
        rw [htext] at h
        cases h
        exact hreserved htext
      | none =>
        rw [htext] at h
        cases h
        rcases hkind with hkind | hkind
        · cases hkind
        · cases hkind
    split at h
    · next hstart =>
      split at h
      · next hnumeral =>
        cases h
        exact ⟨c, rest, hstart, hnumeral⟩
      · cases h
    split at h
    · exfalso
      split at h
      · cases h
        revert hkind
        split
        · decide
        · decide
      · cases h
    · exfalso
      cases hsymbol : symbol? (c :: rest) with
      | some found =>
        rw [hsymbol] at h
        cases h
        exact hreserved (symbol?_eq_some hsymbol)
      | none =>
        rw [hsymbol] at h
        cases h
        rcases hkind with hkind | hkind
        · cases hkind
        · cases hkind

/-- What is taken for a hexadecimal number is one. -/
theorem exists_hex {mark cs taken : List Char} {kind : TokenKind}
    (h : hexNumeral mark cs = .number kind taken) : kind = .number ∧
      ∃ (ds : List Char) (s : Option Char), taken = mark ++ ds ++ s.toList ∧ ds ≠ [] ∧
        (∀ d ∈ ds, isHexDigit d = true) ∧ ∀ c ∈ s, isLongSuffix c = true := by
  unfold hexNumeral at h
  dsimp only at h
  split at h
  · cases h
  · next hne =>
    obtain ⟨s, hs, hlong⟩ :=
      exists_suffix isLongSuffix (cs.drop (cs.takeWhile isHexDigit).length)
    rw [hs] at h
    cases h
    refine ⟨rfl, cs.takeWhile isHexDigit, s, rfl, ?_, ?_, fun c hc => (hlong c hc).1⟩
    · rwa [List.isEmpty_iff] at hne
    · exact fun d hd => List.all_eq_true.1 List.all_takeWhile d hd

end Lexeme

namespace Literal

open Lexeme (Parts Power isLongSuffix isFloatSuffix isHexDigit)

/-- A number token with a value is written in decimal or in hexadecimal. -/
theorem written_cases {cs taken : List Char} {kind : TokenKind} {v : Value}
    (h : Lexeme.front? cs = some (kind, taken)) (hkind : kind = .number ∨ kind = .float)
    (hv : value kind (String.ofList taken) = .ok v) :
    (∃ p : Parts Text.isDecimal, taken = p.chars ∧ kind = p.kind) ∨
    (kind = .number ∧ ∃ (x : Char) (ds : List Char) (s : Option Char), (x = 'x' ∨ x = 'X') ∧
      taken = '0' :: x :: ds ++ s.toList ∧ ds ≠ [] ∧ (∀ d ∈ ds, isHexDigit d = true) ∧
      ∀ c ∈ s, isLongSuffix c = true) := by
  obtain ⟨c, rest, hstart, hnumeral⟩ := Lexeme.exists_numeral h hkind
  have hdecimal (h : Lexeme.decimalNumeral (c :: rest) = .number kind taken) :
      ∃ p : Parts Text.isDecimal, taken = p.chars ∧ kind = p.kind := by
    refine Lexeme.exists_parts hstart h fun d hd hdigit => ?_
    exact isDecimal_of_value hkind hv (by rwa [String.toList_ofList]) hdigit
  unfold Lexeme.numeral at hnumeral
  split at hnumeral
  · next x ds heq =>
    split at hnumeral
    · next hx =>
      rw [Bool.or_eq_true, decide_eq_true_eq, decide_eq_true_eq] at hx
      obtain ⟨hnumber, ds, s, htaken, hne, hall, hs⟩ := Lexeme.exists_hex hnumeral
      exact .inr ⟨hnumber, x, ds, s, hx, htaken, hne, hall, hs⟩
    · rw [← heq] at hnumeral
      exact .inl (hdecimal hnumeral)
  · exact .inl (hdecimal hnumeral)

/-! ## Spellings -/

/-- The text is one token of the kind, and is spelled as it is. -/
structure IsSpelling (kind : TokenKind) (s : String) : Prop where
  token : ∀ origin, ∃ ts, tokenize s origin = .ok (ts, []) ∧
    ts.map Token.glyph = [⟨kind, s⟩, Lexer.endGlyph]
  spelled : ∃ v, value kind s = .ok v ∧ spell s v (generic s) = .ok s

/-! ## Floats -/

/-- A number with the suffix of a float that is not of double precision. -/
def floated (p : Parts Text.isDecimal) (hp : p.fraction ≠ some []) : Parts Text.isDecimal :=
  { p with
    suffix := some 'f'
    suffix_cases := by
      rintro c ⟨⟩
      exact .inl rfl
    bare := fun h => absurd h hp }

theorem isWholeShaped_float {p : Parts Text.isDecimal} (h : p.kind = .float) :
    isWholeShaped (String.ofList p.chars) = false := by
  have hnumeral := Lexeme.numeral_alone (p := p) fun _ => Text.isDigit_of_isDecimal
  rw [h] at hnumeral
  exact Lexeme.numeral_float hnumeral

theorem isWholeShaped_number {p : Parts Text.isDecimal} (h : p.kind = .number) :
    isWholeShaped (String.ofList p.chars) = true := by
  obtain ⟨hfraction, _, hlong⟩ := unsuffixed_of_number h
  have hchars := chars_of_number h
  -- neither a minus nor a line break is a digit or a suffix
  have hother {c : Char} (hc : c ∈ p.chars) : c ≠ '-' ∧ c ≠ '\n' := by
    rw [hchars, List.mem_append] at hc
    rcases hc with hc | hc
    · have hdigit := p.whole_all c hc
      constructor
      · rintro rfl
        exact absurd hdigit (by decide)
      · rintro rfl
        exact absurd hdigit (by decide)
    · have hsuffix := hlong c (by simpa using hc)
      constructor
      · rintro rfl
        exact absurd hsuffix (by decide)
      · rintro rfl
        exact absurd hsuffix (by decide)
  have hrest : ∀ c ∈ p.suffix.toList.head?, Text.isDecimal c = false := by
    intro c hc
    rw [Bool.eq_false_iff]
    intro hdigit
    have hsuffix := hlong c (by simpa using List.mem_of_mem_head? hc)
    have hfacts := Lexeme.isMark_facts (isMark_of_isLongSuffix hsuffix)
    rw [Text.isDigit_of_isDecimal hdigit] at hfacts
    cases hfacts.1
  unfold isWholeShaped
  extract_lets cs unended body closed
  have hcs : cs = p.chars := String.toList_ofList
  have hunended : unended = p.chars := by
    simp only [unended, hcs]
    refine if_neg fun hlast => ?_
    have hmem := List.mem_of_getLast? (by simpa using hlast)
    exact (hother hmem).2 rfl
  have hbody : body = p.whole ++ p.suffix.toList := by
    rw [← hchars]
    simp only [body, hunended]
    refine if_neg fun hhead => ?_
    have hmem := List.mem_of_mem_head? (by simpa using hhead)
    exact (hother hmem).1 rfl
  have hclosed : closed Text.isDecimal body = true := by
    have hempty : p.whole.isEmpty = false := by simpa using Parts.whole_ne_nil hfraction
    simp only [closed, hbody, Lexeme.takeWhile_run p.whole_all hrest,
      Lexeme.dropWhile_run p.whole_all hrest, hempty]
    cases hs : p.suffix with
    | none => rfl
    | some c =>
      have hsuffix := hlong c hs
      simp [hsuffix]
  rw [hclosed, Bool.or_true]

/-- A float in normal form is spelled as it is. -/
theorem isSpelling_float {p : Parts Text.isDecimal} (hkind : p.kind = .float)
    (hnormal : p.IsNormal) : IsSpelling .float (String.ofList p.chars) where
  token := by
    have hfront := Lexeme.front?_alone (p := p) fun _ => Text.isDigit_of_isDecimal
    have hgap := startsGap_chars p []
    rw [hkind] at hfront
    rw [List.append_nil] at hgap
    refine Lexeme.tokenize_single hgap hfront ?_ (by decide) (by decide)
    obtain ⟨c, cs, hchars, _⟩ := p.starts
    rw [hchars]
    exact List.cons_ne_nil c cs
  spelled := by
    refine ⟨_, value_float hkind, ?_⟩
    have hnan : p.nearest.isNaN = false := Binary64.isNaN_ofDecimal _ _
    unfold spell
    dsimp only
    rw [generic_chars, hnormal.normal_eq, hnan, isWholeShaped_float hkind, Bool.and_false]
    rfl

/-- A float without a suffix is not of double precision. -/
theorem endsWith_double (p : Parts Text.isDecimal) :
    endsWith (fun c => c = 'd' || c = 'D') (String.ofList p.chars) =
      p.suffix.any fun c => c = 'd' || c = 'D' := by
  refine endsWith_chars (fun c hc => ?_) p
  rw [Bool.or_eq_true, decide_eq_true_eq, decide_eq_true_eq] at hc
  rcases hc with rfl | rfl
  · rfl
  · rfl

theorem endsWith_small (p : Parts Text.isDecimal) :
    endsWith (fun c => c = 'd') (String.ofList p.chars) = p.suffix.any fun c => c = 'd' := by
  refine endsWith_chars (fun c hc => ?_) p
  obtain rfl := of_decide_eq_true hc
  rfl

/-- The spelling of a float is a float, unless it is infinite and looks like a whole number. -/
theorem spell_float {p : Parts Text.isDecimal} (hkind : p.kind = .float)
    (hfinite : isWholeShaped (generic (String.ofList p.chars)) = true → p.nearest.isFinite = true) :
    ∃ s,
    spell (String.ofList p.chars) (.float p.nearest) (generic (String.ofList p.chars)) = .ok s ∧
      IsSpelling .float s ∧ endsWith (fun c => c = 'd') s =
        endsWith (fun c => c = 'd' || c = 'D') (String.ofList p.chars) := by
  have hnan : p.nearest.isNaN = false := Binary64.isNaN_ofDecimal _ _
  rcases p.normal.kind_cases with hnumber | hfloat
  · -- what looks like a whole number is one, and gets a suffix
    obtain ⟨hsuffix, hnearest⟩ := Parts.whole_of_normal hkind hnumber
    obtain ⟨hfraction, hpower, _⟩ := Parts.kind_eq_number.1 hnumber
    have hnormal := p.isNormal_normal
    have hinteger : p.nearest.isInteger = true := by
      rw [generic_chars, hnearest] at hfinite
      rw [hnearest]
      exact Binary64.isInteger_ofDecimal_whole (hfinite (isWholeShaped_number hnumber))
    have hpoint : p.normal.fraction ≠ some [] := by
      simp [hfraction]
    have hchars : (floated p.normal hpoint).chars = p.normal.chars ++ ['f'] := by
      have hnone : p.normal.suffix = none := by
        change p.suffix.map Char.toLower = none
        rw [hsuffix]
        rfl
      rw [Parts.chars_unsuffixed, p.normal.chars_unsuffixed, hnone, Option.toList_none,
        List.append_nil]
      rfl
    refine ⟨String.ofList (floated p.normal hpoint).chars, ?_, isSpelling_float ?_ ?_, ?_⟩
    · unfold spell
      dsimp only
      rw [generic_chars, hnan, hinteger, isWholeShaped_float hkind, isWholeShaped_number hnumber,
        endsWith_double, hsuffix, hchars, String.ofList_append]
      rfl
    · exact if_pos (Bool.or_true _)
    · exact {
        mark := hnormal.mark
        sign := hnormal.sign
        digits := hnormal.digits
        power := by
          intro hnone
          cases hnone
        suffix := by
          rintro c ⟨⟩
          rfl
        whole := hnormal.whole
        fraction := by
          intro ds hds
          rw [show p.normal.fraction = some ds from hds] at hfraction
          cases hfraction }
    · rw [endsWith_small, endsWith_double, hsuffix]
      rfl
  · refine ⟨String.ofList p.normal.chars, ?_, isSpelling_float hfloat p.isNormal_normal, ?_⟩
    · unfold spell
      dsimp only
      rw [generic_chars, hnan, isWholeShaped_float hfloat, Bool.and_false]
      rfl
    · rw [endsWith_small, endsWith_double]
      change (p.suffix.map Char.toLower).any _ = _
      cases hs : p.suffix with
      | none => rfl
      | some c =>
        have hmark := Parts.isMark_suffix hs
        simp only [Lexeme.isMark, isFloatSuffix, isLongSuffix, Bool.or_eq_true,
          decide_eq_true_eq] at hmark
        rcases hmark with ((rfl | rfl) | ((rfl | rfl) | rfl) | rfl) | (rfl | rfl) <;> rfl

/-! ## Whole numbers -/

theorem endsWith_mono {q r : Char → Bool} (hqr : ∀ c, q c = true → r c = true) {s : String}
    (h : endsWith r s = false) : endsWith q s = false := by
  unfold endsWith at h ⊢
  cases hlast : s.toList.getLast? with
  | none => rfl
  | some c =>
    rw [hlast] at h
    rw [Option.map_some, Option.getD_some, Bool.eq_false_iff]
    intro hq
    rw [Option.map_some, Option.getD_some, hqr c hq] at h
    cases h

/-- The spelling of a whole number is a whole number, with the suffix that it needs. -/
theorem spell_long {body : List Char} {n : Int} (hbody : WholeText body (.ok (.int n)))
    {raw : String} (suffix : Option Char)
    (hlower : Text.lower raw = String.ofList (body ++ (suffix.map Char.toLower).toList))
    (hlong : ∀ c ∈ suffix, isLongSuffix c = true)
    (hends : endsWith isLongSuffix raw = suffix.isSome) : ∃ s,
    spell raw (.int n) (generic raw) = .ok s ∧ IsSpelling .number s ∧
      endsWith (fun c => c = 'l') s = (endsWith isLongSuffix raw || isTooLong n) := by
  obtain ⟨s, hs, hsome, hspell⟩ := spell_whole hbody hlower hlong hends
  refine ⟨_, hspell, ⟨?_, .int n, hbody.value s hs, spell_spelled hbody hs ?_⟩, ?_⟩
  · refine Lexeme.tokenize_single (hbody.startsGap s.toList) (hbody.front s hs) ?_ (by decide)
      (by decide)
    intro hnil
    have hfront := hbody.front s hs
    rw [hnil] at hfront
    cases hfront
  · intro hneeded
    rw [hsome, hneeded, Bool.or_true]
  · rw [hends, ← hsome]
    have hend := endsWith_whole hbody hs
    cases s with
    | none =>
      refine endsWith_mono (fun c hc => ?_) hend
      obtain rfl := of_decide_eq_true hc
      rfl
    | some c =>
      obtain rfl : c = 'l' := by simpa [isLong] using hs
      rw [Option.toList_some, endsWith_concat]
      rfl

theorem spell_decimal {p : Parts Text.isDecimal} (hkind : p.kind = .number) {n : Int}
    (hv : value .number (String.ofList p.chars) = .ok (.int n)) : ∃ s,
    spell (String.ofList p.chars) (.int n) (generic (String.ofList p.chars)) = .ok s ∧
      IsSpelling .number s ∧ endsWith (fun c => c = 'l') s =
        (endsWith isLongSuffix (String.ofList p.chars) || isTooLong n) := by
  obtain ⟨hfraction, hpower, hlong⟩ := unsuffixed_of_number hkind
  rw [value_number hkind] at hv
  split at hv
  · next hlength =>
    cases hv
    refine spell_long (wholeText_decimal hkind hlength) p.suffix ?_ hlong ?_
    · rw [lower_chars]
      change String.ofList (p.whole ++ (p.point ++ (p.lowered.powerChars ++ _))) = _
      rw [Parts.point, hfraction, Parts.powerChars,
        show p.lowered.power = p.power.map Power.lowered from rfl, hpower]
      rfl
    · rw [endsWith_chars (fun _ => isMark_of_isLongSuffix) p]
      cases hs : p.suffix with
      | none => rfl
      | some c => exact hlong c hs
  · cases hv

theorem spell_hex {x : Char} {ds : List Char} {suffix : Option Char} (hx : x = 'x' ∨ x = 'X')
    (hne : ds ≠ []) (hall : ∀ d ∈ ds, isHexDigit d = true)
    (hlong : ∀ c ∈ suffix, isLongSuffix c = true) {raw : String}
    (hraw : raw = String.ofList ('0' :: x :: ds ++ suffix.toList)) {n : Int}
    (hv : value .number raw = .ok (.int n)) : ∃ s,
    spell raw (.int n) (generic raw) = .ok s ∧ IsSpelling .number s ∧
      endsWith (fun c => c = 'l') s = (endsWith isLongSuffix raw || isTooLong n) := by
  subst hraw
  rw [value_hex hall hx hne hlong] at hv
  cases hv
  have hbody : WholeText ('0' :: 'x' :: ds.map Char.toLower)
      (.ok (.int (Number.ofDigits 16 (ds.map hexValue)))) := by
    have hsome : ds.map Char.toLower ≠ [] := by simpa using hne
    have hlowered := wholeText_hex hsome
      (List.forall_mem_map.2 fun d hd => (hexDigit_facts (hall d hd)).2.1)
      (by simp [Function.comp_def])
    have hvalue : (ds.map Char.toLower).map hexValue = ds.map hexValue := by
      rw [List.map_map]
      exact List.map_congr_left fun d hd => (hexDigit_facts (hall d hd)).2.2.1
    rwa [hvalue] at hlowered
  refine spell_long hbody suffix (lower_hex hall hx hlong) hlong ?_
  cases suffix with
  | some c =>
    rw [Option.toList_some, endsWith_concat]
    exact hlong c rfl
  | none =>
    obtain ⟨cs, d, hconcat, hd⟩ := exists_last (x := x) hall hne
    rw [Option.toList_none, List.append_nil, hconcat, endsWith_concat]
    exact hd

/-! ## The numbers of a source -/

/-- The spelling of every number of a source is a token of the same kind and its own spelling,
unless it is an infinite float that looks like a whole number. A float keeps its precision, and a
whole number its suffix; and without one it gets one if it is too long. -/
theorem spell_token {source : String} {origin : Option String} {tokens : List Token}
    {comments : List Comment} (h : tokenize source origin = .ok (tokens, comments)) {t : Token}
    (ht : t ∈ tokens) (hkind : t.kind = .number ∨ t.kind = .float) {v : Value}
    (hv : value t.kind t.text = .ok v) (hfinite : ∀ x, v = .float x →
      isWholeShaped (generic t.text) = true → x.isFinite = true) :
    ∃ s, spell t.text v (generic t.text) = .ok s ∧ IsSpelling t.kind s ∧
      (t.kind = .float → endsWith (fun c => c = 'd') s =
        endsWith (fun c => c = 'd' || c = 'D') t.text) ∧
      (t.kind = .number → ∃ n, v = .int n ∧ endsWith (fun c => c = 'l') s =
        (endsWith isLongSuffix t.text || isTooLong n)) := by
  obtain ⟨cs, taken, hfront, htext⟩ : ∃ cs taken,
      Lexeme.front? cs = some (t.kind, taken) ∧ t.text = String.ofList taken := by
    refine (tokenize_front h t ht).resolve_left fun hend => ?_
    rw [hend] at hkind
    revert hkind
    decide
  rw [htext] at hv hfinite ⊢
  rcases written_cases hfront hkind hv with
    ⟨p, rfl, hp⟩ | ⟨hnumber, x, ds, suffix, hx, rfl, hne, hall, hlong⟩
  · rw [hp] at hv ⊢
    rcases p.kind_cases with hnumber | hfloat
    · rw [hnumber] at hv ⊢
      obtain ⟨n, rfl⟩ : ∃ n, v = .int n := by
        rw [value_number hnumber] at hv
        split at hv
        · cases hv
          exact ⟨_, rfl⟩
        · cases hv
      obtain ⟨s, hspell, hs, hends⟩ := spell_decimal hnumber hv
      exact ⟨s, hspell, hs, nofun, fun _ => ⟨n, rfl, hends⟩⟩
    · rw [hfloat] at hv ⊢
      rw [value_float hfloat] at hv
      cases hv
      obtain ⟨s, hspell, hs, hends⟩ := spell_float hfloat (hfinite _ rfl)
      exact ⟨s, hspell, hs, fun _ => hends, nofun⟩
  · rw [hnumber] at hv ⊢
    obtain ⟨n, rfl⟩ : ∃ n, v = .int n := by
      rw [value_hex hall hx hne hlong] at hv
      cases hv
      exact ⟨_, rfl⟩
    obtain ⟨s, hspell, hs, hends⟩ := spell_hex hx hne hall hlong rfl hv
    exact ⟨s, hspell, hs, nofun, fun _ => ⟨n, rfl, hends⟩⟩

-- Without its exponent the float would be a whole number.
example : spell "1e0" (.float ⟨0x3ff0000000000000⟩) (generic "1e0") = .ok "1f" := by decide +kernel

end Literal

end MonkeyFormat
