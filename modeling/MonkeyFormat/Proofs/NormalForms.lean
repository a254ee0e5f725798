import MonkeyFormat.Proofs.GenericSpelling

set_option autoImplicit false

/-! # Numbers in normal form

Spelled generically a number is in a normal form, in which nothing is left to change. Its kind is
the one it had, but for floats that are scaled by nothing but zeros: these are spelled like whole
numbers. -/

namespace MonkeyFormat

namespace Lexeme

/-! ## Normal forms -/

theorem significant_significant (ds : List Char) :
    significant (significant ds) = significant ds := by
  unfold significant
  by_cases h : (ds.dropWhile (· = '0')).isEmpty = true
  · rw [if_pos h]
    rfl
  · rw [if_neg h, List.dropWhile_idempotent, if_neg h]

theorem shorten_shorten (ds : List Char) : shorten (shorten ds) = shorten ds := by
  unfold shorten
  by_cases h : (ds.reverse.dropWhile (· = '0')).reverse.isEmpty = true
  · rw [if_pos h]
    cases ds with
    | nil => rfl
    | cons d ds =>
      by_cases hd : d = '0'
      · simp [hd]
      · simp [hd]
  · rw [if_neg h, List.reverse_reverse, List.dropWhile_idempotent, if_neg h]

/-- None of the steps changes the number. -/
structure Parts.IsNormal (p : Parts Text.isDecimal) : Prop where
  mark : ∀ e ∈ p.power, e.mark = 'e'
  sign : ∀ e ∈ p.power, e.sign ≠ some '+'
  digits : ∀ e ∈ p.power, significant e.digits = e.digits
  power : p.suffix = none → ∀ e ∈ p.power, e.isZero = false
  suffix : ∀ c ∈ p.suffix, c.toLower = c
  whole : p.whole ≠ []
  fraction : ∀ ds ∈ p.fraction, ds ≠ [] ∧
    ((p.power.isSome || p.suffix.isNone) = true → shorten ds = ds)

namespace Parts

variable {p : Parts Text.isDecimal}

theorem IsNormal.normal_eq (h : p.IsNormal) : p.normal = p := by
  have hlowered : p.lowered = p := by
    have hpower : p.power.map Power.lowered = p.power := by
      cases hp : p.power with
      | none => rfl
      | some e =>
        have hmark := h.mark e hp
        exact congrArg some (Power.ext hmark.symm rfl rfl)
    have hsuffix : p.suffix.map Char.toLower = p.suffix := by
      cases hs : p.suffix with
      | none => rfl
      | some c => exact congrArg some (h.suffix c hs)
    exact Parts.ext rfl rfl hpower hsuffix
  have htidied : p.tidied = p := by
    have hpower : p.power.map Power.tidied = p.power := by
      cases hp : p.power with
      | none => rfl
      | some e =>
        refine congrArg some (Power.ext rfl ?_ (h.digits e hp))
        change (if e.sign = some '-' then some '-' else none) = e.sign
        cases hs : e.sign with
        | none => rfl
        | some s =>
          rcases e.sign_cases s hs with rfl | rfl
          · exact absurd hs (h.sign e hp)
          · rfl
    exact Parts.ext rfl rfl hpower rfl
  have hunpowered : p.unpowered = p := by
    refine Parts.ext rfl rfl (if_neg ?_) rfl
    rw [Bool.and_eq_true, Option.any_eq_true, Option.isNone_iff_eq_none]
    rintro ⟨⟨e, he, hzero⟩, hsuffix⟩
    rw [h.power hsuffix e he] at hzero
    cases hzero
  have hled : p.led = p := by
    refine Parts.ext (if_neg ?_) rfl rfl rfl
    rw [List.isEmpty_iff]
    exact h.whole
  have hshortened : p.shortened = p := by
    refine Parts.ext rfl ?_ rfl rfl
    change (if p.power.isSome || p.suffix.isNone then p.fraction.map shorten else p.fraction) = _
    split
    · next hend =>
      cases hf : p.fraction with
      | none => rfl
      | some ds => exact congrArg some ((h.fraction ds hf).2 hend)
    · rfl
  have hunpointed : p.unpointed = p := by
    refine Parts.ext rfl (if_neg ?_) rfl rfl
    intro hnil
    exact (h.fraction [] hnil).1 rfl
  rw [normal, hlowered, htidied, hunpowered, hled, hshortened, hunpointed]

theorem isZero_tidied (e : Power Text.isDecimal) : e.tidied.isZero = e.isZero := by
  have hdigits : e.tidied.digits = significant e.digits := rfl
  rw [Literal.isZero_eq, Literal.isZero_eq, hdigits, significant]
  by_cases h : (e.digits.dropWhile (· = '0')).isEmpty = true
  · rw [if_pos h, h]
    rfl
  · rw [if_neg h, List.dropWhile_idempotent]

/-- An exponent in normal form is a tidy one, and is not zero unless a suffix follows. -/
theorem exists_of_mem_normal {e : Power Text.isDecimal} (h : e ∈ p.normal.power) :
    ∃ f ∈ p.power, e = f.lowered.tidied ∧ (p.suffix = none → e.isZero = false) := by
  change e ∈ (if ((p.power.map Power.lowered).map Power.tidied).any Power.isZero &&
    (p.suffix.map Char.toLower).isNone then none
    else (p.power.map Power.lowered).map Power.tidied) at h
  split at h
  · cases h
  · next hkept =>
    obtain ⟨f, hf, rfl⟩ := Option.map_eq_some_iff.1 h
    obtain ⟨g, hg, rfl⟩ := Option.map_eq_some_iff.1 hf
    refine ⟨g, hg, rfl, fun hsuffix => ?_⟩
    rw [Bool.eq_false_iff]
    intro hzero
    apply hkept
    rw [hsuffix, show p.power = some g from hg]
    simpa using hzero

theorem normal_fraction {fraction : Option (List Char)}
    (h : (if p.normal.power.isSome || p.normal.suffix.isNone then p.fraction.map shorten
      else p.fraction) = fraction) :
    p.normal.fraction = if fraction = some [] then none else fraction := by
  rw [← h]
  rfl

/-- A fraction in normal form has a digit, and no zeros to spare unless a suffix follows. -/
theorem exists_of_mem_normal_fraction {ds : List Char} (h : ds ∈ p.normal.fraction) :
    ds ≠ [] ∧ ∃ es ∈ p.fraction,
      ds = if p.normal.power.isSome || p.normal.suffix.isNone then shorten es else es := by
  obtain ⟨fraction, hfraction⟩ : ∃ fraction, (if p.normal.power.isSome || p.normal.suffix.isNone
      then p.fraction.map shorten else p.fraction) = fraction := ⟨_, rfl⟩
  rw [normal_fraction hfraction] at h
  split at h
  · cases h
  · next hne =>
    refine ⟨?_, ?_⟩
    · rintro rfl
      exact hne h
    · rw [← hfraction] at h
      by_cases hend : (p.normal.power.isSome || p.normal.suffix.isNone) = true
      · rw [if_pos hend] at h
        obtain ⟨es, hes, rfl⟩ := Option.map_eq_some_iff.1 h
        exact ⟨es, hes, (if_pos hend).symm⟩
      · rw [if_neg hend] at h
        exact ⟨ds, h, (if_neg hend).symm⟩

theorem isNormal_normal (p : Parts Text.isDecimal) : p.normal.IsNormal where
  mark := by
    intro e he
    obtain ⟨f, _, rfl, _⟩ := exists_of_mem_normal he
    rfl
  sign := by
    intro e he
    obtain ⟨f, _, rfl, _⟩ := exists_of_mem_normal he
    change (if f.sign = some '-' then some '-' else none) ≠ some '+'
    split
    · decide
    · decide
  digits := by
    intro e he
    obtain ⟨f, _, rfl, _⟩ := exists_of_mem_normal he
    exact significant_significant f.digits
  power := by
    intro hsuffix e he
    obtain ⟨f, _, _, hzero⟩ := exists_of_mem_normal he
    exact hzero (Option.map_eq_none_iff.1 hsuffix)
  suffix := by
    intro c hc
    obtain ⟨d, hd, rfl⟩ := Option.map_eq_some_iff.1 hc
    exact d.toLower_toLower_eq_toLower
  whole := by
    change (if p.whole.isEmpty then ['0'] else p.whole) ≠ []
    split
    · simp
    · next h => rwa [List.isEmpty_iff] at h
  fraction := by
    intro ds hds
    obtain ⟨hne, es, _, rfl⟩ := exists_of_mem_normal_fraction hds
    refine ⟨hne, fun hend => ?_⟩
    rw [if_pos hend]
    exact shorten_shorten es

/-- The generic spelling of a generic spelling is the same. -/
theorem normal_normal (p : Parts Text.isDecimal) : p.normal.normal = p.normal :=
  (isNormal_normal p).normal_eq

/-! ## The kind of a spelling -/

theorem kind_eq_number : p.kind = .number ↔
    p.fraction = none ∧ p.power = none ∧ ∀ c ∈ p.suffix, isFloatSuffix c = false := by
  constructor
  · intro h
    obtain ⟨hfraction, hpower, hsuffix⟩ := Literal.unsuffixed_of_number h
    refine ⟨hfraction, hpower, fun c hc => ?_⟩
    have hlong := hsuffix c hc
    simp only [isLongSuffix, Bool.or_eq_true, decide_eq_true_eq] at hlong
    rcases hlong with rfl | rfl
    · decide
    · decide
  · rintro ⟨hfraction, hpower, hsuffix⟩
    have hnot : ¬(p.isScaled || p.suffix.any isFloatSuffix) = true := by
      rw [isScaled, hfraction, hpower]
      intro hany
      obtain ⟨c, hc, hfloat⟩ := (Option.any_eq_true _ _).1 hany
      rw [hsuffix c hc] at hfloat
      cases hfloat
    exact if_neg hnot

theorem kind_cases (p : Parts Text.isDecimal) : p.kind = .number ∨ p.kind = .float := by
  unfold kind
  split
  · exact .inr rfl
  · exact .inl rfl

/-- Spelled generically a whole number is in lowercase. -/
theorem normal_of_number (h : p.kind = .number) : p.normal = p.lowered := by
  obtain ⟨hfraction, hpower, _⟩ := kind_eq_number.1 h
  have hnormalPower : p.normal.power = p.lowered.power := by
    have hnone : p.lowered.power = none := by
      change p.power.map Power.lowered = none
      rw [hpower]
      rfl
    rw [hnone, Option.eq_none_iff_forall_not_mem]
    intro e he
    obtain ⟨f, hf, _⟩ := exists_of_mem_normal he
    rw [hpower] at hf
    cases hf
  have hnormalFraction : p.normal.fraction = p.lowered.fraction := by
    rw [show p.lowered.fraction = none from hfraction, Option.eq_none_iff_forall_not_mem]
    intro ds hds
    obtain ⟨_, es, hes, _⟩ := exists_of_mem_normal_fraction hds
    rw [hfraction] at hes
    cases hes
  refine Parts.ext (if_neg ?_) hnormalFraction hnormalPower rfl
  rw [List.isEmpty_iff]
  exact whole_ne_nil hfraction

theorem decimalNat_zeros {ds : List Char} (h : ds.all (· = '0') = true) :
    Number.decimalNat ds = 0 := by
  have hzero : Text.digitOf '0' = 0 := by decide
  have hfold (ds : List Char) (hds : ds.all (· = '0') = true) :
      (ds.map Text.digitOf).foldl (fun n d => n * 10 + d) 0 = 0 := by
    induction ds with
    | nil => rfl
    | cons d ds ih =>
      rw [List.all_cons, Bool.and_eq_true, decide_eq_true_eq] at hds
      rw [List.map_cons, List.foldl_cons, hds.1, hzero]
      exact ih hds.2
  exact hfold ds h

/-- A float that is spelled generically like a whole number has no suffix, and no places or powers
of ten other than zeros. -/
theorem whole_of_normal (hkind : p.kind = .float) (h : p.normal.kind = .number) :
    p.suffix = none ∧ p.nearest = Binary64.ofDecimal false p.significand 0 := by
  obtain ⟨hfraction, hpower, hlong⟩ := kind_eq_number.1 h
  have hsuffix : p.suffix = none := by
    cases hs : p.suffix with
    | none => rfl
    | some c =>
      exfalso
      have hlower : c.toLower ∈ p.normal.suffix := by
        change c.toLower ∈ p.suffix.map Char.toLower
        rw [hs]
        rfl
      rcases p.suffix_cases c hs with hfloat | ⟨hlongSuffix, hf, hp⟩
      · have hnot := hlong _ hlower
        rw [isFloatSuffix_toLower hfloat] at hnot
        cases hnot
      · have hnumber : p.kind = .number := by
          refine kind_eq_number.2 ⟨hf, hp, fun d hd => ?_⟩
          rw [hs] at hd
          cases hd
          simp only [isLongSuffix, Bool.or_eq_true, decide_eq_true_eq] at hlongSuffix
          rcases hlongSuffix with rfl | rfl
          · decide
          · decide
        rw [hnumber] at hkind
        cases hkind
  have hscale : p.power.elim 0 Power.value = 0 := by
    cases hp : p.power with
    | none => rfl
    | some e =>
      have hzero : e.isZero = true := by
        by_contra hnot
        have hkept : p.normal.power = some e.lowered.tidied := by
          change (if ((p.power.map Power.lowered).map Power.tidied).any Power.isZero &&
            (p.suffix.map Char.toLower).isNone then none
            else (p.power.map Power.lowered).map Power.tidied) = _
          rw [hp]
          refine if_neg ?_
          rw [Bool.and_eq_true, not_and_or]
          refine .inl ?_
          rw [Option.map_some, Option.map_some, Option.any_some, isZero_tidied]
          exact hnot
        rw [hpower] at hkept
        cases hkept
      rw [Option.elim_some, Power.value, decimalNat_zeros hzero]
      cases decide (e.sign = some '-') with
      | false => rfl
      | true => rfl
  have hplaces : p.places = [] := by
    have hend : (p.normal.power.isSome || p.normal.suffix.isNone) = true := by
      rw [show p.normal.suffix = p.suffix.map Char.toLower from rfl, hsuffix]
      exact Bool.or_true _
    have hshortened := normal_fraction (if_pos hend)
    rw [hfraction] at hshortened
    cases hf : p.fraction with
    | none => rw [places, hf]; rfl
    | some ds =>
      rw [hf] at hshortened
      by_cases hnil : shorten ds = []
      · rw [places, hf, shorten_eq_nil hnil]
        rfl
      · rw [if_neg (by simpa using hnil)] at hshortened
        cases hshortened
  refine ⟨hsuffix, ?_⟩
  rw [nearest, scale, hscale, hplaces]
  rfl

end Parts

end Lexeme

end MonkeyFormat
