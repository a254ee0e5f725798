import Mathlib
import MonkeyFormat.Doc.Render
import MonkeyFormat.Literal.Spelling
import MonkeyFormat.Proofs.Shape

set_option autoImplicit false

/-! # Numbers are spelled without slashes

Lowercase, the generic spelling of a number and that of the language only drop characters, change
letters, and add digits, points and marks. A number that is written without a slash is spelled
without one, so that its spelling cannot be taken for a comment. -/

namespace MonkeyFormat

namespace Text

theorem ofNat_ne_slash {n : Nat} (h : n ≠ 47) : Char.ofNat n ≠ '/' := by
  intro heq
  unfold Char.ofNat at heq
  split at heq
  · next hvalid =>
    have := congrArg Char.toNat heq
    rw [Char.toNat_ofNatAux] at this
    exact h this
  · exact absurd heq (by decide)

theorem toLower_ne_slash {c : Char} (h : c ≠ '/') : c.toLower ≠ '/' := by
  by_cases hupper : c.isUpper = true
  · rw [Char.toLower_eq_of_isUpper hupper]
    have hle : 65 ≤ c.toNat := by
      simp only [Char.isUpper, decide_eq_true_eq] at hupper
      exact hupper.1
    exact ofNat_ne_slash (by omega)
  · rwa [Char.toLower_eq_of_not_isUpper hupper]

theorem lowerChar_ne_slash {c : Char} (h : c ≠ '/') : lowerChar c ≠ '/' := by
  unfold lowerChar
  split
  · exact toLower_ne_slash h
  · next hwide =>
    split
    · exact ofNat_ne_slash (by omega)
    · split
      · next run hrun =>
        have hall : ∀ run ∈ lowerDown, 47 + run.2.2.2 < run.1 := by decide +kernel
        have hlow := hall run (Array.mem_of_find?_eq_some hrun)
        have hin := Array.find?_some hrun
        simp only [inRun, Bool.and_eq_true, decide_eq_true_eq] at hin
        exact ofNat_ne_slash (by omega)
      · exact h

theorem not_mem_lowerAfter {cs : List Char} (h : '/' ∉ cs) (before : List Char) :
    '/' ∉ lowerAfter before cs := by
  induction cs generalizing before with
  | nil => exact List.not_mem_nil
  | cons c cs ih =>
    rw [List.mem_cons, not_or] at h
    unfold lowerAfter
    rw [List.mem_append, not_or]
    refine ⟨?_, ih h.2 _⟩
    split
    · rw [List.mem_singleton]
      refine (ofNat_ne_slash ?_).symm
      split
      · decide
      · decide
    · split
      · decide
      · rw [List.mem_singleton]
        exact (lowerChar_ne_slash (Ne.symm h.1)).symm

theorem not_mem_lower {s : String} (h : '/' ∉ s.toList) : '/' ∉ (lower s).toList := by
  rw [lower, String.toList_ofList]
  exact not_mem_lowerAfter h []

end Text

namespace Literal

variable {cs : List Char}

theorem splitExponent?_subset {mantissa behind : List Char}
    (h : splitExponent? cs = some (mantissa, behind)) : mantissa ⊆ cs ∧ behind ⊆ cs := by
  unfold splitExponent? at h
  dsimp only at h
  split at h
  · next rest hrest =>
    split at h
    · cases h
    · cases h
      have hbody : cs.drop ((cs.take 1).filter fun c => c = '+' || c = '-').length ⊆ cs :=
        List.drop_subset _ _
      refine ⟨List.append_subset.2 ⟨fun c hc => ?_, fun c hc => ?_⟩, fun c hc => ?_⟩
      · exact List.mem_of_mem_take (List.mem_of_mem_filter hc)
      · exact hbody ((List.takeWhile_sublist _).subset hc)
      · have hmem : c ∈ 'e' :: behind := List.mem_cons_of_mem _ hc
        rw [← hrest] at hmem
        exact hbody (List.drop_subset _ _ hmem)
  · cases h

theorem not_mem_tidyExponent (h : '/' ∉ cs) : '/' ∉ tidyExponent cs := by
  unfold tidyExponent
  split
  · exact h
  · next mantissa behind hsplit =>
    obtain ⟨hmantissa, hbehind⟩ := splitExponent?_subset hsplit
    have hfront : '/' ∉ mantissa := fun hmem => h (hmantissa hmem)
    have hback : '/' ∉ behind := fun hmem => h (hbehind hmem)
    -- the sign and the digits come from behind the mark
    have hparts (sign digits : List Char) (hsign : '/' ∉ sign) (hdigits : '/' ∉ digits) : '/' ∉
        (let zeros := digits.takeWhile (· = '0')
        let rest := digits.drop zeros.length
        if (rest.head?.map Text.isDecimal).getD false then mantissa ++ 'e' :: sign ++ rest
        else if zeros.isEmpty then cs
        else mantissa ++ 'e' :: sign ++ '0' :: rest) := by
      have hrest (k : Nat) : '/' ∉ digits.drop k := fun hmem => hdigits (List.drop_subset _ _ hmem)
      dsimp only
      split
      · simp [hfront, hsign, hrest]
      · split
        · exact h
        · simp [hfront, hsign, hrest]
    split
    next sign digits hsplit =>
      split at hsplit
      · cases hsplit
        exact hparts [] _ (by decide) fun hmem => hback (List.mem_cons_of_mem _ hmem)
      · cases hsplit
        exact hparts ['-'] _ (by decide) fun hmem => hback (List.mem_cons_of_mem _ hmem)
      · cases hsplit
        exact hparts [] _ (by decide) hback

theorem not_mem_dropZeroExponent (h : '/' ∉ cs) : '/' ∉ dropZeroExponent cs := by
  unfold dropZeroExponent
  split
  · exact h
  · next mantissa behind hsplit =>
    obtain ⟨hmantissa, hbehind⟩ := splitExponent?_subset hsplit
    have hfront : '/' ∉ mantissa := fun hmem => h (hmantissa hmem)
    have hback : '/' ∉ behind := fun hmem => h (hbehind hmem)
    have hdigits (digits : List Char) (hdigits : '/' ∉ digits) : '/' ∉
        (let zeros := digits.takeWhile (· = '0')
        let rest := digits.drop zeros.length
        if !zeros.isEmpty && atEnd rest then mantissa ++ rest else cs) := by
      have hrest (k : Nat) : '/' ∉ digits.drop k := fun hmem => hdigits (List.drop_subset _ _ hmem)
      dsimp only
      split
      · simp [hfront, hrest]
      · exact h
    refine hdigits _ fun hmem => ?_
    split at hmem
    · exact hback (List.mem_cons_of_mem _ hmem)
    · exact hback (List.mem_cons_of_mem _ hmem)
    · exact hback hmem

theorem not_mem_leadingZero (h : '/' ∉ cs) : '/' ∉ leadingZero cs := by
  unfold leadingZero
  split <;> simp_all

/-- Digits without the zeros at their end, or the first one. -/
theorem not_mem_trimmed {digits : List Char} (h : '/' ∉ digits) : '/' ∉
    (let kept := (digits.reverse.dropWhile (· = '0')).reverse
    if kept.isEmpty then digits.take 1 else kept) := by
  dsimp only
  split
  · exact fun hmem => h (List.mem_of_mem_take hmem)
  · intro hmem
    rw [List.mem_reverse] at hmem
    exact h (List.mem_reverse.1 ((List.dropWhile_sublist _).subset hmem))

theorem not_mem_dropTrailingZeros (h : '/' ∉ cs) : '/' ∉ dropTrailingZeros cs := by
  induction cs with
  | nil => exact h
  | cons c cs ih =>
    rw [List.mem_cons, not_or] at h
    have hdigits : '/' ∉ cs.takeWhile Text.isDecimal :=
      fun hmem => h.2 ((List.takeWhile_sublist _).subset hmem)
    have hparts (shorter : List Char) (hshorter : '/' ∉ shorter) : '/' ∉
        (let digits := cs.takeWhile Text.isDecimal
        let rest := cs.drop digits.length
        if c = '.' && shorter.length < digits.length && atExponentOrEnd rest then
          c :: shorter ++ rest
        else c :: dropTrailingZeros cs) := by
      dsimp only
      split
      · rw [List.cons_append, List.mem_cons, List.mem_append, not_or, not_or]
        exact ⟨h.1, hshorter, fun hmem => h.2 (List.drop_subset _ _ hmem)⟩
      · rw [List.mem_cons, not_or]
        exact ⟨h.1, ih h.2⟩
    exact hparts _ (not_mem_trimmed hdigits)

theorem not_mem_dropBarePoint (h : '/' ∉ cs) : '/' ∉ dropBarePoint cs := by
  induction cs with
  | nil => exact h
  | cons c cs ih =>
    have hrest : '/' ∉ cs := fun hmem => h (List.mem_cons_of_mem c hmem)
    unfold dropBarePoint
    split
    · exact hrest
    · rw [List.mem_cons, not_or]
      exact ⟨fun heq => h (heq ▸ List.mem_cons_self), ih hrest⟩

theorem not_mem_generic {raw : String} (h : '/' ∉ raw.toList) : '/' ∉ (generic raw).toList := by
  rw [generic, String.toList_ofList]
  exact not_mem_dropBarePoint (not_mem_dropTrailingZeros (not_mem_leadingZero
    (not_mem_dropZeroExponent (not_mem_tidyExponent (Text.not_mem_lower h)))))

/-- A number has a spelling. -/
theorem spell_eq_ok {raw rendered : String} {v : Value} (hv : v.isNumber = true)
    (hraw : '/' ∉ raw.toList) (hrendered : '/' ∉ rendered.toList) :
    ∃ s, spell raw v rendered = .ok s ∧ '/' ∉ s.toList := by
  have hlower : '/' ∉ (Text.lower raw).toList := Text.not_mem_lower hraw
  cases v with
  | int n =>
    unfold spell
    dsimp only
    split
    · exact ⟨_, rfl, hlower⟩
    · refine ⟨_, rfl, ?_⟩
      split
      · simp [hlower]
      · exact hrendered
  | float x =>
    unfold spell
    dsimp only
    split
    · exact ⟨_, rfl, by decide⟩
    · split
      · refine ⟨_, rfl, ?_⟩
        rw [String.toList_append, List.mem_append, not_or]
        refine ⟨hrendered, ?_⟩
        split
        · decide
        · decide
      · exact ⟨_, rfl, hrendered⟩
  | _ => cases hv

end Literal

/-- A text is rendered as itself, but for the blanks at its end. -/
theorem Doc.render_bare (w : Doc.Widths) (s : String) :
    ∃ t, (Doc.bare s).render w = .ok t ∧ t.toList ⊆ s.toList := by
  have hrun : run w [] 0 [] [⟨0, .breaking, .bare s⟩] = s.toList.reverse := by
    rw [run, run]
    simp [Output.push]
  refine ⟨_, rfl, ?_⟩
  change (Output.toText (run w [] 0 [] [⟨0, .breaking, .bare s⟩])).toList ⊆ s.toList
  rw [hrun, Output.toText, String.toList_ofList]
  intro c hc
  exact List.mem_reverse.1 ((List.dropWhile_sublist _).subset (List.mem_reverse.1 hc))

end MonkeyFormat
