import Mathlib
import MonkeyFormat.Number.Binary64

set_option autoImplicit false

/-! # The floating point numbers nearest to whole numbers

What is nearest to a decimal is a number or infinity. What is nearest to a whole number is a whole
number, unless it is infinity: up to 53 binary digits nothing is rounded, and beyond them the last
digit kept counts at least one. -/

namespace MonkeyFormat

namespace Binary64

/-! ## Magnitudes -/

theorem toNat_withSign {magnitude : Nat} (h : magnitude < 2 ^ 63) :
    (withSign false magnitude).bits.toNat = magnitude := by
  change (UInt64.ofNat magnitude).toNat = magnitude
  rw [UInt64.toNat_ofNat']
  exact Nat.mod_eq_of_lt (by omega)

/-- Below infinity stand the finite numbers. -/
theorem exponentField_withSign {magnitude : Nat} (h : magnitude < 0x7ff0000000000000) :
    (withSign false magnitude).exponentField = magnitude / leadWeight := by
  rw [exponentField, toNat_withSign (by omega)]
  unfold leadWeight
  omega

theorem isNaN_withSign {magnitude : Nat} (h : magnitude ≤ 0x7ff0000000000000) :
    (withSign false magnitude).isNaN = false := by
  rw [isNaN, Bool.and_eq_false_iff]
  rcases Nat.lt_or_eq_of_le h with hlt | rfl
  · left
    rw [exponentField_withSign hlt, beq_eq_false_iff_ne]
    unfold leadWeight
    omega
  · right
    decide +kernel

theorem isFinite_withSign {magnitude : Nat} (h : magnitude < 0x7ff0000000000000) :
    (withSign false magnitude).isFinite = true := by
  rw [isFinite, exponentField_withSign h, bne_iff_ne]
  unfold leadWeight
  omega

/-- What is nearest to a quotient is a magnitude up to infinity. -/
theorem exists_withSign (num den : Nat) :
    ∃ magnitude, magnitude ≤ 0x7ff0000000000000 ∧
      ofRatio false num den = withSign false magnitude := by
  unfold ofRatio
  split
  · exact ⟨0, by decide, rfl⟩
  · extract_lets low scaled tight e q magnitude
    by_cases h : magnitude ≥ 0x7ff0000000000000
    · exact ⟨_, Nat.le_refl _, if_pos h⟩
    · exact ⟨magnitude, Nat.le_of_not_le h, if_neg h⟩

theorem isNaN_ofRatio (num den : Nat) : (ofRatio false num den).isNaN = false := by
  obtain ⟨magnitude, hle, heq⟩ := exists_withSign num den
  rw [heq]
  exact isNaN_withSign hle

/-- A decimal is read as a number. -/
theorem isNaN_ofDecimal (digits : Nat) (power : Int) :
    (ofDecimal false digits power).isNaN = false := by
  unfold ofDecimal
  dsimp only
  split
  · exact isNaN_withSign (by decide)
  split
  · exact isNaN_withSign (Nat.le_refl _)
  split
  · exact isNaN_withSign (by decide)
  split
  · exact isNaN_ofRatio _ _
  · exact isNaN_ofRatio _ _

/-! ## Whole numbers -/

theorem roundDiv_one (a : Nat) : roundDiv a 1 = a := by
  unfold roundDiv
  simp [Nat.mod_one]

theorem le_roundDiv {a b c : Nat} (hb : 0 < b) (h : c * b ≤ a) : c ≤ roundDiv a b := by
  have hq : c ≤ a / b := (Nat.le_div_iff_mul_le hb).2 h
  unfold roundDiv
  dsimp only
  split
  · exact hq
  split
  · omega
  split
  · exact hq
  · omega

section Scaled

variable {n : Nat} (hn : n ≠ 0)
include hn

/-- Up to 53 binary digits a whole number only needs to be shifted. -/
theorem shifted_bounds (hlog : n.log2 ≤ 52) :
    leadWeight ≤ n * 2 ^ (52 - n.log2) ∧ n * 2 ^ (52 - n.log2) < 2 * leadWeight := by
  have hlow : 2 ^ n.log2 * 2 ^ (52 - n.log2) ≤ n * 2 ^ (52 - n.log2) :=
    Nat.mul_le_mul_right _ (Nat.log2_self_le hn)
  have hhigh : n * 2 ^ (52 - n.log2) < 2 ^ (n.log2 + 1) * 2 ^ (52 - n.log2) :=
    Nat.mul_lt_mul_of_pos_right Nat.lt_log2_self (Nat.two_pow_pos _)
  rw [← Nat.pow_add] at hlow hhigh
  rw [show n.log2 + (52 - n.log2) = 52 by omega] at hlow
  rw [show n.log2 + 1 + (52 - n.log2) = 53 by omega] at hhigh
  unfold leadWeight
  omega

/-- The rounded significand of a whole number, and the number it gives. -/
theorem ofRatio_one : ∃ q, leadWeight ≤ q ∧
    (n.log2 ≤ 52 → q = n * 2 ^ (52 - n.log2)) ∧
    ofRatio false n 1 =
      if 0x7ff0000000000000 ≤ (n.log2 + 1022) * leadWeight + q then infinity false
      else withSign false ((n.log2 + 1022) * leadWeight + q) := by
  have hself := Nat.log2_self_le hn
  have hone : Nat.log2 1 = 0 := by decide
  unfold ofRatio
  rw [if_neg (by simp [hn])]
  extract_lets low scaled tight e q magnitude
  have hscaled (k : Int) : scaled k =
      if k ≤ 0 then (n * 2 ^ (-k).toNat, 1) else (n, 1 * 2 ^ k.toNat) := rfl
  have hlow : low = (n.log2 : Int) - 53 := by
    simp only [low, hone]
    omega
  -- one binary digit less than that is always enough
  have htight : tight = (n.log2 : Int) - 52 := by
    have hcond : (scaled low).1 ≥ 2 * leadWeight * (scaled low).2 := by
      rw [hscaled, hlow]
      by_cases hlog : n.log2 ≤ 53
      · rw [if_pos (by omega), show (-((n.log2 : Int) - 53)).toNat = 53 - n.log2 by omega]
        have hmul := Nat.mul_le_mul_right (2 ^ (53 - n.log2)) hself
        rw [← Nat.pow_add, Nat.add_sub_cancel' hlog] at hmul
        exact hmul
      · rw [if_neg (by omega), show ((n.log2 : Int) - 53).toNat = n.log2 - 53 by omega]
        change 2 ^ 53 * (1 * 2 ^ (n.log2 - 53)) ≤ n
        rw [Nat.one_mul, ← Nat.pow_add, Nat.add_sub_cancel' (by omega)]
        exact hself
    simp only [tight]
    rw [if_pos hcond, hlow]
    omega
  have he : e = (n.log2 : Int) - 52 := by
    simp only [e, htight]
    omega
  have hq : leadWeight ≤ q ∧ (n.log2 ≤ 52 → q = n * 2 ^ (52 - n.log2)) := by
    simp only [q, hscaled, he]
    by_cases hlog : n.log2 ≤ 52
    · rw [if_pos (by omega), show (-((n.log2 : Int) - 52)).toNat = 52 - n.log2 by omega]
      dsimp only
      rw [roundDiv_one]
      exact ⟨(shifted_bounds hn hlog).1, fun _ => rfl⟩
    · rw [if_neg (by omega), show ((n.log2 : Int) - 52).toNat = n.log2 - 52 by omega]
      refine ⟨le_roundDiv (by simp) ?_, fun h => absurd h hlog⟩
      change 2 ^ 52 * (1 * 2 ^ (n.log2 - 52)) ≤ n
      rw [Nat.one_mul, ← Nat.pow_add, Nat.add_sub_cancel' (by omega)]
      exact hself
  refine ⟨q, hq.1, hq.2, ?_⟩
  have hmagnitude : magnitude = (n.log2 + 1022) * leadWeight + q := by
    simp only [magnitude]
    rw [if_neg (Nat.not_lt.2 hq.1), he]
    congr 2
    omega
  rw [← hmagnitude]

end Scaled

/-- What is nearest to a whole number is a whole number or infinity. -/
theorem isInteger_ofRatio_one {n : Nat} (hn : n ≠ 0)
    (hfinite : (ofRatio false n 1).isFinite = true) : (ofRatio false n 1).isInteger = true := by
  obtain ⟨q, hlead, hsmall, heq⟩ := ofRatio_one hn
  rw [heq] at hfinite ⊢
  by_cases hover : 0x7ff0000000000000 ≤ (n.log2 + 1022) * leadWeight + q
  · rw [if_pos hover] at hfinite
    exact absurd hfinite (by decide +kernel)
  · rw [if_neg hover]
    have hbound := Nat.lt_of_not_le hover
    have hfield := exponentField_withSign hbound
    have hpos : 0 < leadWeight := by decide
    have hleast : n.log2 + 1023 ≤ ((n.log2 + 1022) * leadWeight + q) / leadWeight := by
      refine (Nat.le_div_iff_mul_le hpos).2 ?_
      rw [Nat.succ_mul]
      omega
    rw [isInteger, isFinite_withSign hbound, Bool.true_and, Bool.or_eq_true, decide_eq_true_eq,
      beq_iff_eq]
    by_cases hlog : 52 ≤ n.log2
    · left
      rw [exponent, hfield]
      omega
    · right
      -- nothing was rounded, and the zeros shifted in are the fraction
      have hq := hsmall (by omega)
      have hbounds := shifted_bounds hn (show n.log2 ≤ 52 by omega)
      rw [← hq] at hbounds
      have hdiv : ((n.log2 + 1022) * leadWeight + q) / leadWeight = n.log2 + 1023 := by
        refine Nat.le_antisymm (Nat.le_of_lt_succ ((Nat.div_lt_iff_lt_mul hpos).2 ?_)) hleast
        unfold leadWeight at hbounds ⊢
        omega
      have hfraction : (withSign false ((n.log2 + 1022) * leadWeight + q)).fraction =
          q - leadWeight := by
        rw [fraction, toNat_withSign (by omega)]
        unfold leadWeight at hbounds ⊢
        omega
      have hexponent : (-(withSign false ((n.log2 + 1022) * leadWeight + q)).exponent).toNat =
          52 - n.log2 := by
        rw [exponent, hfield, hdiv]
        omega
      rw [mantissa, hfield, hdiv, if_neg (by omega), hfraction, hexponent,
        Nat.sub_add_cancel hlead, hq]
      exact Nat.mul_mod_left _ _

theorem isInteger_ofDecimal_whole {n : Nat} (hfinite : (ofDecimal false n 0).isFinite = true) :
    (ofDecimal false n 0).isInteger = true := by
  unfold ofDecimal at hfinite ⊢
  dsimp only at hfinite ⊢
  generalize (Nat.toDigits 10 n).length = size at hfinite ⊢
  by_cases hn : n = 0
  · rw [if_pos hn]
    decide +kernel
  rw [if_neg hn] at hfinite ⊢
  by_cases hlarge : (size : Int) + 0 > 400
  · rw [if_pos hlarge] at hfinite
    exact absurd hfinite (by decide +kernel)
  rw [if_neg hlarge, if_neg (by omega), if_pos (Int.le_refl 0)] at hfinite ⊢
  exact isInteger_ofRatio_one (n := n * Nat.pow 10 0) (by simpa using hn) hfinite

end Binary64

end MonkeyFormat
