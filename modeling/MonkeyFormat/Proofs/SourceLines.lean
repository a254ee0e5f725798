import MonkeyFormat.Source

set_option autoImplicit false

/-! # Looking at a source text never fails

What the layout asks about a source has an answer at every place in the text. -/

namespace MonkeyFormat

namespace Source

variable (s : Source) {i : Int}

theorem char_eq_ok (h : 0 ≤ i) (hsize : i < s.size) : ∃ c, s.char i = .ok c := by
  have hlt : i.toNat < s.chars.size := by
    rw [Int.toNat_lt h]
    exact hsize
  unfold char
  simp only [if_neg (show ¬ i < 0 by omega), Array.getElem?_eq_getElem hlt]
  exact ⟨_, rfl⟩

theorem skipBackward_bounds (n : Nat) : -1 ≤ s.skipBackward n ∧ s.skipBackward n < n := by
  induction n with
  | zero => exact ⟨Int.le_refl _, show (-1 : Int) < 0 by decide⟩
  | succ n ih =>
    unfold skipBackward
    split
    · omega
    · omega

theorem skipSpaces_nonneg (h : 0 ≤ i) : 0 ≤ s.skipSpaces i false := by
  unfold skipSpaces
  split
  · exact Int.natCast_nonneg _
  · exact h

/-- Looking back from a place in the text, or from right before it. -/
theorem skipSpaces_back_bounds (h : -1 ≤ i) (hsize : i < s.size) :
    -1 ≤ s.skipSpaces i true ∧ s.skipSpaces i true < s.size := by
  unfold skipSpaces
  split
  · next hi =>
    obtain ⟨hfirst, hlast⟩ := s.skipBackward_bounds (i.toNat + 1)
    have hnat : (i.toNat : Int) = i := Int.toNat_of_nonneg hi.1
    simp only [if_true]
    omega
  · omega

theorem skipNewline_eq_ok (h : 0 ≤ i) : ∃ j, s.skipNewline i = .ok j ∧ 0 ≤ j := by
  unfold skipNewline
  split
  · exact ⟨i + 2, rfl, by omega⟩
  · split
    · next hsize =>
      obtain ⟨c, hc⟩ := s.char_eq_ok h hsize
      simp only [hc, bind, Except.bind]
      refine ⟨_, rfl, ?_⟩
      split <;> omega
    · exact ⟨i, rfl, h⟩

theorem newlineAfter_eq_ok (h : 0 ≤ i) : ∃ b, s.newlineAfter i = .ok b := by
  obtain ⟨j, hj, _⟩ := s.skipNewline_eq_ok (s.skipSpaces_nonneg h)
  unfold newlineAfter
  simp only [hj, bind, Except.bind]
  exact ⟨_, rfl⟩

theorem newlineBefore_eq_ok (h : 0 ≤ i) (hsize : i ≤ s.size) :
    ∃ b, s.newlineBefore i = .ok b := by
  obtain ⟨hfirst, hlast⟩ := s.skipSpaces_back_bounds (show -1 ≤ i - 1 by omega) (by omega)
  unfold newlineBefore
  dsimp only
  split
  · exact ⟨_, rfl⟩
  · obtain ⟨c, hc⟩ := s.char_eq_ok (show 0 ≤ s.skipSpaces (i - 1) true by omega) hlast
    simp only [hc, bind, Except.bind]
    exact ⟨_, rfl⟩

theorem lineEnd_nonneg (fuel : Nat) (h : 0 ≤ i) : 0 ≤ s.lineEnd fuel i := by
  induction fuel generalizing i with
  | zero => exact h
  | succ fuel ih =>
    have hspaces := s.skipSpaces_nonneg h
    unfold lineEnd
    dsimp only
    split
    · split
      · exact hspaces
      · split
        · exact hspaces
        · exact ih (by omega)
    · split
      · split
        · exact Int.natCast_nonneg _
        · exact Int.natCast_nonneg _
      · exact hspaces

theorem nextLineEmpty_eq_ok (h : 0 ≤ i) : ∃ b, s.nextLineEmpty i = .ok b := by
  obtain ⟨next, hnext, hnonneg⟩ := s.skipNewline_eq_ok (s.lineEnd_nonneg (s.size + 2) h)
  unfold nextLineEmpty
  simp only [hnext, bind, Except.bind]
  split
  · exact ⟨_, rfl⟩
  · split
    · next hsize =>
      obtain ⟨c, hc⟩ := s.char_eq_ok (s.skipSpaces_nonneg hnonneg) hsize
      simp only [hc]
      exact ⟨_, rfl⟩
    · exact ⟨_, rfl⟩

theorem previousLineEmpty_eq_ok (h : 0 ≤ i) (hsize : i ≤ s.size) :
    ∃ b, s.previousLineEmpty i = .ok b := by
  obtain ⟨hfirst, hlast⟩ := s.skipSpaces_back_bounds (show -1 ≤ i - 1 by omega) (by omega)
  unfold previousLineEmpty
  dsimp only
  split
  · exact ⟨_, rfl⟩
  · next hneg =>
    obtain ⟨c, hc⟩ := s.char_eq_ok (show 0 ≤ s.skipSpaces (i - 1) true by omega) hlast
    simp only [hc, bind, Except.bind]
    split
    · exact ⟨_, rfl⟩
    · generalize hk : (if (decide (0 ≤ s.skipSpaces (i - 1) true - 1) &&
          s.hasAt "\r\n" (s.skipSpaces (i - 1) true - 1)) = true then
        s.skipSpaces (i - 1) true - 1 - 1 else s.skipSpaces (i - 1) true - 1) = k
      have hbounds : -1 ≤ k ∧ k < s.size := by
        rw [← hk]
        split
        · next hcond =>
          rw [Bool.and_eq_true, decide_eq_true_eq] at hcond
          omega
        · omega
      obtain ⟨hfirst', hlast'⟩ := s.skipSpaces_back_bounds hbounds.1 hbounds.2
      split
      · exact ⟨_, rfl⟩
      · obtain ⟨d, hd⟩ := s.char_eq_ok (show 0 ≤ s.skipSpaces k true by omega) hlast'
        simp only [hd]
        exact ⟨_, rfl⟩

end Source

end MonkeyFormat
