import MonkeyFormat.Proofs.Effects
import MonkeyFormat.Proofs.SourceLines

set_option autoImplicit false

/-! # Blank lines

Between statements the layout keeps a blank line where the source has one. In a source without any
it finds none, wherever it looks. -/

namespace MonkeyFormat

namespace Text

/-- Does a line break follow, with nothing but spaces and tabs before it? -/
def breakFollows : List Char → Bool
  | [] => false
  | c :: cs => Source.isBreak c || (Source.isSpace c && breakFollows cs)

/-- Is there a blank line: two line breaks with nothing but spaces and tabs between them? -/
def hasBlankLine : List Char → Bool
  | [] => false
  | '\r' :: '\n' :: cs => breakFollows cs || hasBlankLine cs
  | c :: cs => (Source.isBreak c && breakFollows cs) || hasBlankLine cs

theorem hasBlankLine_cons {c : Char} {cs : List Char} (h : ¬ (c = '\r' ∧ cs.head? = some '\n')) :
    hasBlankLine (c :: cs) = ((Source.isBreak c && breakFollows cs) || hasBlankLine cs) := by
  rw [hasBlankLine]
  intro ds hc hcs
  exact h ⟨hc, by rw [hcs]; rfl⟩

theorem hasBlankLine_tail {c : Char} {cs : List Char} (h : hasBlankLine (c :: cs) = false) :
    hasBlankLine cs = false := by
  by_cases hpair : c = '\r' ∧ cs.head? = some '\n'
  · -- of the two characters of one break the second is looked at as a break of its own
    obtain ⟨rfl, hhead⟩ := hpair
    obtain ⟨ds, rfl⟩ := List.head?_eq_some_iff.1 hhead
    rw [hasBlankLine] at h
    rw [hasBlankLine_cons (by simp), show Source.isBreak '\n' = true by decide, Bool.true_and]
    exact h
  · rw [hasBlankLine_cons hpair] at h
    exact (Bool.or_eq_false_iff.1 h).2

theorem hasBlankLine_drop {cs : List Char} (h : hasBlankLine cs = false) (k : Nat) :
    hasBlankLine (cs.drop k) = false := by
  induction k generalizing cs with
  | zero => exact h
  | succ k ih =>
    cases cs with
    | nil => rfl
    | cons c cs => exact ih (hasBlankLine_tail h)

end Text

namespace Source

variable {text : String} {k : Nat}

theorem isAt_ofString {p : Char → Bool} (h : (ofString text).isAt p k = true) :
    ∃ c cs, text.toList.drop k = c :: cs ∧ p c = true := by
  unfold isAt ofString at h
  rw [List.getElem?_toArray] at h
  cases hchar : text.toList[k]? with
  | none =>
    rw [hchar] at h
    cases h
  | some c =>
    rw [hchar] at h
    obtain ⟨hk, rfl⟩ := List.getElem?_eq_some_iff.1 hchar
    exact ⟨_, _, List.drop_eq_getElem_cons hk, h⟩

theorem char_ofString {c : Char} (h : (ofString text).char k = .ok c) :
    ∃ cs, text.toList.drop k = c :: cs := by
  unfold char ofString at h
  simp only [if_neg (show ¬ (k : Int) < 0 by omega), Int.toNat_natCast, List.getElem?_toArray] at h
  cases hchar : text.toList[k]? with
  | none =>
    rw [hchar] at h
    cases h
  | some d =>
    rw [hchar] at h
    cases h
    obtain ⟨hk, rfl⟩ := List.getElem?_eq_some_iff.1 hchar
    exact ⟨_, List.drop_eq_getElem_cons hk⟩

theorem breakFollows_skipForward {fuel : Nat} {c : Char}
    (h : (ofString text).char ((ofString text).skipForward fuel k) = .ok c)
    (hc : isBreak c = true) : Text.breakFollows (text.toList.drop k) = true := by
  induction fuel generalizing k with
  | zero =>
    rw [skipForward] at h
    obtain ⟨cs, hcs⟩ := char_ofString h
    rw [hcs, Text.breakFollows, hc, Bool.true_or]
  | succ fuel ih =>
    rw [skipForward] at h
    split at h
    · next hspace =>
      obtain ⟨d, ds, hds, hd⟩ := isAt_ofString hspace
      have hrest := ih h
      rw [← List.tail_drop, hds, List.tail_cons] at hrest
      rw [hds, Text.breakFollows, hd, hrest, Bool.true_and, Bool.or_true]
    · obtain ⟨cs, hcs⟩ := char_ofString h
      rw [hcs, Text.breakFollows, hc, Bool.true_or]

theorem clamp_natCast (s : Source) (k : Nat) : s.clamp k = k := by
  unfold clamp
  rw [if_neg (by omega), Int.toNat_natCast]

theorem hasAt_ofString {word : String} (hk : k ≤ text.toList.length) :
    (ofString text).hasAt word k = true ↔ word.toList <+: text.toList.drop k := by
  have hsize : decide (k ≤ (ofString text).size) = true := decide_eq_true hk
  unfold hasAt
  dsimp only
  rw [clamp_natCast, hsize, Bool.true_and, beq_iff_eq, Array.toList_extract,
    List.extract_eq_take_drop, Nat.add_sub_cancel_left, List.prefix_iff_eq_take,
    ← String.length_toList]
  exact eq_comm

/-- Behind a line break of a text without blank lines no other one follows. -/
theorem breakFollows_skipNewline {next : Int} (hblank : Text.hasBlankLine text.toList = false)
    (h : (ofString text).skipNewline k = .ok next) (hmoved : next ≠ k) :
    ∃ j : Nat, next = j ∧ Text.breakFollows (text.toList.drop j) = false := by
  have hrest := Text.hasBlankLine_drop hblank k
  unfold skipNewline at h
  split at h
  · next hpair =>
    cases h
    have hk : k ≤ text.toList.length := by
      unfold hasAt at hpair
      rw [clamp_natCast, Bool.and_eq_true] at hpair
      exact of_decide_eq_true hpair.1
    obtain ⟨cs, hcs⟩ := (hasAt_ofString hk).1 hpair
    have hbehind : text.toList.drop (k + 2) = cs := by
      rw [← List.drop_drop, ← hcs]
      rfl
    rw [← hcs] at hrest
    change Text.hasBlankLine ('\r' :: '\n' :: cs) = false at hrest
    rw [Text.hasBlankLine] at hrest
    exact ⟨k + 2, rfl, by rw [hbehind]; exact (Bool.or_eq_false_iff.1 hrest).1⟩
  · next hpair =>
    split at h
    · obtain ⟨c, hc, h⟩ := bind_eq_ok h
      obtain ⟨cs, hcs⟩ := char_ofString hc
      have hk : k ≤ text.toList.length := by
        refine Nat.le_of_not_lt fun hbeyond => ?_
        rw [List.drop_eq_nil_of_le (Nat.le_of_lt hbeyond)] at hcs
        cases hcs
      have hbehind : text.toList.drop (k + 1) = cs := by
        rw [← List.tail_drop, hcs, List.tail_cons]
      cases h
      split at hmoved
      · next hbreak =>
        have hsingle : ¬ (c = '\r' ∧ cs.head? = some '\n') := by
          rintro ⟨rfl, hhead⟩
          obtain ⟨ds, rfl⟩ := List.head?_eq_some_iff.1 hhead
          exact hpair ((hasAt_ofString hk).2 ⟨ds, hcs.symm⟩)
        rw [hcs, Text.hasBlankLine_cons hsingle, hbreak, Bool.true_and] at hrest
        rw [if_pos hbreak]
        exact ⟨k + 1, rfl, by rw [hbehind]; exact (Bool.or_eq_false_iff.1 hrest).1⟩
      · exact absurd rfl hmoved
    · cases h
      exact absurd rfl hmoved

/-- A text without blank lines has none behind any of its lines. -/
theorem nextLineEmpty_of_no_blank {i : Int} (hblank : Text.hasBlankLine text.toList = false)
    (h : 0 ≤ i) : (ofString text).nextLineEmpty i = .ok false := by
  obtain ⟨b, hb⟩ := (ofString text).nextLineEmpty_eq_ok h
  cases b with
  | false => exact hb
  | true =>
    obtain ⟨last, hlast⟩ := Int.eq_ofNat_of_zero_le
      ((ofString text).lineEnd_nonneg ((ofString text).size + 2) h)
    unfold nextLineEmpty at hb
    rw [hlast] at hb
    obtain ⟨next, hnext, hb⟩ := bind_eq_ok hb
    split at hb
    · cases hb
    · next hmoved =>
      obtain ⟨j, rfl, hfollows⟩ := breakFollows_skipNewline hblank hnext hmoved
      dsimp only at hb
      split at hb
      · obtain ⟨c, hc, hb⟩ := bind_eq_ok hb
        have hbreak : isBreak c = true := Except.ok.inj hb
        unfold skipSpaces at hc
        split at hc
        · rw [Int.toNat_natCast] at hc
          rw [breakFollows_skipForward hc hbreak] at hfollows
          cases hfollows
        · obtain ⟨cs, hcs⟩ := char_ofString hc
          rw [hcs, Text.breakFollows, hbreak] at hfollows
          cases hfollows
      · cases hb

end Source

end MonkeyFormat
