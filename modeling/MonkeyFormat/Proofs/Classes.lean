import Mathlib
import MonkeyFormat.Text.Digit

set_option autoImplicit false

/-! # Character classes

A toggle table that is increasing holds at a code point iff an odd number of its entries are at or
below it. From this two tables are seen to have no code point in common by walking through both of
them once. -/

namespace MonkeyFormat

namespace Text

/-! ## Counting in a table -/

/-- Is the table increasing? -/
def increasing : List Nat → Bool
  | [] => true
  | [_] => true
  | a :: b :: rest => decide (a < b) && increasing (b :: rest)

theorem pairwise_of_increasing : ∀ {xs : List Nat}, increasing xs = true → xs.Pairwise (· < ·)
  | [], _ => List.Pairwise.nil
  | [_], _ => List.pairwise_singleton _ _
  | a :: b :: rest, h => by
    rw [increasing, Bool.and_eq_true, decide_eq_true_eq] at h
    have hrest := pairwise_of_increasing h.2
    refine List.Pairwise.cons ?_ hrest
    intro c hc
    rcases List.mem_cons.1 hc with rfl | hc
    · exact h.1
    · exact Nat.lt_trans h.1 (List.rel_of_pairwise_cons hrest hc)

theorem getD_lt_getD {table : Array Nat} (h : increasing table.toList = true) {i j : Nat}
    (hij : i < j) (hj : j < table.size) : table.getD i 0 < table.getD j 0 := by
  have hpair := List.pairwise_iff_getElem.1 (pairwise_of_increasing h) i j
  have hi : i < table.size := Nat.lt_trans hij hj
  simpa [Array.getD, hi, hj] using hpair hi hj hij

/-- The search ends between the entries that are at most `n` and those that are larger. -/
theorem countUpTo_splits {table : Array Nat} (h : increasing table.toList = true)
    (n lo hi : Nat) (hlo : ∀ i < lo, table.getD i 0 ≤ n) (hle : lo ≤ hi) (hsize : hi ≤ table.size)
    (hhi : ∀ i, hi ≤ i → i < table.size → n < table.getD i 0) :
    let r := countUpTo table n lo hi
    r ≤ table.size ∧ (∀ i < r, table.getD i 0 ≤ n) ∧
      ∀ i, r ≤ i → i < table.size → n < table.getD i 0 := by
  fun_induction countUpTo table n lo hi with
  | case1 lo hi hlt mid hmid ih =>
    have hm : mid < hi := by omega
    apply ih
    · intro i hi
      rcases Nat.lt_or_ge i mid with hlt | hge
      · exact Nat.le_trans (Nat.le_of_lt (getD_lt_getD h hlt (by omega))) hmid
      · obtain rfl : i = mid := by omega
        exact hmid
    · omega
    · exact hsize
    · exact hhi
  | case2 lo hi hlt mid hmid ih =>
    apply ih hlo
    · omega
    · omega
    · intro i hi hsz
      rcases Nat.lt_or_ge mid i with hlt | hge
      · exact Nat.lt_trans (by omega) (getD_lt_getD h hlt hsz)
      · obtain rfl : i = mid := by omega
        omega
  | case3 lo hi hlt =>
    obtain rfl : lo = hi := by omega
    exact ⟨hsize, hlo, hhi⟩

/-- Is the number of entries at or below `n` odd? -/
def oddUpTo (n : Nat) : List Nat → Bool
  | [] => false
  | a :: rest => xor (decide (a ≤ n)) (oddUpTo n rest)

theorem oddUpTo_of_splits {n : Nat} : ∀ (xs : List Nat) (r : Nat), r ≤ xs.length →
    (∀ i < r, xs.getD i 0 ≤ n) → (∀ i, r ≤ i → i < xs.length → n < xs.getD i 0) →
    oddUpTo n xs = (r % 2 == 1)
  | [], r, hr, _, _ => by
    obtain rfl : r = 0 := by simpa using hr
    rfl
  | a :: rest, 0, _, _, habove => by
    have ha : n < a := habove 0 (Nat.le_refl _) (by simp)
    have hrest := oddUpTo_of_splits rest 0 (Nat.zero_le _) (by simp)
      (fun i _ hi => habove (i + 1) (Nat.zero_le _) (by simpa using hi))
    rw [oddUpTo, hrest]
    simp [Nat.not_le.2 ha]
  | a :: rest, r + 1, hr, hbelow, habove => by
    have ha : a ≤ n := hbelow 0 (Nat.succ_pos _)
    have hrest := oddUpTo_of_splits rest r (by simpa using hr)
      (fun i hi => hbelow (i + 1) (Nat.succ_lt_succ hi))
      (fun i hri hi => habove (i + 1) (Nat.succ_le_succ hri) (by simpa using hi))
    rw [oddUpTo, hrest]
    simp only [ha, decide_true, Bool.true_xor]
    rcases Nat.mod_two_eq_zero_or_one r with h | h <;> simp [h, Nat.add_mod]

theorem holdsAt_eq_oddUpTo {table : Array Nat} (h : increasing table.toList = true) (n : Nat) :
    holdsAt table n = oddUpTo n table.toList := by
  obtain ⟨hr, hbelow, habove⟩ := countUpTo_splits h n 0 table.size (by simp) (Nat.zero_le _)
    (Nat.le_refl _) (fun i h1 h2 => by omega)
  rw [holdsAt, oddUpTo_of_splits table.toList _ hr]
  · intro i hi
    simpa [Array.getD_eq_getD_getElem?] using hbelow i hi
  · intro i hi hsz
    simpa [Array.getD_eq_getD_getElem?] using habove i hi hsz

/-! ## Disjoint tables -/

/-- Walks through two increasing tables, given whether each holds where the walk stands: do they
never hold at once? `fuel` bounds the entries passed. -/
def apart : Nat → Bool → Bool → List Nat → List Nat → Bool
  | 0, _, _, _, _ => false
  | _ + 1, p, q, [], [] => !(p && q)
  | fuel + 1, p, q, _ :: xs, [] => !(p && q) && apart fuel (!p) q xs []
  | fuel + 1, p, q, [], _ :: ys => !(p && q) && apart fuel p (!q) [] ys
  | fuel + 1, p, q, x :: xs, y :: ys =>
    if x < y then !(p && q) && apart fuel (!p) q xs (y :: ys)
    else if y < x then !(p && q) && apart fuel p (!q) (x :: xs) ys
    else !(p && q) && apart fuel (!p) (!q) xs ys

theorem oddUpTo_eq_false {n : Nat} {xs : List Nat} (h : ∀ a ∈ xs, n < a) :
    oddUpTo n xs = false := by
  induction xs with
  | nil => rfl
  | cons a xs ih =>
    rw [oddUpTo, ih (fun b hb => h b (List.mem_cons_of_mem _ hb))]
    simp [Nat.not_le.2 (h a List.mem_cons_self)]

theorem oddUpTo_of_lt {n a : Nat} {xs : List Nat} (h : increasing (a :: xs) = true) (hn : n < a) :
    oddUpTo n (a :: xs) = false := by
  apply oddUpTo_eq_false
  intro b hb
  rcases List.mem_cons.1 hb with rfl | hb
  · exact hn
  · exact Nat.lt_trans hn (List.rel_of_pairwise_cons (pairwise_of_increasing h) hb)

theorem increasing_tail {a : Nat} {xs : List Nat} (h : increasing (a :: xs) = true) :
    increasing xs = true := by
  cases xs with
  | nil => rfl
  | cons b bs =>
    rw [increasing, Bool.and_eq_true] at h
    exact h.2

theorem not_both_of_apart {n : Nat} (fuel : Nat) (p q : Bool) (xs ys : List Nat)
    (hxs : increasing xs = true) (hys : increasing ys = true)
    (h : apart fuel p q xs ys = true) : (xor p (oddUpTo n xs) && xor q (oddUpTo n ys)) = false := by
  fun_induction apart fuel p q xs ys with
  | case1 => cases h
  | case2 fuel p q =>
    rw [Bool.not_eq_true'] at h
    simpa [oddUpTo] using h
  | case3 fuel p q x xs ih =>
    rw [Bool.and_eq_true, Bool.not_eq_true'] at h
    rcases Nat.lt_or_ge n x with hn | hn
    · rw [oddUpTo_of_lt hxs hn]
      simpa [oddUpTo] using h.1
    · have := ih (increasing_tail hxs) hys h.2
      simpa [oddUpTo, hn] using this
  | case4 fuel p q y ys ih =>
    rw [Bool.and_eq_true, Bool.not_eq_true'] at h
    rcases Nat.lt_or_ge n y with hn | hn
    · rw [oddUpTo_of_lt hys hn]
      simpa [oddUpTo] using h.1
    · have := ih hxs (increasing_tail hys) h.2
      simpa [oddUpTo, hn] using this
  | case5 fuel p q x xs y ys hlt ih =>
    rw [Bool.and_eq_true, Bool.not_eq_true'] at h
    rcases Nat.lt_or_ge n x with hn | hn
    · rw [oddUpTo_of_lt hxs hn, oddUpTo_of_lt hys (Nat.lt_trans hn hlt)]
      simpa using h.1
    · have := ih (increasing_tail hxs) hys h.2
      simpa [oddUpTo, hn] using this
  | case6 fuel p q x xs y ys hxy hlt ih =>
    rw [Bool.and_eq_true, Bool.not_eq_true'] at h
    rcases Nat.lt_or_ge n y with hn | hn
    · rw [oddUpTo_of_lt hxs (Nat.lt_trans hn hlt), oddUpTo_of_lt hys hn]
      simpa using h.1
    · have := ih hxs (increasing_tail hys) h.2
      simpa [oddUpTo, hn] using this
  | case7 fuel p q x xs y ys hxy hyx ih =>
    obtain rfl : x = y := by omega
    rw [Bool.and_eq_true, Bool.not_eq_true'] at h
    rcases Nat.lt_or_ge n x with hn | hn
    · rw [oddUpTo_of_lt hxs hn, oddUpTo_of_lt hys hn]
      simpa using h.1
    · have := ih (increasing_tail hxs) (increasing_tail hys) h.2
      simpa [oddUpTo, hn] using this

/-! ## Letters and digits -/

theorem increasing_letterToggles : increasing letterToggles.toList = true := by decide +kernel

theorem increasing_digitToggles : increasing digitToggles.toList = true := by decide +kernel

theorem apart_letters_digits :
    apart 2000 false false letterToggles.toList digitToggles.toList = true := by
  decide +kernel

/-- No letter is a digit. -/
theorem isDigit_of_isLetter {c : Char} (h : isLetter c = true) : isDigit c = false := by
  unfold isLetter at h
  unfold isDigit
  split
  · next hc =>
    rw [if_pos hc] at h
    rw [Bool.eq_false_iff]
    intro hd
    simp only [Char.isAlpha, Char.isUpper, Char.isLower, Char.isDigit, Bool.or_eq_true,
      Bool.and_eq_true, decide_eq_true_eq, UInt32.le_iff_toNat_le, ge_iff_le] at h hd
    simp at h hd
    omega
  · next hc =>
    rw [if_neg hc, holdsAt_eq_oddUpTo increasing_letterToggles] at h
    rw [holdsAt_eq_oddUpTo increasing_digitToggles]
    have := not_both_of_apart (n := c.toNat) 2000 false false _ _ increasing_letterToggles
      increasing_digitToggles apart_letters_digits
    simpa [h] using this

end Text

end MonkeyFormat
