import MonkeyFormat.Proofs.TokenPlaces

set_option autoImplicit false

/-! # Positions in a text

Lexer and parser count lines and columns as they go. Here the place of an offset is read off the
text instead, and counting is shown to come to the same. -/

namespace MonkeyFormat

namespace Place

/-- The place of an offset in a text: its line is counted by the line feeds before it, its column
from the last of them. -/
def ofOffset (cs : List Char) (n : Nat) : Place where
  line := 1 + (cs.take n).count '\n'
  column := 1 + ((cs.take n).reverse.takeWhile (· ≠ '\n')).length
  offset := n

example : ofOffset ['a', '\n', 'b', 'c'] 3 = ⟨2, 2, 3⟩ := by decide

/-- The place of an offset depends on the text before it only. -/
theorem ofOffset_append (front cs : List Char) :
    ofOffset (front ++ cs) front.length = ofOffset front front.length := by
  simp [ofOffset]

theorem next_ofOffset (front : List Char) (c : Char) :
    (ofOffset front front.length).next c =
      ofOffset (front ++ [c]) (front ++ [c]).length := by
  simp only [next, ofOffset, List.take_length]
  by_cases hc : c = '\n'
  · subst hc
    simp [add_assoc]
  · simp [hc, add_assoc]

theorem ofOffset_succ (front cs : List Char) (c : Char) :
    ofOffset (front ++ c :: cs) (front.length + 1) =
      (ofOffset (front ++ c :: cs) front.length).next c := by
  have hfront := ofOffset_append (front ++ [c]) cs
  rw [List.append_assoc, List.singleton_append, List.length_append, List.length_singleton] at hfront
  rw [hfront, ofOffset_append, next_ofOffset, List.length_append, List.length_singleton]

/-- Counting on from a place comes to the place behind the counted characters. -/
theorem after_ofOffset (front taken : List Char) :
    (ofOffset front front.length).after taken =
      ofOffset (front ++ taken) (front ++ taken).length := by
  unfold after
  induction taken generalizing front with
  | nil => simp
  | cons c taken ih => rw [List.foldl_cons, next_ofOffset, ih, List.append_assoc]; rfl

end Place

namespace Span

/-- Where a span starts. -/
def first (s : Span) : Place := ⟨s.line, s.col, s.start⟩

/-- Where a span ends. -/
def last (s : Span) : Place := ⟨s.endLine, s.endCol, s.stop⟩

/-- The span lies in a text, and its lines and columns are those of its offsets. -/
structure Coherent (cs : List Char) (s : Span) : Prop where
  nonneg : 0 ≤ s.start
  order : s.start ≤ s.stop
  within : s.stop ≤ cs.length
  first : s.first = .ofOffset cs s.start.toNat
  last : s.last = .ofOffset cs s.stop.toNat

/-- The text that a span covers. -/
def textIn (cs : List Char) (s : Span) : List Char :=
  (cs.drop s.start.toNat).take (s.stop.toNat - s.start.toNat)

end Span

/-- A span over the characters that are counted at its start. -/
theorem Place.coherent_upTo (front taken cs : List Char) :
    let p := Place.ofOffset front front.length
    (p.upTo (p.after taken)).Coherent (front ++ taken ++ cs) ∧
      (p.upTo (p.after taken)).textIn (front ++ taken ++ cs) = taken := by
  intro p
  have hlast : p.after taken = .ofOffset (front ++ taken) (front ++ taken).length :=
    Place.after_ofOffset front taken
  have hstart : (p.upTo (p.after taken)).start = front.length := rfl
  have hstop : (p.upTo (p.after taken)).stop = (front ++ taken).length := by
    rw [hlast]
    rfl
  refine ⟨⟨?_, ?_, ?_, ?_, ?_⟩, ?_⟩
  · rw [hstart]
    omega
  · rw [hstart, hstop, List.length_append]
    omega
  · rw [hstop, List.length_append, List.length_append, List.length_append]
    omega
  · rw [hstart, Int.toNat_natCast, List.append_assoc, Place.ofOffset_append]
    rfl
  · rw [hstop, Int.toNat_natCast, Place.ofOffset_append]
    exact hlast
  · rw [Span.textIn, hstart, hstop, Int.toNat_natCast, Int.toNat_natCast, List.append_assoc]
    simp

/-! ## The end of a text -/

theorem takeWhile_append_newline (xs ys : List Char) :
    (xs ++ '\n' :: ys).takeWhile (· ≠ '\n') = xs.takeWhile (· ≠ '\n') := by
  induction xs with
  | nil => simp
  | cons x xs ih => by_cases hx : x = '\n' <;> simp_all

theorem takeWhile_ne_of_not_mem {m : List Char} (hm : '\n' ∉ m) :
    m.takeWhile (· ≠ '\n') = m := by
  refine List.takeWhile_eq_self_iff.2 fun c hc => ?_
  simp only [ne_eq, decide_not, Bool.not_eq_eq_eq_not, Bool.not_true, decide_eq_false_iff_not]
  rintro rfl
  exact hm hc

/-- Splitting at line feeds goes on from the characters since the last one. -/
theorem splitOnAux_newline (r : List Char) : ∀ (l m : List Char) (acc : List String),
    String.splitOnAux (.ofList (l ++ m ++ r)) "\n" ⟨String.utf8Len l⟩
      ⟨String.utf8Len l + String.utf8Len m⟩ 0 acc =
      acc.reverse ++ (List.splitOnPPrepend (· == '\n') r m.reverse).map String.ofList := by
  induction r with
  | nil =>
    intro l m acc
    have hend : String.Pos.Raw.atEnd (.ofList (l ++ m ++ []))
        ⟨String.utf8Len l + String.utf8Len m⟩ = true := by
      rw [← String.utf8Len_append]
      exact (String.atEnd_of_valid (l ++ m) []).2 rfl
    rw [String.splitOnAux, if_pos hend, String.extract_of_valid]
    simp
  | cons c r ih =>
    intro l m acc
    have hget := String.get_of_valid (l ++ m) (c :: r)
    have hnext := String.next_of_valid (l ++ m) c r
    have hend : String.Pos.Raw.atEnd (.ofList (l ++ m ++ c :: r))
        ⟨String.utf8Len l + String.utf8Len m⟩ = false := by
      rw [← String.utf8Len_append, Bool.eq_false_iff]
      exact mt (String.atEnd_of_valid (l ++ m) (c :: r)).1 (List.cons_ne_nil c r)
    rw [String.utf8Len_append] at hget hnext
    rw [String.splitOnAux, if_neg (by rw [hend]; decide), hget]
    have hsep : String.Pos.Raw.get "\n" 0 = '\n' := rfl
    have hstep : String.Pos.Raw.next "\n" 0 = ⟨1⟩ := rfl
    have hover : String.Pos.Raw.atEnd "\n" ⟨1⟩ = true := rfl
    have hback (i : Nat) : String.Pos.Raw.unoffsetBy ⟨i⟩ 0 = ⟨i⟩ := rfl
    rw [hsep, hstep, List.headD_cons]
    by_cases hc : c = '\n'
    · subst hc
      have hone : String.Pos.Raw.unoffsetBy
          ⟨String.utf8Len l + String.utf8Len m + '\n'.utf8Size⟩ ⟨1⟩ =
            ⟨String.utf8Len l + String.utf8Len m⟩ := rfl
      have hrest := ih (l ++ m ++ ['\n']) [] (.ofList m :: acc)
      simp only [beq_self_eq_true, if_true, hnext, hover, hone, String.extract_of_valid]
      have htext : l ++ m ++ '\n' :: r = l ++ m ++ ['\n'] ++ [] ++ r := by simp
      have hsize : String.utf8Len (l ++ m ++ ['\n']) =
          String.utf8Len l + String.utf8Len m + '\n'.utf8Size := by
        simp [add_assoc]
      rw [hsize, ← htext] at hrest
      rw [List.splitOnPPrepend_cons_pos (by simp)]
      refine hrest.trans ?_
      simp
    · have hrest := ih l (m ++ [c]) acc
      have htext : l ++ m ++ c :: r = l ++ (m ++ [c]) ++ r := by simp
      have hsize : String.utf8Len l + String.utf8Len (m ++ [c]) =
          String.utf8Len l + String.utf8Len m + c.utf8Size := by
        simp [add_assoc]
      rw [hsize, ← htext] at hrest
      simp only [beq_iff_eq, hc, if_false, hback, hnext]
      rw [List.splitOnPPrepend_cons_neg (by simpa using hc)]
      rw [List.reverse_append, List.reverse_singleton, List.singleton_append] at hrest
      exact hrest

/-- The lines of a text are those of its characters. -/
theorem splitOn_newline (s : String) :
    s.splitOn "\n" = (s.toList.splitOn '\n').map String.ofList := by
  have hlines := splitOnAux_newline s.toList [] [] []
  have htext : String.ofList ([] ++ [] ++ s.toList) = s := by simp
  have hzero : (⟨String.utf8Len [] + String.utf8Len []⟩ : String.Pos.Raw) = 0 := rfl
  have hnil : (⟨String.utf8Len []⟩ : String.Pos.Raw) = 0 := rfl
  rw [htext, hzero, hnil] at hlines
  rw [String.splitOn, if_neg (by decide), hlines]
  rfl

theorem length_lines (cs : List Char) : (cs.splitOn '\n').length = cs.count '\n' + 1 := by
  induction cs with
  | nil => rfl
  | cons c cs ih =>
    rw [List.splitOn_cons_eq_if_modifyHead, List.count_cons]
    split
    · rw [List.length_cons, ih]
    · rw [List.length_modifyHead, ih, Nat.add_zero]

/-- The last line is what stands behind the last line feed. -/
theorem last_line (cs : List Char) :
    (cs.splitOn '\n').getLastD [] = (cs.reverse.takeWhile (· ≠ '\n')).reverse := by
  by_cases hmem : '\n' ∈ cs
  · obtain ⟨behind, front, hcs, hbehind⟩ :=
      List.eq_append_cons_of_mem (List.mem_reverse.2 hmem)
    have hsplit : cs = front.reverse ++ '\n' :: behind.reverse := by
      rw [← List.reverse_reverse cs, hcs]
      simp
    have hlast : '\n' ∉ behind.reverse := by simpa using hbehind
    rw [hcs, takeWhile_append_newline, takeWhile_ne_of_not_mem hbehind, hsplit,
      List.splitOn_append_cons_self, List.splitOn_eq_singleton hlast]
    simp [List.getLastD_eq_getLast?]
  · have hreverse : '\n' ∉ cs.reverse := by simpa using hmem
    rw [List.splitOn_eq_singleton hmem, takeWhile_ne_of_not_mem hreverse]
    simp

/-- The place of the end of a text, with its lines split off at line feeds. -/
theorem Place.ofOffset_length (s : String) :
    (⟨(s.splitOn "\n").length, ((s.splitOn "\n").getLastD "").length + 1, s.length⟩ : Place) =
      .ofOffset s.toList s.length := by
  have htake : s.toList.take s.length = s.toList := by
    rw [← String.length_toList]
    exact List.take_length
  have hlast : (((s.toList.splitOn '\n').map String.ofList).getLastD "") =
      String.ofList ((s.toList.splitOn '\n').getLastD []) := by
    rw [List.getLastD_eq_getLast?, List.getLastD_eq_getLast?, List.getLast?_map]
    cases (s.toList.splitOn '\n').getLast? <;> rfl
  rw [ofOffset, htake, splitOn_newline, List.length_map, length_lines, hlast, last_line,
    String.length_ofList, List.length_reverse]
  simp only [Nat.cast_add, Nat.cast_one, add_comm]

end MonkeyFormat
