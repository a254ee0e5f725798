import MonkeyFormat.Proofs.FlatGroups

set_option autoImplicit false

/-! # A fill of words is wrapped greedily

A fill decides each of its separators when the renderer has come to the word before it: the space
stays if that word, the space and the next word fit into the rest of the line. The column at which
the word stands makes this the test of greedy wrapping, which puts a word on the line that has been
begun as long as there is room for it. So the text of a fill is that of the lines that greedy
wrapping makes of its words. -/

namespace MonkeyFormat

namespace Doc

/-! ## Greedy wrapping -/

/-- The text of a line with the given words. -/
def lineText (line : List String) : String := " ".intercalate line

/-- The lines that come of putting words behind those of a line that has been begun: a word goes on
the line if a space and the word fit behind it, and begins the next line if not. -/
def wrapFrom (width : Int) (line : List String) : List String → List (List String)
  | [] => [line]
  | word :: words =>
    if (lineText line).length + 1 + word.length ≤ width then wrapFrom width (line ++ [word]) words
    else line :: wrapFrom width [word] words

/-- The lines of greedy wrapping, each with its words. -/
def wrap (width : Int) : List String → List (List String)
  | [] => []
  | word :: words => wrapFrom width [word] words

/-- The text of several lines. -/
def linesText (lines : List (List String)) : String := "\n".intercalate (lines.map lineText)

variable {width : Int}

theorem wrapFrom_ne_nil (line words : List String) : wrapFrom width line words ≠ [] := by
  induction words generalizing line with
  | nil => simp [wrapFrom]
  | cons word words ih =>
    rw [wrapFrom]
    split
    · exact ih _
    · simp

theorem lineText_append {line : List String} (h : line ≠ []) (word : String) :
    lineText (line ++ [word]) = lineText line ++ " " ++ word := by
  simp [lineText, String.intercalate_append_of_ne_nil h]

theorem length_lineText_append {line : List String} (h : line ≠ []) (word : String) :
    (lineText (line ++ [word])).length = (lineText line).length + 1 + word.length := by
  rw [lineText_append h, String.length_append, String.length_append]
  rfl

theorem linesText_cons {lines : List (List String)} (line : List String) (h : lines ≠ []) :
    linesText (line :: lines) = lineText line ++ "\n" ++ linesText lines := by
  simp [linesText, String.intercalate_cons_of_ne_nil, h]

/-- Wrapping keeps the words and their order. -/
theorem flatten_wrapFrom (line words : List String) :
    (wrapFrom width line words).flatten = line ++ words := by
  induction words generalizing line with
  | nil => simp [wrapFrom]
  | cons word words ih =>
    rw [wrapFrom]
    split <;> simp [ih]

/-- A line of several words fits, if the one that was begun does. -/
theorem length_le_of_mem_wrapFrom {line words : List String} (hne : line ≠ [])
    (hline : 2 ≤ line.length → (lineText line).length ≤ width) :
    ∀ l ∈ wrapFrom width line words,
      l ≠ [] ∧ (2 ≤ l.length → (lineText l).length ≤ width) := by
  induction words generalizing line with
  | nil =>
    intro l hl
    rw [wrapFrom, List.mem_singleton] at hl
    subst hl
    exact ⟨hne, hline⟩
  | cons word words ih =>
    rw [wrapFrom]
    by_cases hroom : (lineText line).length + 1 + word.length ≤ width
    · rw [if_pos hroom]
      apply ih (by simp)
      intro _
      rw [length_lineText_append hne]
      exact_mod_cast hroom
    · rw [if_neg hroom]
      intro l hl
      rcases List.mem_cons.1 hl with rfl | hl
      · exact ⟨hne, hline⟩
      · exact ih (by simp) (by simp) l hl

/-- The first word of the next line does not fit behind a line. -/
def Full (width : Int) (line next : List String) : Prop :=
  ∀ word ∈ next.head?, width < (lineText line).length + 1 + word.length

theorem head?_wrapFrom {line words : List String} (hne : line ≠ []) :
    ∀ l ∈ (wrapFrom width line words).head?, l.head? = line.head? := by
  induction words generalizing line with
  | nil => simp [wrapFrom]
  | cons word words ih =>
    rw [wrapFrom]
    split
    · intro l hl
      rw [ih (by simp) l hl, List.head?_append_of_ne_nil _ hne]
    · simp

/-- No word could have stayed on the line before its own. -/
theorem isChain_wrapFrom {line words : List String} (hne : line ≠ []) :
    (wrapFrom width line words).IsChain (Full width) := by
  induction words generalizing line with
  | nil => simp [wrapFrom]
  | cons word words ih =>
    rw [wrapFrom]
    by_cases hroom : (lineText line).length + 1 + word.length ≤ width
    · rw [if_pos hroom]
      exact ih (by simp)
    · rw [if_neg hroom, List.isChain_cons]
      refine ⟨?_, ih (by simp)⟩
      intro next hnext first hfirst
      rw [head?_wrapFrom (by simp) next hnext] at hfirst
      obtain rfl : word = first := by simpa using hfirst
      exact not_le.1 hroom

/-! ## What the renderer does with words -/

/-- A word: a text that is not empty and has no blanks and line breaks. -/
structure IsWord (word : String) : Prop where
  nonempty : word ≠ ""
  solid : ∀ c ∈ word.toList, c ≠ ' ' ∧ c ≠ '\t' ∧ c ≠ '\n'

instance decidableIsWord (word : String) : Decidable (IsWord word) :=
  decidable_of_iff
    (word ≠ "" ∧ (word.toList.all fun c => c ≠ ' ' && c ≠ '\t' && c ≠ '\n') = true)
    ⟨fun h => ⟨h.1, by simpa [and_assoc] using h.2⟩,
      fun h => ⟨h.nonempty, by simpa [and_assoc] using h.solid⟩⟩

/-- Words with separators between them that are spaces or line breaks. -/
def wordParts (words : List String) : List Doc := (words.map .bare).intersperse .space

theorem wordParts_cons (word : String) (words : List String) :
    ∃ more, wordParts (word :: words) = .bare word :: more := by
  cases words with
  | nil => exact ⟨[], rfl⟩
  | cons next words => exact ⟨_, rfl⟩

theorem IsWord.not_multiline {word : String} (h : IsWord word) : (!isMultiline word) = true := by
  have hmem : '\n' ∉ word.toList := fun hmem => (h.solid _ hmem).2.2 rfl
  simpa [isMultiline] using hmem

/-- Nothing is trimmed behind a word. -/
theorem trim_push_word {word : String} (out : Output) (h : IsWord word) :
    (out.push word).trim = out.push word := by
  have hne : word.toList ≠ [] := by simpa using h.nonempty
  have hlast := h.solid _ (List.getLast_mem hne)
  have hkept : ¬ Output.isTrailing (word.toList.getLast hne) = true := by
    simp [Output.isTrailing, hlast]
  rw [Output.push, ← List.dropLast_append_getLast hne, List.reverse_append,
    List.reverse_singleton, List.append_assoc, List.singleton_append, Output.trim,
    List.dropWhile_cons_of_neg hkept]

theorem push_append (out : Output) (s t : String) : out.push (s ++ t) = (out.push s).push t := by
  simp [Output.push]

/-- A word fits with a space and the next word behind it if there is room for their lengths. -/
theorem fits_pair {word next : String} {ind room : Int} (hword : IsWord word)
    (hnext : IsWord next) :
    fits true false room [⟨ind, .flat, .list [.bare word, .space, .bare next]⟩] [] =
      decide (word.length + 1 + next.length ≤ room) := by
  have hbreak := firstBreak?_of_not_multiline hword.not_multiline
  have hbreak' := firstBreak?_of_not_multiline hnext.not_multiline
  simp only [fits, framesOf, List.map_cons, List.map_nil, List.cons_append, List.nil_append, hbreak,
    hbreak', space]
  by_cases hroom : (word.length : Int) + 1 + next.length ≤ room
  · simp [hroom]
    omega
  · simp [hroom]
    omega

/-- How the separator behind a word is laid out: as a space if the next word fits. -/
def separatorMode (width column : Int) (next : String) : Mode :=
  if column + 1 + next.length ≤ width then .flat else .breaking

variable {w : Widths} {word next front : String} {words : List String} {out : Output}

/-- At a fill with a single word, the renderer writes the word. -/
theorem finish_lastWord {col : Int} :
    Rendering.finish w ⟨out, col, [], [⟨0, .breaking, .fill (wordParts [word])⟩]⟩ =
      out.push word := by
  rw [(Turn.fill _).finish_eq]
  exact (Turn.bare word).finish_eq.trans (Rendering.finish_of_done w ⟨rfl, rfl⟩)

/-- At a fill with more words, the renderer writes the first of them and comes to the separator,
which it has decided. -/
theorem finish_firstWord (hword : IsWord word) (hnext : IsWord next) :
    Rendering.finish w ⟨out.push front, front.length, [],
        [⟨0, .breaking, .fill (wordParts (word :: next :: words))⟩]⟩ =
      Rendering.finish w ⟨out.push (front ++ word), (front ++ word).length, [],
        [⟨0, separatorMode w.line (front ++ word).length next, .space⟩,
          ⟨0, .breaking, .fill (wordParts (next :: words))⟩]⟩ := by
  obtain ⟨more, hmore⟩ := wordParts_cons next words
  have hparts : wordParts (word :: next :: words) =
      .bare word :: .space :: wordParts (next :: words) := rfl
  have hmode : (if word.length + 1 + next.length ≤ w.line - front.length then Mode.flat
      else .breaking) = separatorMode w.line (front ++ word).length next := by
    simp only [separatorMode, String.length_append, Nat.cast_add]
    congr 1
    simp only [eq_iff_iff]
    omega
  have hcol : columnAfter front.length word = ((front ++ word).length : Int) := by
    simp [columnAfter_of_not_multiline _ hword.not_multiline]
  rw [(Turn.fill _).finish_eq, hparts, hmore, fillFrames]
  simp only [fits_pair hword hnext, decide_eq_true_eq, hmode, List.cons_append, List.nil_append]
  rw [(Turn.bare word).finish_eq, hcol, push_append]

/-- At a fill with the front of a line before it, the renderer writes the lines that wrapping makes
of the line with the first word and of the other words. -/
theorem finish_words (hwords : ∀ word ∈ words, IsWord word) {line : List String}
    (hne : line ≠ []) (hword : IsWord word) (hline : lineText line = front ++ word) :
    Rendering.finish w ⟨out.push front, front.length, [],
        [⟨0, .breaking, .fill (wordParts (word :: words))⟩]⟩ =
      out.push (linesText (wrapFrom w.line line words)) := by
  -- Behind each word the renderer stands before a shorter fill, with a longer front or a new line.
  induction words generalizing word front line out with
  | nil =>
    rw [finish_lastWord, ← push_append, ← hline, wrapFrom]
    simp [linesText]
  | cons next words ih =>
    have hnext : IsWord next := hwords next List.mem_cons_self
    have hrest : ∀ word ∈ words, IsWord word := fun word h =>
      hwords word (List.mem_cons_of_mem next h)
    rw [finish_firstWord hword hnext, ← hline, wrapFrom, separatorMode]
    by_cases hroom : (lineText line).length + 1 + next.length ≤ w.line
    · rw [if_pos hroom, if_pos hroom]
      have hspace : ((lineText line).length : Int) + 1 = (lineText line ++ " ").length := by
        rw [String.length_append]
        rfl
      refine Turn.space.finish_eq.trans ?_
      rw [← push_append, hspace]
      exact ih hrest (by simp) hnext (lineText_append hne next)
    · rw [if_neg hroom, if_neg hroom, linesText_cons line (wrapFrom_ne_nil _ _), push_append,
        push_append]
      refine (Turn.newline .space (by simp)).finish_eq.trans ?_
      have hbroken :
          (out.push (lineText line)).newline 0 = (out.push (lineText line)).push "\n" := by
        rw [Output.newline, hline, push_append, trim_push_word _ hword]
        rfl
      rw [hbroken]
      change Rendering.finish w ⟨Output.push ((out.push (lineText line)).push "\n") "",
        ("" : String).length, [], [⟨0, .breaking, .fill (wordParts (next :: words))⟩]⟩ = _
      exact ih hrest (by simp) hnext rfl

/-! ## The text of a fill -/

theorem mem_wordParts {d : Doc} (h : d ∈ wordParts words) :
    d = .space ∨ ∃ word ∈ words, d = .bare word := by
  induction words with
  | nil => cases h
  | cons word words ih =>
    cases words with
    | nil => exact .inr ⟨word, List.mem_cons_self, List.mem_singleton.1 h⟩
    | cons next words =>
      rcases List.mem_cons.1 h with rfl | h
      · exact .inr ⟨word, List.mem_cons_self, rfl⟩
      rcases List.mem_cons.1 h with rfl | h
      · exact .inl rfl
      · rcases ih h with hd | ⟨later, hlater, hd⟩
        · exact .inl hd
        · exact .inr ⟨later, List.mem_cons_of_mem word hlater, hd⟩

/-- Documents that hold no forced break and no group are left as they are. -/
theorem propagateAll_eq_self {ds : List Doc} (h : ∀ d ∈ ds, d.propagate = .ok (d, false)) :
    propagateAll ds = .ok (ds, false) := by
  induction ds with
  | nil => rfl
  | cons d ds ih =>
    rw [propagateAll, h d List.mem_cons_self, ih fun e he => h e (List.mem_cons_of_mem d he)]
    rfl

theorem propagateBreaks_words (hwords : ∀ word ∈ words, IsWord word) :
    (Doc.fill (wordParts words)).propagateBreaks = .ok (.fill (wordParts words)) := by
  have hparts : propagateAll (wordParts words) = .ok (wordParts words, false) := by
    apply propagateAll_eq_self
    intro d hd
    rcases mem_wordParts hd with rfl | ⟨word, hword, rfl⟩
    · rfl
    · have hsingle : isMultiline word = false := by simpa using (hwords word hword).not_multiline
      rw [propagate, hsingle]
      rfl
  rw [propagateBreaks, propagate, hparts]
  rfl

/-- Wrapped words end with one of them. -/
theorem linesText_wrapFrom {line words : List String} (hne : line ≠ []) :
    ∃ front, ∃ last ∈ line ++ words,
      linesText (wrapFrom width line words) = front ++ last := by
  induction words generalizing line with
  | nil =>
    obtain ⟨before, last, rfl⟩ := (List.eq_nil_or_concat' line).resolve_left hne
    have htext :
        linesText (wrapFrom width (before ++ [last]) []) = lineText (before ++ [last]) := by
      simp [wrapFrom, linesText]
    by_cases hbefore : before = []
    · subst hbefore
      exact ⟨"", last, by simp, by rw [htext]; simp [lineText]⟩
    · exact ⟨lineText before ++ " ", last, by simp, by rw [htext, lineText_append hbefore]⟩
  | cons word words ih =>
    rw [wrapFrom]
    split
    · have hlonger : line ++ [word] ≠ [] := by simp
      obtain ⟨front, last, hlast, htext⟩ := ih hlonger
      exact ⟨front, last, by simpa using hlast, htext⟩
    · obtain ⟨front, last, hlast, htext⟩ := ih (List.cons_ne_nil word [])
      refine ⟨lineText line ++ "\n" ++ front, last, List.mem_append_right line hlast, ?_⟩
      rw [linesText_cons line (wrapFrom_ne_nil _ _), htext, ← String.append_assoc]

/-- A fill of words is rendered as the lines of greedy wrapping. These hold the words in their
order; a line of several words fits into the width, and the first word of the next line would not
have fitted behind it. -/
theorem render_fill_wraps (w : Widths) {words : List String}
    (hwords : ∀ word ∈ words, IsWord word) :
    (Doc.fill (wordParts words)).render w = .ok (linesText (wrap w.line words)) ∧
      (wrap w.line words).flatten = words ∧
      (∀ line ∈ wrap w.line words,
        line ≠ [] ∧ (2 ≤ line.length → (lineText line).length ≤ w.line)) ∧
      (wrap w.line words).IsChain (Full w.line) := by
  cases words with
  | nil =>
    have htext : (Doc.fill (wordParts [])).render w = .ok "" := by
      have hrun : run w [] 0 [] [⟨0, .breaking, .fill (wordParts [])⟩] = [] :=
        (Turn.fill (w := w) []).finish_eq.trans (Rendering.finish_of_done w ⟨rfl, rfl⟩)
      rw [render, propagateBreaks_words hwords]
      change Except.ok (Output.toText
        (run w [] 0 [] [⟨0, .breaking, .fill (wordParts [])⟩])) = _
      rw [hrun]
      rfl
    exact ⟨htext, rfl, by simp [wrap], by simp [wrap]⟩
  | cons word words =>
    have hword : IsWord word := hwords word List.mem_cons_self
    have hrest : ∀ word ∈ words, IsWord word := fun next h =>
      hwords next (List.mem_cons_of_mem word h)
    refine ⟨?_, flatten_wrapFrom _ _, length_le_of_mem_wrapFrom (by simp) (by simp),
      isChain_wrapFrom (by simp)⟩
    obtain ⟨front, last, hlast, htext⟩ : ∃ front, ∃ last ∈ [word] ++ words,
        linesText (wrapFrom w.line [word] words) = front ++ last :=
      linesText_wrapFrom (List.cons_ne_nil word [])
    have hfinish : Rendering.finish w ⟨Output.push [] "", ("" : String).length, [],
          [⟨0, .breaking, .fill (wordParts (word :: words))⟩]⟩ =
        Output.push [] (linesText (wrapFrom w.line [word] words)) :=
      finish_words hrest (List.cons_ne_nil word []) hword rfl
    have hlastWord : IsWord last := hwords last (by simpa using hlast)
    rw [render, propagateBreaks_words hwords]
    change Except.ok
      (Output.toText (Rendering.finish w ⟨Output.push [] "", ("" : String).length, [],
      [⟨0, .breaking, .fill (wordParts (word :: words))⟩]⟩)) = _
    rw [hfinish, Output.toText, htext, push_append, trim_push_word _ hlastWord, ← push_append]
    simp [wrap, htext, Output.push]

/-- A line that is filled to its last column, and a word that is longer than a line. -/
theorem render_fill_wraps_long_word :
    (∀ word ∈ ["aa", "b", "cccccc", "d"], IsWord word) ∧
      (Doc.fill (wordParts ["aa", "b", "cccccc", "d"])).render ⟨4, 2⟩ =
        .ok "aa b\ncccccc\nd" := by
  have hwords : ∀ word ∈ ["aa", "b", "cccccc", "d"], IsWord word := by decide +kernel
  have hlines : wrap 4 ["aa", "b", "cccccc", "d"] = [["aa", "b"], ["cccccc"], ["d"]] := by decide
  have hjoined : linesText [["aa", "b"], ["cccccc"], ["d"]] = "aa b\ncccccc\nd" := by decide +kernel
  obtain ⟨htext, -⟩ := render_fill_wraps ⟨4, 2⟩ hwords
  rw [hlines, hjoined] at htext
  exact ⟨hwords, htext⟩

end Doc

end MonkeyFormat
