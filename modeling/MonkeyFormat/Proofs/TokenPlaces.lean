import MonkeyFormat.Proofs.Lexing
import MonkeyFormat.Proofs.ParsedShape

set_option autoImplicit false

/-! # Where tokens and comments stand

Tokens and comments are passed one after the other, so no token starts or ends inside a comment.
With that, the edges of a parsed tree are known to be outside of comments. -/

namespace MonkeyFormat

/-! ## The texts of tokens -/

namespace Lexeme

theorem ne_slash_of_isDigit {c : Char} (h : Text.isDigit c = true) : c ≠ '/' := by
  rintro rfl
  exact absurd h (by decide +kernel)

theorem ne_slash_of_isHexDigit {c : Char} (h : isHexDigit c = true) : c ≠ '/' := by
  rintro rfl
  exact absurd h (by decide)

theorem ne_slash_of_inWord {c : Char} (h : inWord c = true) : c ≠ '/' := by
  rintro rfl
  exact absurd h (by decide +kernel)

theorem not_mem_takeWhile {p : Char → Bool} (hp : ∀ c, p c = true → c ≠ '/') (cs : List Char) :
    '/' ∉ cs.takeWhile p := by
  intro h
  exact hp _ (List.all_eq_true.1 List.all_takeWhile _ h) rfl

theorem not_mem_filter {p : Char → Bool} (hp : ∀ c, p c = true → c ≠ '/') (cs : List Char) :
    '/' ∉ cs.filter p := by
  intro h
  exact hp _ (List.mem_filter.1 h).2 rfl

theorem not_mem_fraction (b : Bool) (cs : List Char) : '/' ∉ fraction b cs := by
  unfold fraction
  split
  · split
    · simpa using not_mem_takeWhile (fun _ => ne_slash_of_isDigit) _
    · split <;> simp
  · simp

theorem not_mem_exponent (cs : List Char) : '/' ∉ exponent cs := by
  have hdigits := not_mem_takeWhile (fun _ => ne_slash_of_isDigit)
  unfold exponent
  split
  · next e cs =>
    split
    · next he =>
      have hmark : '/' ≠ e := by
        rintro rfl
        exact absurd he (by decide)
      split
      · simpa [hmark] using hdigits cs
      · cases cs with
        | nil => simp
        | cons sign ds =>
          dsimp only
          split
          · next hsign =>
            have hne : '/' ≠ sign := by
              rintro rfl
              simp at hsign
            simpa [hmark, hne] using hdigits ds
          · simp
    · simp
  · simp

/-- What a decimal number consists of. -/
theorem decimalNumeral_eq {cs taken : List Char} {kind : TokenKind}
    (h : decimalNumeral cs = .number kind taken) :
    (kind = .number ∨ kind = .float) ∧ ∃ (rest ds : List Char) (es : Bool),
      taken = cs.takeWhile Text.isDigit ++
        fraction (!(cs.takeWhile Text.isDigit).isEmpty)
          (cs.drop (cs.takeWhile Text.isDigit).length) ++
          exponent rest ++ ds.filter fun c => isFloatSuffix c || (es && isLongSuffix c) := by
  simp only [decimalNumeral] at h
  split at h
  · split at h
    · cases h
    · cases h
      exact ⟨by split <;> simp, _, _, _, rfl⟩
  · cases h
    exact ⟨by split <;> simp, _, _, _, rfl⟩

theorem hexNumeral_eq {mark cs taken : List Char} {kind : TokenKind}
    (h : hexNumeral mark cs = .number kind taken) :
    kind = .number ∧
      ∃ ds : List Char, taken = mark ++ cs.takeWhile isHexDigit ++ ds.filter isLongSuffix := by
  simp only [hexNumeral] at h
  split at h
  · cases h
  · cases h
    exact ⟨rfl, _, rfl⟩

/-- A number has something in it, but no slash. -/
theorem numeral_eq {c : Char} {cs taken : List Char} {kind : TokenKind}
    (hstart : (Text.isDigit c || (c = '.' && startsDigit cs)) = true)
    (h : numeral (c :: cs) = .number kind taken) :
    (kind = .number ∨ kind = .float) ∧ '/' ∉ taken ∧ taken ≠ [] := by
  have hdigits := not_mem_takeWhile (fun _ => ne_slash_of_isDigit)
  have hlong : ∀ c, isLongSuffix c = true → c ≠ '/' := by
    rintro _ h rfl
    exact absurd h (by decide)
  have hdecimal (h : decimalNumeral (c :: cs) = .number kind taken) :
      (kind = .number ∨ kind = .float) ∧ '/' ∉ taken ∧ taken ≠ [] := by
    obtain ⟨hkind, rest, ds, b, rfl⟩ := decimalNumeral_eq h
    refine ⟨hkind, ?_, ?_⟩
    · have hsuffix : '/' ∉ ds.filter fun c => isFloatSuffix c || (b && isLongSuffix c) := by
        refine not_mem_filter ?_ ds
        rintro _ h rfl
        cases b <;> exact absurd h (by decide)
      simp only [List.mem_append, not_or]
      exact ⟨⟨⟨hdigits _, not_mem_fraction _ _⟩, not_mem_exponent _⟩, hsuffix⟩
    · by_cases hc : Text.isDigit c = true
      · simp [hc]
      · rw [Bool.eq_false_iff.2 hc, Bool.false_or, Bool.and_eq_true, decide_eq_true_eq] at hstart
        obtain ⟨rfl, hstart⟩ := hstart
        simp [hc, fraction, hstart]
  unfold numeral at h
  split at h
  · next x ds heq =>
    split at h
    · next hx =>
      obtain ⟨rfl, es, rfl⟩ := hexNumeral_eq h
      have hmark : '/' ≠ x := by
        rintro rfl
        exact absurd hx (by decide)
      refine ⟨.inl rfl, ?_, by simp⟩
      have hhex := not_mem_takeWhile (fun _ => ne_slash_of_isHexDigit) ds
      have hsuffix := not_mem_filter hlong es
      simp only [List.mem_append, List.mem_cons, List.not_mem_nil, or_false, not_or]
      exact ⟨⟨⟨by decide, hmark⟩, hhex⟩, hsuffix⟩
    · rw [← heq] at h
      exact hdecimal h
  · exact hdecimal h

/-- What the shape of a tree takes from the text of a token. -/
structure Spelling (kind : TokenKind) (taken : List Char) : Prop where
  nonempty : taken ≠ []
  double : kind = .shiftRight → String.ofList taken = ">>"
  text : Text.opensComment (String.ofList taken) = false
  solid : kind ∈ [TokenKind.number, .float, .literal, .access] → '/' ∉ taken

theorem text_of_shiftRight {s : String} (h : TokenKind.ofText? s = some .shiftRight) :
    s = ">>" := by
  have hall : ∀ r ∈ reserved, TokenKind.ofText? r = some .shiftRight → r = ">>" := by
    decide +kernel
  exact hall s (mem_reserved_of_ofText? h) h

theorem spelling_of_solid {kind : TokenKind} {taken : List Char} (hne : taken ≠ [])
    (hdouble : kind = .shiftRight → String.ofList taken = ">>") (h : '/' ∉ taken) :
    Spelling kind taken :=
  ⟨hne, hdouble, Text.opensComment_of_not_mem (by rwa [String.toList_ofList]), fun _ => h⟩

theorem spelling_of_reserved {kind : TokenKind} {taken : List Char}
    (h : TokenKind.ofText? (String.ofList taken) = some kind) : Spelling kind taken := by
  have hall : ∀ r ∈ reserved, r ≠ "" ∧ Text.opensComment r = false ∧
      ('/' ∈ r.toList → ∀ k ∈ [TokenKind.number, .float, .literal, .access],
        TokenKind.ofText? r ≠ some k) := by decide +kernel
  obtain ⟨hne, htext, hsolid⟩ := hall _ (mem_reserved_of_ofText? h)
  refine ⟨?_, ?_, htext, fun hkind hmem => ?_⟩
  · rintro rfl
    exact hne rfl
  · rintro rfl
    exact text_of_shiftRight h
  · exact hsolid (by rwa [String.toList_ofList]) kind hkind h

theorem symbol?_eq_some {cs taken : List Char} {kind : TokenKind}
    (h : symbol? cs = some (kind, taken)) :
    TokenKind.ofText? (String.ofList taken) = some kind := by
  obtain ⟨n, _, hn⟩ := List.exists_of_findSome?_eq_some h
  split at hn
  · obtain ⟨k, hk, heq⟩ := Option.map_eq_some_iff.1 hn
    cases heq
    exact hk
  · cases hn

/-- A symbol has three characters at most. -/
theorem symbol?_eq_take {cs taken : List Char} {kind : TokenKind}
    (h : symbol? cs = some (kind, taken)) : ∃ n ≤ 3, taken = cs.take n := by
  obtain ⟨n, hmem, hn⟩ := List.exists_of_findSome?_eq_some h
  split at hn
  · obtain ⟨k, -, heq⟩ := Option.map_eq_some_iff.1 hn
    cases heq
    simp only [List.mem_cons, List.not_mem_nil, or_false] at hmem
    exact ⟨n, by omega, rfl⟩
  · cases hn

/-- A token is never empty, and does not start like a comment. -/
theorem spelling_of_front {cs taken : List Char} {kind : TokenKind}
    (h : front? cs = some (kind, taken)) : Spelling kind taken := by
  cases cs with
  | nil => cases h
  | cons c cs =>
    simp only [front?] at h
    split at h
    · next hword =>
      cases h
      refine spelling_of_solid ?_ ?_ (not_mem_takeWhile (fun _ => ne_slash_of_inWord) _)
      · simp [word, inWord_of_startsWord hword]
      · intro hkind
        cases htext : TokenKind.ofText? (String.ofList (word (c :: cs))) with
        | none =>
          rw [htext] at hkind
          cases hkind
        | some k =>
          rw [htext] at hkind
          cases hkind
          exact text_of_shiftRight htext
    split at h
    · next hdigit =>
      split at h
      · next k t hnumeral =>
        cases h
        obtain ⟨hkind, hslash, hne⟩ := numeral_eq hdigit hnumeral
        refine spelling_of_solid hne ?_ hslash
        rcases hkind with rfl | rfl <;> exact fun h => absurd h (by decide)
      · cases h
    split at h
    · next hquote =>
      split at h
      · cases h
        simp only [Bool.or_eq_true, decide_eq_true_eq] at hquote
        rcases hquote with rfl | rfl
        · exact ⟨by simp, fun h => absurd h (by decide), by simp [Text.opensComment],
            fun h => absurd h (by decide)⟩
        · exact ⟨by simp, fun h => absurd h (by decide), by simp [Text.opensComment],
            fun h => absurd h (by decide)⟩
      · cases h
    · cases hsymbol : symbol? (c :: cs) with
      | some kt =>
        obtain ⟨k, t⟩ := kt
        rw [hsymbol] at h
        cases h
        exact spelling_of_reserved (symbol?_eq_some hsymbol)
      | none =>
        rw [hsymbol] at h
        cases h
        refine ⟨by simp, fun h => absurd h (by decide), ?_, fun h => absurd h (by decide)⟩
        unfold Text.opensComment
        rw [String.toList_ofList]
        split <;> simp_all

/-- Words with a kind of their own and symbols are reserved; the other tokens are identifiers,
numbers, quoted literals and characters that belong to no token. -/
theorem reserved_of_front {cs taken : List Char} {kind : TokenKind}
    (h : front? cs = some (kind, taken)) :
    TokenKind.ofText? (String.ofList taken) = some kind ∨
      kind ∈ [TokenKind.ident, .number, .float, .string, .char, .unknown] := by
  cases cs with
  | nil => cases h
  | cons c cs =>
    simp only [front?] at h
    split at h
    · cases h
      cases htext : TokenKind.ofText? (String.ofList (word (c :: cs))) with
      | none => exact .inr (by decide)
      | some k => exact .inl rfl
    split at h
    · next hdigit =>
      split at h
      · next hnumeral =>
        cases h
        rcases (numeral_eq hdigit hnumeral).1 with rfl | rfl <;> exact .inr (by decide)
      · cases h
    split at h
    · split at h
      · cases h
        right
        split <;> decide
      · cases h
    · cases hsymbol : symbol? (c :: cs) with
      | none =>
        rw [hsymbol] at h
        cases h
        exact .inr (by decide)
      | some kt =>
        rw [hsymbol] at h
        cases h
        exact .inl (symbol?_eq_some hsymbol)

end Lexeme

/-! ## The lexer's way through a text -/

/-- The place is not inside a comment. -/
def Clear (comments : List Comment) (e : Int) : Prop :=
  0 ≤ e ∧ ∀ c ∈ comments, e ≤ c.span.start ∨ c.span.stop ≤ e

/-- The comment is a line or block comment and stands in a text of the given size. -/
structure Comment.Within (size : Nat) (c : Comment) : Prop where
  known : c.kind = "Line" ∨ c.kind = "Block"
  first : 0 ≤ c.span.start
  order : c.span.start < c.span.stop
  last : c.span.stop ≤ size

namespace Lexer

/-- The lexer stands in a text, and the comments it has passed are behind it. -/
structure Stands (cs : List Char) (lx : Lexer) : Prop where
  offset : lx.place.offset = lx.before.length
  rest : lx.rest = cs.drop lx.before.length
  within : ∀ c ∈ lx.comments, c.Within cs.length
  passed : ∀ c ∈ lx.comments, c.span.stop ≤ lx.place.offset

/-- On its way from one state to another the lexer passes comments only ahead of it. -/
structure Reaches (lx lx' : Lexer) : Prop where
  offset : lx.place.offset ≤ lx'.place.offset
  comments : ∀ c ∈ lx'.comments, c ∈ lx.comments ∨ lx.place.offset ≤ c.span.start

theorem Reaches.refl (lx : Lexer) : Reaches lx lx := ⟨Int.le_refl _, fun _ hc => .inl hc⟩

theorem Reaches.trans {lx lx' lx'' : Lexer} (h : Reaches lx lx') (h' : Reaches lx' lx'') :
    Reaches lx lx'' := by
  refine ⟨Int.le_trans h.offset h'.offset, fun c hc => ?_⟩
  rcases h'.comments c hc with hc | hc
  · exact h.comments c hc
  · exact .inr (Int.le_trans h.offset hc)

theorem offset_after (p : Place) (taken : List Char) :
    (p.after taken).offset = p.offset + taken.length := by
  unfold Place.after
  induction taken generalizing p with
  | nil => simp
  | cons c cs ih =>
    have hnext : (p.next c).offset = p.offset + 1 := by
      unfold Place.next
      split <;> rfl
    rw [List.foldl_cons, ih, hnext, List.length_cons]
    omega

theorem offset_passed (lx : Lexer) (taken : List Char) :
    (lx.passed taken).place.offset = lx.place.offset + taken.length := offset_after lx.place taken

section

variable {cs : List Char} {lx : Lexer}

theorem Stands.pass (h : lx.Stands cs) (taken : List Char) : (lx.passed taken).Stands cs where
  offset := by
    rw [offset_passed, h.offset]
    simp only [Lexer.passed, List.length_append, List.length_reverse]
    omega
  rest := by
    simp only [Lexer.passed, List.length_append, List.length_reverse, h.rest, List.drop_drop]
    rw [Nat.add_comm]
  within := h.within
  passed := by
    intro c hc
    have hpassed := h.passed c hc
    rw [offset_passed]
    omega

theorem reaches_passed (lx : Lexer) (taken : List Char) : Reaches lx (lx.passed taken) := by
  refine ⟨?_, fun _ hc => .inl hc⟩
  rw [offset_passed]
  omega

/-- Passing a comment. -/
theorem Stands.comment (h : lx.Stands cs) {kind : String} (hkind : kind = "Line" ∨ kind = "Block")
    (value : String) {taken : List Char} (hne : taken ≠ [])
    (hlength : taken.length ≤ lx.rest.length) :
    Stands cs { lx.passed taken with
      comments := ⟨kind, value, lx.place.upTo (lx.passed taken).place⟩ :: lx.comments } ∧
    Reaches lx { lx.passed taken with
      comments := ⟨kind, value, lx.place.upTo (lx.passed taken).place⟩ :: lx.comments } := by
  have hpass := h.pass taken
  have hstop := offset_passed lx taken
  have hoffset := h.offset
  have hpos : 0 < taken.length := List.length_pos_iff.2 hne
  have hrest := congrArg List.length h.rest
  rw [List.length_drop] at hrest
  refine ⟨⟨hpass.offset, hpass.rest, fun c hc => ?_, fun c hc => ?_⟩, ⟨?_, fun c hc => ?_⟩⟩
  · rcases List.mem_cons.1 hc with rfl | hc
    · refine ⟨hkind, ?_, ?_, ?_⟩ <;> simp only [Place.upTo] <;> omega
    · exact h.within c hc
  · rcases List.mem_cons.1 hc with rfl | hc
    · exact Int.le_refl _
    · exact hpass.passed c hc
  · exact (reaches_passed lx taken).offset
  · rcases List.mem_cons.1 hc with rfl | hc
    · exact .inr (Int.le_refl _)
    · exact .inl hc

theorem run_lineComment {c d : Char} {ds : List Char} (h : lx.rest = c :: d :: ds) :
    lineComment.run.run lx =
      let taken := c :: d :: ds.takeWhile fun c => !Lexeme.endsLine c
      (.ok (), { lx.passed taken with comments :=
        ⟨"Line", String.ofList (ds.takeWhile fun c => !Lexeme.endsLine c),
          lx.place.upTo (lx.passed taken).place⟩ :: lx.comments }) := by
  have hc := passed_rest_cons lx h
  have hd := passed_rest_cons (lx.passed [c]) hc
  unfold lineComment
  rw [run_bind_ok _ (run_get lx), run_bind_ok _ (run_advance h), run_bind_ok _ (run_advance hc),
    run_bind_ok _ (run_get _), hd, run_bind_ok _ (run_pass _ _), passed_passed, passed_passed]
  rfl

theorem length_blockBody {ds : List Char} (h : (Lexeme.blockBody ds).2 = true) :
    (Lexeme.blockBody ds).1.length + 2 ≤ ds.length := by
  induction ds with
  | nil => cases h
  | cons d ds ih =>
    unfold Lexeme.blockBody at h ⊢
    split
    · next hclose =>
      cases ds with
      | nil => simp at hclose
      | cons e es => simp
    · next hclose =>
      rw [if_neg hclose] at h
      have hlength := ih h
      simp only [List.length_cons]
      omega

theorem run_blockComment {c d : Char} {ds : List Char} (h : lx.rest = c :: d :: ds)
    {lx' : Lexer} (hrun : blockComment.run.run lx = (.ok (), lx')) :
    (Lexeme.blockBody ds).2 = true ∧
      let taken := c :: d :: ((Lexeme.blockBody ds).1 ++ ['*', '/'])
      lx' = { lx.passed taken with comments := ⟨"Block", String.ofList (Lexeme.blockBody ds).1,
        lx.place.upTo (lx.passed taken).place⟩ :: lx.comments } := by
  have hc := passed_rest_cons lx h
  have hd := passed_rest_cons (lx.passed [c]) hc
  unfold blockComment at hrun
  rw [run_bind_ok _ (run_get lx), run_bind_ok _ (run_advance h), run_bind_ok _ (run_advance hc),
    run_bind_ok _ (run_get _), hd] at hrun
  simp only at hrun
  rw [run_bind_ok _ (run_pass _ _), passed_passed, passed_passed] at hrun
  split at hrun
  · next hclosed =>
    rw [run_bind_ok _ (run_pass _ _), passed_passed] at hrun
    refine ⟨hclosed, ?_⟩
    simp only [List.cons_append, List.nil_append] at hrun
    cases hrun
    rfl
  · obtain ⟨_, _, _, hthrow⟩ := run_bind_eq_ok hrun
    cases hthrow

theorem stands_skipGapsWith (fuel : Nat) : ∀ {lx lx' : Lexer}, lx.Stands cs →
    (skipGapsWith fuel).run.run lx = (.ok (), lx') → lx'.Stands cs ∧ Reaches lx lx' := by
  induction fuel with
  | zero =>
    intro lx lx' h hrun
    cases hrun
    exact ⟨h, .refl lx⟩
  | succ fuel ih =>
    intro lx lx' h hrun
    unfold skipGapsWith at hrun
    rw [run_bind_ok _ (run_get lx)] at hrun
    split at hrun
    · next ds heq =>
      rw [run_bind_ok _ (run_lineComment heq)] at hrun
      obtain ⟨hstands, hreaches⟩ := h.comment (.inl rfl)
        (String.ofList (ds.takeWhile fun c => !Lexeme.endsLine c))
        (List.cons_ne_nil '/' ('/' :: ds.takeWhile fun c => !Lexeme.endsLine c)) (by
          rw [heq]
          simpa using (List.takeWhile_sublist _).length_le)
      obtain ⟨hstands', hreaches'⟩ := ih hstands hrun
      exact ⟨hstands', hreaches.trans hreaches'⟩
    · next ds heq =>
      obtain ⟨_, mid, hcomment, hrun⟩ := run_bind_eq_ok hrun
      obtain ⟨hclosed, rfl⟩ := run_blockComment heq hcomment
      have hlength := length_blockBody hclosed
      obtain ⟨hstands, hreaches⟩ := h.comment (.inr rfl) (String.ofList (Lexeme.blockBody ds).1)
        (List.cons_ne_nil '/' ('*' :: ((Lexeme.blockBody ds).1 ++ ['*', '/']))) (by
          rw [heq]
          simpa using hlength)
      obtain ⟨hstands', hreaches'⟩ := ih hstands hrun
      exact ⟨hstands', hreaches.trans hreaches'⟩
    · split at hrun
      · rw [run_bind_ok _ (run_get lx), run_bind_ok _ (run_pass _ _)] at hrun
        obtain ⟨hstands, hreaches⟩ := ih (h.pass _) hrun
        exact ⟨hstands, (reaches_passed lx _).trans hreaches⟩
      · cases hrun
        exact ⟨h, .refl lx⟩
    · cases hrun
      exact ⟨h, .refl lx⟩

/-- A token stands behind white space and comments, and is what the rest of the text starts
with. -/
theorem run_next_eq_ok {lx lx' : Lexer} {t : Token} (hrun : next.run.run lx = (.ok t, lx')) :
    ∃ mid, skipGaps.run.run lx = (.ok (), mid) ∧
      ((mid.rest = [] ∧ lx' = mid ∧ t = ⟨.endOfInput, "EOF", mid.place.upTo mid.place⟩) ∨
        ∃ kind taken, Lexeme.front? mid.rest = some (kind, taken) ∧ lx' = mid.passed taken ∧
          t = ⟨kind, String.ofList taken, mid.place.upTo (mid.passed taken).place⟩) := by
  unfold next at hrun
  obtain ⟨_, mid, hgaps, hrun⟩ := run_bind_eq_ok hrun
  refine ⟨mid, hgaps, ?_⟩
  rw [run_bind_ok _ (run_get mid)] at hrun
  cases hrest : mid.rest with
  | nil =>
    rw [hrest] at hrun
    cases hrun
    exact .inl ⟨rfl, rfl, rfl⟩
  | cons c ds =>
    right
    have hpass := passed_rest_cons mid hrest
    simp only [hrest] at hrun
    simp only [Lexeme.front?]
    split at hrun
    · next hword =>
      rw [run_token] at hrun
      cases hrun
      simp only [hword]
      exact ⟨_, _, rfl, rfl, rfl⟩
    · next hword =>
      split at hrun
      · next hdigit =>
        unfold number at hrun
        rw [run_bind_ok _ (run_get _), run_bind_ok _ (run_get _), hrest] at hrun
        cases hnumeral : Lexeme.numeral (c :: ds) with
        | number kind taken =>
          simp only [hnumeral] at hrun
          rw [run_token] at hrun
          cases hrun
          simp only [hword, hdigit]
          exact ⟨_, _, rfl, rfl, rfl⟩
        | badHex taken =>
          simp only [hnumeral] at hrun
          rw [run_bind_ok _ (run_pass _ _)] at hrun
          obtain ⟨_, _, _, hthrow⟩ := run_bind_eq_ok hrun
          cases hthrow
        | badEnd taken d =>
          simp only [hnumeral] at hrun
          rw [run_bind_ok _ (run_pass _ _)] at hrun
          obtain ⟨_, _, _, hthrow⟩ := run_bind_eq_ok hrun
          cases hthrow
      · next hdigit =>
        split at hrun
        · next hquote =>
          unfold quoted at hrun
          rw [run_bind_ok _ (run_get _), run_bind_ok _ (run_advance hrest),
            run_bind_ok _ (run_get _), hpass] at hrun
          simp only at hrun
          rw [run_bind_ok _ (run_pass _ _)] at hrun
          split at hrun
          · next hclosed =>
            rw [run_bind_ok _ (run_get _), passed_passed] at hrun
            cases hrun
            simp only [hword, hdigit, hquote, hclosed]
            exact ⟨_, _, rfl, rfl, rfl⟩
          · obtain ⟨_, _, _, hthrow⟩ := run_bind_eq_ok hrun
            cases hthrow
        · next hquote =>
          unfold symbol at hrun
          rw [bind_assoc, run_bind_ok _ (run_get _), hrest] at hrun
          simp only [hword, hdigit, hquote]
          cases hsymbol : Lexeme.symbol? (c :: ds) with
          | none =>
            simp only [hsymbol] at hrun
            cases hrun
            exact ⟨_, _, rfl, rfl, rfl⟩
          | some kt =>
            obtain ⟨kind, taken⟩ := kt
            simp only [hsymbol] at hrun
            rw [run_bind_ok _ (run_map_ok _ (run_token _ _ _))] at hrun
            cases hrun
            exact ⟨_, _, rfl, rfl, rfl⟩

/-- Every token is one that the lexer gave as its next. -/
theorem next_tokensWith (fuel : Nat) : ∀ {lx lx' : Lexer} {ts : List Token},
    (tokensWith fuel).run.run lx = (.ok ts, lx') →
      ∀ t ∈ ts, ∃ mid mid' : Lexer, next.run.run mid = (.ok t, mid') := by
  induction fuel with
  | zero =>
    intro lx lx' ts hrun
    cases hrun
  | succ fuel ih =>
    intro lx lx' ts hrun
    unfold tokensWith at hrun
    obtain ⟨t, mid, hnext, hrun⟩ := run_bind_eq_ok hrun
    split at hrun
    · cases hrun
      intro u hu
      rw [List.mem_singleton.1 hu]
      exact ⟨lx, _, hnext⟩
    · obtain ⟨us, last, hus, hrun⟩ := run_bind_eq_ok hrun
      cases hrun
      intro u hu
      rcases List.mem_cons.1 hu with rfl | hu
      · exact ⟨lx, mid, hnext⟩
      · exact ih hus u hu

/-- A place on a token is clear of all comments, those still to come included. -/
theorem clear_of_reaches {mid lx' lx'' : Lexer} (hmid : mid.Stands cs) {e : Int}
    (hfirst : mid.place.offset ≤ e) (hlast : e ≤ lx'.place.offset)
    (hcomments : lx'.comments = mid.comments) (hreaches : Reaches lx' lx'') :
    Clear lx''.comments e := by
  refine ⟨?_, fun c hc => ?_⟩
  · have := hmid.offset
    omega
  · rcases hreaches.comments c hc with hc | hc
    · rw [hcomments] at hc
      have := hmid.passed c hc
      exact .inr (by omega)
    · exact .inl (by omega)

/-- What the lexer's next token is like, as seen from any later state. -/
theorem good_next {lx' : Lexer} {t : Token} (h : lx.Stands cs)
    (hrun : next.run.run lx = (.ok t, lx')) : lx'.Stands cs ∧ Reaches lx lx' ∧
      ∀ lx'', Reaches lx' lx'' → t.Good (Clear lx''.comments) := by
  obtain ⟨mid, hgaps, hcases⟩ := run_next_eq_ok hrun
  unfold skipGaps at hgaps
  rw [run_bind_ok _ (run_get lx)] at hgaps
  obtain ⟨hmid, hreaches⟩ := stands_skipGapsWith _ h hgaps
  rcases hcases with ⟨-, rfl, rfl⟩ | ⟨kind, taken, hfront, rfl, rfl⟩
  · refine ⟨hmid, hreaches, fun lx'' hlater => ?_⟩
    have hclear := clear_of_reaches hmid (Int.le_refl _) (Int.le_refl _) rfl hlater
    refine ⟨hclear, hclear, nofun, nofun, show Text.opensComment "EOF" = false by decide, ?_, ?_⟩
    · exact fun _ => show '/' ∉ "EOF".toList by decide
    · exact fun _ => show "EOF" ≠ "" by decide
  · refine ⟨hmid.pass taken, hreaches.trans (reaches_passed mid taken), fun lx'' hlater => ?_⟩
    have hspelling := Lexeme.spelling_of_front hfront
    have hstop := offset_passed mid taken
    have hpos : 0 < taken.length := List.length_pos_iff.2 hspelling.nonempty
    have hclear (n : Nat) (hn : n ≤ taken.length) : Clear lx''.comments (mid.place.offset + n) :=
      clear_of_reaches hmid (by omega) (by rw [hstop]; omega) (passed_comments mid taken) hlater
    have hfirst := hclear 0 (by omega)
    rw [Int.natCast_zero, Int.add_zero] at hfirst
    have hlast := hclear taken.length (Nat.le_refl _)
    rw [← hstop] at hlast
    refine ⟨hfirst, hlast, fun _ => hclear 1 hpos, hspelling.double, hspelling.text, ?_,
      fun _ => ?_⟩
    · intro hkind
      rw [String.toList_ofList]
      exact hspelling.solid hkind
    · intro hempty
      have := congrArg String.toList hempty
      rw [String.toList_ofList] at this
      exact hspelling.nonempty this

theorem good_tokensWith (fuel : Nat) : ∀ {lx lx' : Lexer} {ts : List Token}, lx.Stands cs →
    (tokensWith fuel).run.run lx = (.ok ts, lx') →
      lx'.Stands cs ∧ Reaches lx lx' ∧ ∀ t ∈ ts, t.Good (Clear lx'.comments) := by
  induction fuel with
  | zero =>
    intro lx lx' ts _ hrun
    cases hrun
  | succ fuel ih =>
    intro lx lx' ts h hrun
    unfold tokensWith at hrun
    obtain ⟨t, mid, hnext, hrun⟩ := run_bind_eq_ok hrun
    obtain ⟨hmid, hreaches, hgood⟩ := good_next h hnext
    split at hrun
    · cases hrun
      refine ⟨hmid, hreaches, fun u hu => ?_⟩
      rw [List.mem_singleton.1 hu]
      exact hgood _ (.refl _)
    · obtain ⟨us, last, hus, hrun⟩ := run_bind_eq_ok hrun
      cases hrun
      obtain ⟨hlast, hreaches', hgood'⟩ := ih hmid hus
      refine ⟨hlast, hreaches.trans hreaches', fun u hu => ?_⟩
      rcases List.mem_cons.1 hu with rfl | hu
      · exact hgood _ hreaches'
      · exact hgood' u hu

end

end Lexer

/-- Every token of a source is one that the lexer gave as its next. -/
theorem tokenize_next {source : String} {origin : Option String} {tokens : List Token}
    {comments : List Comment} (h : tokenize source origin = .ok (tokens, comments)) :
    ∀ t ∈ tokens, ∃ lx lx' : Lexer, Lexer.next.run.run lx = (.ok t, lx') := by
  obtain ⟨lx, hrun, -⟩ := tokenize_eq_ok.1 h
  exact Lexer.next_tokensWith _ hrun

/-- Every token of a source but the end token was the front of a text. -/
theorem tokenize_front {source : String} {origin : Option String} {tokens : List Token}
    {comments : List Comment} (h : tokenize source origin = .ok (tokens, comments)) :
    ∀ t ∈ tokens, t.kind = .endOfInput ∨
      ∃ cs taken, Lexeme.front? cs = some (t.kind, taken) ∧ t.text = String.ofList taken := by
  intro t ht
  obtain ⟨lx, lx', hnext⟩ := tokenize_next h t ht
  obtain ⟨mid, -, hcases⟩ := Lexer.run_next_eq_ok hnext
  rcases hcases with ⟨-, -, rfl⟩ | ⟨kind, taken, hfront, -, rfl⟩
  · exact .inl rfl
  · exact .inr ⟨mid.rest, taken, hfront, rfl⟩

/-- The tokens of a source are clear of its comments, and these stand in the source. -/
theorem tokenize_good {source : String} {origin : Option String} {tokens : List Token}
    {comments : List Comment} (h : tokenize source origin = .ok (tokens, comments)) :
    (∀ t ∈ tokens, t.Good (Clear comments)) ∧ ∀ c ∈ comments, c.Within source.length := by
  obtain ⟨lx, hrun, rfl⟩ := tokenize_eq_ok.1 h
  have hstart : (Lexer.start source origin).Stands source.toList := by
    refine ⟨rfl, rfl, ?_, ?_⟩ <;> simp [Lexer.start, Lexer.startAt]
  obtain ⟨hstands, _, hgood⟩ := Lexer.good_tokensWith _ hstart hrun
  have hclear : Clear lx.comments.reverse = Clear lx.comments := by
    funext e
    simp [Clear]
  rw [hclear]
  refine ⟨hgood, fun c hc => ?_⟩
  have hwithin := hstands.within c (List.mem_reverse.1 hc)
  rwa [String.length_toList] at hwithin

/-- The edges of a parsed tree are not inside comments. -/
theorem parse_clear {source : String} {o : Options} {root : Node} {comments : List Comment}
    (h : parse source o = .ok (root, comments)) :
    root.Edged (Clear comments) ∧ ∀ c ∈ comments, c.Within source.length := by
  obtain ⟨tokens, htokens, hshaped⟩ := parse_shaped h
  obtain ⟨hgood, hwithin⟩ := tokenize_good htokens
  refine ⟨hshaped _ hgood ⟨Int.le_refl _, fun c hc => ?_⟩ ⟨?_, fun c hc => ?_⟩, hwithin⟩
  · exact .inl (hwithin c hc).first
  · omega
  · exact .inr (hwithin c hc).last

end MonkeyFormat
