import MonkeyFormat.Proofs.Classes
import MonkeyFormat.Proofs.Effects
import MonkeyFormat.Token.Lexer

set_option autoImplicit false

/-! # Texts that lex into given tokens

A text without comments lexes into given tokens if it splits into them, each of which is what the
lexer takes off the front of the rest, and white space between them. Words and symbols are taken
off whole if no character that could lengthen them follows. -/

namespace MonkeyFormat

/-! ## Splitting a text -/

/-- What the grammar sees of a token. -/
structure Glyph where
  kind : TokenKind
  text : String
deriving DecidableEq

/-- The token that a word or symbol is. -/
def Glyph.of (s : String) : Glyph := ⟨(TokenKind.ofText? s).getD .ident, s⟩

/-- A token without its place. -/
def Token.glyph (t : Token) : Glyph := ⟨t.kind, t.text⟩

namespace Lexeme

/-- The kind and the characters of the token at the front of a text that starts with neither white
space nor a comment; none where the lexer fails. -/
def front? : List Char → Option (TokenKind × List Char)
  | [] => none
  | c :: cs =>
    if startsWord c then
      some ((TokenKind.ofText? (String.ofList (word (c :: cs)))).getD .ident, word (c :: cs))
    else if Text.isDigit c || (c = '.' && startsDigit cs) then
      match numeral (c :: cs) with
      | .number kind taken => some (kind, taken)
      | _ => none
    else if c = '"' || c = '\'' then
      if (quotedBody c cs).2 then
        some (if c = '"' then .string else .char, c :: (quotedBody c cs).1)
      else none
    else some ((symbol? (c :: cs)).getD (.unknown, [c]))

/-- Does the text start with white space or a comment? -/
def startsGap : List Char → Bool
  | '/' :: '/' :: _ => true
  | '/' :: '*' :: _ => true
  | c :: _ => isGap c
  | [] => false

/-- A text that lexes into tokens of the given kinds and texts, with white space but no comments
between them. -/
inductive Scans : List Char → List Glyph → Prop
  | blank (gap : List Char) (hgap : ∀ c ∈ gap, isGap c) : Scans gap []
  | token (gap taken rest : List Char) (kind : TokenKind) (gs : List Glyph)
      (hgap : ∀ c ∈ gap, isGap c) (hstart : startsGap (taken ++ rest) = false)
      (hfront : front? (taken ++ rest) = some (kind, taken)) (htaken : taken ≠ [])
      (hknown : kind ≠ .unknown) (hend : kind ≠ .endOfInput) (hrest : Scans rest gs) :
      Scans (gap ++ (taken ++ rest)) (⟨kind, String.ofList taken⟩ :: gs)

end Lexeme

/-! ## The lexer on such a text -/

namespace Lexer

theorem run_get (lx : Lexer) : (get : Lex Lexer).run.run lx = (.ok lx, lx) := rfl

theorem run_pass (taken : List Char) (lx : Lexer) :
    (pass taken).run.run lx = (.ok (), lx.passed taken) := rfl

theorem run_token (kind : TokenKind) (taken : List Char) (lx : Lexer) :
    (token kind taken).run.run lx =
      (.ok ⟨kind, String.ofList taken, lx.place.upTo (lx.passed taken).place⟩,
        lx.passed taken) := rfl

theorem passed_rest (lx : Lexer) {taken rest : List Char} (h : lx.rest = taken ++ rest) :
    (lx.passed taken).rest = rest := by
  simp [passed, h]

theorem run_skipGapsWith_of_not_gap {lx : Lexer} (h : Lexeme.startsGap lx.rest = false)
    (fuel : Nat) : (skipGapsWith fuel).run.run lx = (.ok (), lx) := by
  cases fuel with
  | zero => rfl
  | succ fuel =>
    obtain ⟨before, rest, place, comments, origin⟩ := lx
    unfold skipGapsWith
    rw [run_bind_ok _ (run_get _)]
    dsimp only at h ⊢
    split
    · cases h
    · cases h
    · next c cs hslash hstar =>
      rw [Lexeme.startsGap] at h
      · rw [if_neg (by simp [h])]
        rfl
      · exact hslash
      · exact hstar
    · rfl

theorem run_skipGaps {lx : Lexer} {gap rest : List Char} (h : lx.rest = gap ++ rest)
    (hgap : ∀ c ∈ gap, Lexeme.isGap c) (hrest : Lexeme.startsGap rest = false) :
    skipGaps.run.run lx = (.ok (), lx.passed gap) := by
  unfold skipGaps
  rw [run_bind_ok _ (run_get lx)]
  cases gap with
  | nil => exact run_skipGapsWith_of_not_gap (by rw [h]; exact hrest) _
  | cons c cs =>
    have hc : Lexeme.isGap c = true := hgap c (by simp)
    have hrun : (c :: (cs ++ rest)).takeWhile Lexeme.isGap = c :: cs := by
      rw [← List.cons_append, List.takeWhile_append_of_pos hgap]
      suffices rest.takeWhile Lexeme.isGap = [] by rw [this, List.append_nil]
      cases rest with
      | nil => rfl
      | cons d ds =>
        have : Lexeme.isGap d = false := by
          unfold Lexeme.startsGap at hrest
          split at hrest <;> simp_all
        simp [this]
    unfold skipGapsWith
    rw [run_bind_ok _ (run_get lx), h]
    simp only [List.cons_append]
    -- a slash is no white space, so the first two cases cannot be
    split
    · next heq =>
      rw [(List.cons.inj heq).1] at hc
      cases hc
    · next heq =>
      rw [(List.cons.inj heq).1] at hc
      cases hc
    · next heq =>
      cases heq
      rw [if_pos hc, run_bind_ok _ (run_get lx), h, List.cons_append, hrun,
        run_bind_ok _ (run_pass _ _)]
      exact run_skipGapsWith_of_not_gap (by rw [passed_rest lx h]; exact hrest) _
    · next heq => cases heq

theorem run_advance {lx : Lexer} {c : Char} {cs : List Char} (h : lx.rest = c :: cs) :
    advance.run.run lx = (.ok c, lx.passed [c]) := by
  unfold advance
  rw [run_bind_ok _ (run_get lx), h]
  rfl

theorem passed_passed (lx : Lexer) (as bs : List Char) :
    (lx.passed as).passed bs = lx.passed (as ++ bs) := by
  simp [passed, Place.after]

theorem passed_rest_cons (lx : Lexer) {c : Char} {cs : List Char} (h : lx.rest = c :: cs) :
    (lx.passed [c]).rest = cs := passed_rest lx h

/-- What the lexer does at the front of a text that starts with neither white space nor a
comment. -/
theorem run_next_of_front {lx : Lexer} {gap body taken : List Char} {kind : TokenKind}
    (h : lx.rest = gap ++ body) (hgap : ∀ c ∈ gap, Lexeme.isGap c)
    (hstart : Lexeme.startsGap body = false) (hfront : Lexeme.front? body = some (kind, taken)) :
    next.run.run lx =
      (.ok ⟨kind, String.ofList taken,
          (lx.passed gap).place.upTo (lx.passed (gap ++ taken)).place⟩,
        lx.passed (gap ++ taken)) := by
  unfold next
  rw [run_bind_ok _ (run_skipGaps h hgap hstart), run_bind_ok _ (run_get _), passed_rest lx h]
  cases body with
  | nil => cases hfront
  | cons c cs =>
    simp only [Lexeme.front?] at hfront
    have hrest := passed_rest lx h
    rw [← passed_passed]
    dsimp only
    by_cases hw : Lexeme.startsWord c
    · simp only [hw, if_true, Option.some.injEq, Prod.mk.injEq] at hfront
      obtain ⟨rfl, rfl⟩ := hfront
      rw [if_pos hw]
      exact run_token _ _ _
    · rw [if_neg hw] at hfront ⊢
      by_cases hd : (Text.isDigit c || (c = '.' && Lexeme.startsDigit cs)) = true
      · rw [if_pos hd] at hfront ⊢
        unfold number
        rw [run_bind_ok _ (run_get _), run_bind_ok _ (run_get _), hrest]
        cases hn : Lexeme.numeral (c :: cs) with
        | number k t =>
          rw [hn] at hfront
          cases hfront
          exact run_token _ _ _
        | badHex t => rw [hn] at hfront; cases hfront
        | badEnd t d => rw [hn] at hfront; cases hfront
      · rw [if_neg hd] at hfront ⊢
        by_cases hq : (c = '"' || c = '\'') = true
        · rw [if_pos hq] at hfront ⊢
          by_cases hcl : (Lexeme.quotedBody c cs).2 = true
          · rw [if_pos hcl] at hfront
            cases hfront
            unfold quoted
            rw [run_bind_ok _ (run_get _), run_bind_ok _ (run_advance hrest),
              run_bind_ok _ (run_get _), passed_rest_cons _ hrest]
            simp only
            rw [run_bind_ok _ (run_pass _ _), if_pos hcl, run_bind_ok _ (run_get _), passed_passed]
            rfl
          · rw [if_neg hcl] at hfront
            cases hfront
        · rw [if_neg hq] at hfront ⊢
          unfold symbol
          rw [bind_assoc, run_bind_ok _ (run_get _), hrest]
          cases hs : Lexeme.symbol? (c :: cs) with
          | none =>
            rw [hs] at hfront
            cases hfront
            exact run_token _ _ _
          | some kt =>
            obtain ⟨k, t⟩ := kt
            rw [hs] at hfront
            cases hfront
            rw [run_bind_ok _ (run_map_ok _ (run_token _ _ _))]
            rfl

/-- At the end of a text, white space aside, stands the end token. -/
theorem run_next_of_blank {lx : Lexer} (h : ∀ c ∈ lx.rest, Lexeme.isGap c) :
    next.run.run lx =
      (.ok ⟨.endOfInput, "EOF", (lx.passed lx.rest).place.upTo (lx.passed lx.rest).place⟩,
        lx.passed lx.rest) := by
  have hrest : lx.rest = lx.rest ++ [] := (List.append_nil _).symm
  unfold next
  rw [run_bind_ok _ (run_skipGaps hrest h rfl), run_bind_ok _ (run_get _), passed_rest lx hrest]
  rfl

theorem passed_comments (lx : Lexer) (taken : List Char) :
    (lx.passed taken).comments = lx.comments := rfl

/-- The end token as the grammar sees it. -/
def endGlyph : Glyph := ⟨.endOfInput, "EOF"⟩

theorem run_tokensWith_cons {fuel : Nat} {lx lx' lx'' : Lexer} {t : Token} {ts : List Token}
    (hnext : next.run.run lx = (.ok t, lx')) (ht : t.kind ≠ .endOfInput)
    (hrest : (tokensWith fuel).run.run lx' = (.ok ts, lx'')) :
    (tokensWith (fuel + 1)).run.run lx = (.ok (t :: ts), lx'') := by
  unfold tokensWith
  rw [run_bind_ok _ hnext, if_neg ht, run_bind_ok _ hrest]
  rfl

theorem run_tokensWith_end {fuel : Nat} {lx lx' : Lexer} {t : Token}
    (hnext : next.run.run lx = (.ok t, lx')) (ht : t.kind = .endOfInput) :
    (tokensWith (fuel + 1)).run.run lx = (.ok [t], lx') := by
  unfold tokensWith
  rw [run_bind_ok _ hnext, if_pos ht]
  rfl

/-- Lexing a text that scans gives its tokens and the end token, and no comments. -/
theorem run_tokensWith {cs : List Char} {gs : List Glyph} (hs : Lexeme.Scans cs gs) :
    ∀ (fuel : Nat) (lx : Lexer), lx.rest = cs → cs.length < fuel →
      ∃ ts lx', (tokensWith fuel).run.run lx = (.ok ts, lx') ∧ lx'.comments = lx.comments ∧
        ts.map Token.glyph = gs ++ [endGlyph] := by
  induction hs with
  | blank gap hgap =>
    rintro (_ | fuel) lx rfl hfuel
    · omega
    · exact ⟨_, _, run_tokensWith_end (run_next_of_blank hgap) rfl, rfl, rfl⟩
  | token gap taken rest kind gs hgap hstart hfront htaken hknown hend hrest ih =>
    rintro (_ | fuel) lx hlx hfuel
    · omega
    · have hpos : 0 < taken.length := List.length_pos_iff.2 htaken
      have hlen : rest.length < fuel := by
        simp only [List.length_append] at hfuel
        omega
      have hafter : (lx.passed (gap ++ taken)).rest = rest :=
        passed_rest lx (by rw [hlx, List.append_assoc])
      obtain ⟨ts, lx', hrun, hcom, hts⟩ := ih fuel _ hafter hlen
      have hnext := run_next_of_front hlx hgap hstart hfront
      refine ⟨_, lx', run_tokensWith_cons hnext hend hrun, hcom, ?_⟩
      rw [List.map_cons, hts]
      rfl

end Lexer

/-- Tokenizing is running the lexer with a round for each character and one for the end token. -/
theorem tokenize_eq_ok {source : String} {origin : Option String} {tokens : List Token}
    {comments : List Comment} : tokenize source origin = .ok (tokens, comments) ↔
      ∃ lx, (Lexer.tokensWith (source.toList.length + 1)).run.run (Lexer.start source origin) =
        (.ok tokens, lx) ∧ lx.comments.reverse = comments := by
  have hrest : (Lexer.start source origin).rest = source.toList := by
    simp [Lexer.start, Lexer.startAt]
  have hrounds : Lexer.tokens.run.run (Lexer.start source origin) =
      (Lexer.tokensWith (source.toList.length + 1)).run.run (Lexer.start source origin) := by
    unfold Lexer.tokens
    rw [run_bind_ok _ (Lexer.run_get _), hrest]
  rw [tokenize, hrounds]
  rcases (Lexer.tokensWith (source.toList.length + 1)).run.run (Lexer.start source origin) with
    ⟨e | ts, lx⟩
  · constructor
    · nofun
    · rintro ⟨_, hrun, -⟩
      cases hrun
  · constructor
    · intro h
      cases h
      exact ⟨lx, rfl, rfl⟩
    · rintro ⟨_, hrun, rfl⟩
      cases hrun
      rfl

/-- The tokens of a text that scans. -/
theorem tokenize_of_scans {cs : List Char} {gs : List Glyph} (hs : Lexeme.Scans cs gs)
    (origin : Option String) :
    ∃ ts, tokenize (String.ofList cs) origin = .ok (ts, []) ∧
      ts.map Token.glyph = gs ++ [Lexer.endGlyph] := by
  have hstart : (Lexer.start (String.ofList cs) origin).rest = cs := by
    simp [Lexer.start, Lexer.startAt]
  obtain ⟨ts, lx', hrun, hcom, hts⟩ :=
    Lexer.run_tokensWith hs (cs.length + 1) (Lexer.start (String.ofList cs) origin) hstart
      (Nat.lt_succ_self _)
  refine ⟨ts, tokenize_eq_ok.2 ⟨lx', ?_, ?_⟩, hts⟩
  · rwa [String.toList_ofList]
  · rw [hcom]
    rfl

/-- None of the tokens of a text that scans is unknown. -/
theorem Lexeme.Scans.known {cs : List Char} {gs : List Glyph} (hs : Lexeme.Scans cs gs) :
    ∀ g ∈ gs, g.kind ≠ .unknown := by
  induction hs with
  | blank => simp
  | token gap taken rest kind gs hgap hstart hfront htaken hknown hend hrest ih =>
    intro g hg
    rcases List.mem_cons.1 hg with rfl | hg
    · exact hknown
    · exact ih g hg

namespace Lexeme

/-! ## Words -/

theorem inWord_of_startsWord {c : Char} (h : startsWord c = true) : inWord c = true := by
  simp only [startsWord, inWord, Text.isLetter, Text.isWordChar, Bool.or_eq_true] at h ⊢
  rcases h with (h | h) | h
  · split at h
    · next hc => simp [hc, Char.isAlphanum, h]
    · next hc => simp [hc, h]
  · exact Or.inl (Or.inr h)
  · exact Or.inr h

theorem startsWord_not_gap {c : Char} (h : startsWord c = true) : isGap c = false := by
  have hspace : startsWord ' ' = false := by decide
  have htab : startsWord '\t' = false := by decide
  have hcr : startsWord '\r' = false := by decide
  have hlf : startsWord '\n' = false := by decide
  have hff : startsWord '\x0c' = false := by decide
  have hvt : startsWord '\x0b' = false := by decide
  have hbom : startsWord '\ufeff' = false := by decide +kernel
  rw [Bool.eq_false_iff]
  intro hgap
  simp only [isGap, Bool.or_eq_true, decide_eq_true_eq] at hgap
  rcases hgap with (((((rfl | rfl) | rfl) | rfl) | rfl) | rfl) | rfl <;> simp_all

theorem startsWord_not_slash {c : Char} (h : startsWord c = true) : c ≠ '/' := by
  rintro rfl
  exact absurd h (by decide)

theorem startsGap_of_startsWord {c : Char} {cs : List Char} (h : startsWord c = true) :
    startsGap (c :: cs) = false := by
  unfold startsGap
  split
  · next heq => exact absurd (List.cons.inj heq).1 (startsWord_not_slash h)
  · next heq => exact absurd (List.cons.inj heq).1 (startsWord_not_slash h)
  · next heq => cases heq; exact startsWord_not_gap h
  · next heq => cases heq

theorem word_append {w rest : List Char} (hw : ∀ c ∈ w, inWord c)
    (hrest : ∀ c, rest.head? = some c → inWord c = false) : word (w ++ rest) = w := by
  rw [word, List.takeWhile_append_of_pos hw]
  suffices rest.takeWhile inWord = [] by rw [this, List.append_nil]
  cases rest with
  | nil => rfl
  | cons d ds => simp [hrest d rfl]

/-- A word that no further word character follows is lexed as a whole. -/
theorem front?_word {c : Char} {cs rest : List Char} (hc : startsWord c = true)
    (hw : ∀ d ∈ c :: cs, inWord d) (hrest : ∀ d, rest.head? = some d → inWord d = false) :
    front? ((c :: cs) ++ rest) =
      some ((TokenKind.ofText? (String.ofList (c :: cs))).getD .ident, c :: cs) := by
  have hword := word_append hw hrest
  rw [List.cons_append] at hword ⊢
  rw [front?, if_pos hc, hword]

/-! ## Symbols -/

/-- The words and symbols that have a kind of their own. -/
def reserved : List String :=
  ["module", "class", "extends", "function", "var", "const", "enum", "typedef", "using", "import",
    "as", "static", "private", "protected", "hidden", "public", "if", "else", "while", "do", "for",
    "switch", "case", "default", "break", "continue", "return", "throw", "try", "catch", "finally",
    "new", "instanceof", "has", "and", "or", "self", "me", "true", "false", "null", "NaN", "\x7b",
    "\x7d", "(", ")", "[", "]", ";", ",", ".", ":", "?", "=>", "=", "+=", "-=", "*=", "/=", "%=",
    "&=", "|=", "^=", "<<=", ">>=", "++", "--", "&&", "||", "==", "!=", "<", "<=", ">", ">=", "<<",
    ">>", "+", "-", "*", "/", "%", "&", "|", "^", "!", "~"]

theorem mem_reserved_of_ofText? {s : String} {k : TokenKind} (h : TokenKind.ofText? s = some k) :
    s ∈ reserved := by
  unfold TokenKind.ofText? at h
  split at h
  case h_88 => cases h
  all_goals repeat (first | exact .head _ | apply List.Mem.tail)

/-- A text that is not reserved has no kind of its own. -/
theorem ofText?_eq_none {s : String} (h : s ∉ reserved) : TokenKind.ofText? s = none := by
  cases hs : TokenKind.ofText? s with
  | none => rfl
  | some k => exact absurd (mem_reserved_of_ofText? hs) h

/-- No reserved text goes on with `next` behind `w`. -/
def Maximal (w : List Char) (next : Char) : Prop :=
  ∀ r ∈ reserved, ¬ w ++ [next] <+: r.toList

theorem ofText?_take_of_maximal {w rest : List Char} {n : Nat}
    (hrest : ∀ c, rest.head? = some c → Maximal w c) (hn : w.length < n)
    (htake : ((w ++ rest).take n).length = n) :
    TokenKind.ofText? (String.ofList ((w ++ rest).take n)) = none := by
  apply ofText?_eq_none
  intro hmem
  cases rest with
  | nil =>
    simp only [List.append_nil, List.length_take] at htake
    omega
  | cons c cs =>
    apply hrest c rfl _ hmem
    obtain ⟨m, rfl⟩ : ∃ m, n = w.length + (m + 1) := ⟨n - (w.length + 1), by omega⟩
    refine ⟨cs.take m, ?_⟩
    rw [String.toList_ofList, List.take_length_add_append, List.take_succ_cons,
      List.append_assoc, List.singleton_append]

/-- A symbol that what follows it does not extend is lexed as a whole. -/
theorem symbol?_append {w rest : List Char} {kind : TokenKind} (hlen : w.length ≤ 3) (hne : w ≠ [])
    (hkind : TokenKind.ofText? (String.ofList w) = some kind)
    (hrest : ∀ c, rest.head? = some c → Maximal w c) : symbol? (w ++ rest) = some (kind, w) := by
  have hself : (w ++ rest).take w.length = w := List.take_left
  have hpos : 0 < w.length := List.length_pos_iff.2 hne
  -- the candidates longer than `w` have no kind, and `w` itself has one
  have hlonger : ∀ n, w.length < n → (if ((w ++ rest).take n).length = n then
      (TokenKind.ofText? (String.ofList ((w ++ rest).take n))).map
        fun kind => (kind, (w ++ rest).take n) else none) = none := by
    intro n hn
    split
    · next htake => rw [ofText?_take_of_maximal hrest hn htake]; rfl
    · rfl
  have hfound : (if ((w ++ rest).take w.length).length = w.length then
      (TokenKind.ofText? (String.ofList ((w ++ rest).take w.length))).map
        fun kind => (kind, (w ++ rest).take w.length) else none) = some (kind, w) := by
    rw [hself, if_pos rfl, hkind]
    rfl
  unfold symbol?
  simp only [List.findSome?_cons]
  obtain h | h | h : w.length = 1 ∨ w.length = 2 ∨ w.length = 3 := by omega
  · rw [hlonger 3 (by omega), hlonger 2 (by omega), ← h, hfound]
  · rw [hlonger 3 (by omega), ← h, hfound]
  · rw [← h, hfound]

/-- The characters that a symbol may go on with. -/
def extenders : List Char := ['=', '>', '+', '-', '&', '|', '<']

theorem extenders_of_mem_tail : ∀ r ∈ reserved, r.toList.head?.all (!startsWord ·) →
    ∀ c ∈ r.toList.tail, c ∈ extenders := by
  have hall : reserved.all (fun r => !r.toList.head?.all (!startsWord ·) ||
      r.toList.tail.all extenders.contains) = true := by decide +kernel
  intro r hr hstart c hc
  have htail := List.all_eq_true.1 hall r hr
  rw [hstart, Bool.not_true, Bool.false_or] at htail
  exact List.contains_iff_mem.1 (List.all_eq_true.1 htail c hc)

theorem maximal_of_not_extender {w : List Char} {c : Char} (hne : w ≠ [])
    (hw : w.head?.all (!startsWord ·)) (hc : c ∉ extenders) : Maximal w c := by
  intro r hr hpre
  obtain ⟨t, ht⟩ := hpre
  cases w with
  | nil => exact hne rfl
  | cons a as =>
    apply hc
    apply extenders_of_mem_tail r hr
    · rw [← ht]
      exact hw
    · rw [← ht]
      simp

/-- The brackets and separators: no symbol goes on behind them. -/
def closedSymbols : List Char := ['(', ')', '[', ']', '\x7b', '\x7d', ';', ',', ':', '?']

theorem length_of_mem_closedSymbols {c : Char} (hc : c ∈ closedSymbols) {r : String}
    (hr : r ∈ reserved) (hstart : r.toList.head? = some c) : r.toList.length = 1 := by
  have hall : closedSymbols.all (fun c => reserved.all fun r =>
      r.toList.head? != some c || r.toList.length == 1) = true := by decide +kernel
  have hone := List.all_eq_true.1 (List.all_eq_true.1 hall c hc) r hr
  simpa [hstart] using hone

theorem maximal_closed {c : Char} (hc : c ∈ closedSymbols) (d : Char) : Maximal [c] d := by
  intro r hr hpre
  obtain ⟨t, ht⟩ := hpre
  have := length_of_mem_closedSymbols hc hr (by rw [← ht]; rfl)
  rw [← ht] at this
  simp at this

/-- A symbol that what follows it does not extend is taken off the front. -/
theorem front?_symbol {c : Char} {cs rest : List Char} {kind : TokenKind}
    (hkind : TokenKind.ofText? (String.ofList (c :: cs)) = some kind) (hlen : cs.length ≤ 2)
    (hword : startsWord c = false) (hdigit : Text.isDigit c = false)
    (hpoint : c = '.' → startsDigit (cs ++ rest) = false) (hquote : c ≠ '"' ∧ c ≠ '\'')
    (hrest : ∀ d, rest.head? = some d → Maximal (c :: cs) d) :
    front? ((c :: cs) ++ rest) = some (kind, c :: cs) := by
  have hnumber : (Text.isDigit c || (c = '.' && startsDigit (cs ++ rest))) = false := by
    rw [hdigit, Bool.false_or, Bool.and_eq_false_imp]
    intro hc
    exact hpoint (of_decide_eq_true hc)
  have hlength : (c :: cs).length ≤ 3 := Nat.succ_le_succ hlen
  have hsymbol := symbol?_append hlength (List.cons_ne_nil c cs) hkind hrest
  rw [List.cons_append] at hsymbol ⊢
  rw [front?, if_neg (by simp [hword]), if_neg (by simp [hnumber]), if_neg (by simpa using hquote),
    hsymbol]
  rfl

theorem startsGap_cons {c : Char} {cs : List Char} (hgap : isGap c = false)
    (hslash : c = '/' → ∀ d, cs.head? = some d → d ≠ '/' ∧ d ≠ '*') :
    startsGap (c :: cs) = false := by
  unfold startsGap
  split
  · next heq =>
    cases heq
    exact absurd rfl (hslash rfl _ rfl).1
  · next heq =>
    cases heq
    exact absurd rfl (hslash rfl _ rfl).2
  · next heq =>
    cases heq
    exact hgap
  · next heq => cases heq

/-- White space before a text that scans. -/
theorem Scans.gap {cs : List Char} {gs : List Glyph} (h : Scans cs gs) {c : Char}
    (hc : isGap c = true) : Scans (c :: cs) gs := by
  cases h with
  | blank gap hgap => exact .blank (c :: cs) (List.forall_mem_cons.2 ⟨hc, hgap⟩)
  | token gap taken rest kind gs hgap hstart hfront htaken hknown hend hrest =>
    exact .token (c :: gap) taken rest kind gs (List.forall_mem_cons.2 ⟨hc, hgap⟩) hstart hfront
      htaken hknown hend hrest

theorem Scans.gaps {cs : List Char} {gs : List Glyph} (h : Scans cs gs) {gap : List Char}
    (hgap : ∀ c ∈ gap, isGap c) : Scans (gap ++ cs) gs := by
  induction gap with
  | nil => exact h
  | cons c gap ih =>
    rw [List.forall_mem_cons] at hgap
    exact (ih hgap.2).gap hgap.1

/-! ## Names -/

/-- Is the text an identifier: a word that is not reserved? -/
def isName (s : String) : Bool :=
  startsWith startsWord s.toList && s.toList.all inWord && (TokenKind.ofText? s).isNone

theorem isName_cons {s : String} (h : isName s = true) :
    ∃ c cs, s.toList = c :: cs ∧ startsWord c = true ∧ (∀ d ∈ c :: cs, inWord d) ∧
      TokenKind.ofText? s = none := by
  simp only [isName, Bool.and_eq_true, Option.isNone_iff_eq_none] at h
  obtain ⟨⟨hstart, hall⟩, hkind⟩ := h
  cases hs : s.toList with
  | nil =>
    rw [hs] at hstart
    cases hstart
  | cons c cs =>
    rw [hs] at hstart hall
    exact ⟨c, cs, rfl, hstart, fun d hd => List.all_eq_true.1 hall d hd, hkind⟩

end Lexeme

end MonkeyFormat
