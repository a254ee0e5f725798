import MonkeyFormat.Proofs.NumberSpelling
import MonkeyFormat.Proofs.Tiling

set_option autoImplicit false

/-! # Tokens survive other white space

The lexer looks beyond the token that it takes: behind a point for digits or for a letter, behind an
exponent mark for a sign, behind a number for a suffix, behind a symbol for a longer one, and behind
a slash for a comment. So the characters that follow a token have their part in what it is. White
space has none: what has been taken as a token before any text at all is taken again, with the same
kind, where white space or nothing follows. Tokens can therefore be written with any white space
between them, and lex into themselves. -/

namespace MonkeyFormat

namespace Lexeme

open Doc (inWord_of_isGap isDigit_of_isGap not_extender_of_isGap)

/-! ## White space behind a token -/

/-- A text in front of which a token can only end: it is empty or starts with white space. -/
def Clears (rest : List Char) : Prop := ∀ c ∈ rest.head?, isGap c = true

theorem clears_nil : Clears [] := by simp [Clears]

theorem clears_gap {gap rest : List Char} (hne : gap ≠ []) (hgap : ∀ c ∈ gap, isGap c = true) :
    Clears (gap ++ rest) := by
  intro c hc
  rw [List.head?_append_of_ne_nil _ hne] at hc
  exact hgap c (List.mem_of_mem_head? hc)

/-- White space does not go on a number of either kind. -/
theorem stops_of_isGap {c : Char} (h : isGap c = true) :
    stops c = true ∧ isHexDigit c = false ∧ isLongSuffix c = false := by
  simp only [isGap, Bool.or_eq_true, decide_eq_true_eq] at h
  rcases h with (((((rfl | rfl) | rfl) | rfl) | rfl) | rfl) | rfl
  all_goals decide +kernel

/-- What does not start with white space or a comment. -/
theorem of_startsGap {c : Char} {cs : List Char} (h : startsGap (c :: cs) = false) :
    isGap c = false ∧ (c = '/' → ∀ d, cs.head? = some d → d ≠ '/' ∧ d ≠ '*') := by
  unfold startsGap at h
  split at h
  · cases h
  · cases h
  · next c' cs' hslash hstar heq =>
    cases heq
    refine ⟨h, ?_⟩
    rintro rfl d hd
    obtain ⟨ds, rfl⟩ := List.head?_eq_some_iff.1 hd
    constructor
    · rintro rfl
      exact hslash ds rfl rfl
    · rintro rfl
      exact hstar ds rfl rfl
  · next heq => cases heq

section Clears

variable {c : Char} {cs taken rest : List Char} {kind : TokenKind} (hrest : Clears rest)
include hrest

/-- Behind the front of a text no more characters come to stand that matter for a comment. -/
theorem startsGap_of_prefix (hfront : taken <+: cs) (hne : taken ≠ [])
    (hstart : startsGap cs = false) : startsGap (taken ++ rest) = false := by
  obtain ⟨tail, rfl⟩ := hfront
  obtain ⟨c, more, rfl⟩ := List.exists_cons_of_ne_nil hne
  obtain ⟨hgap, hslash⟩ := of_startsGap hstart
  apply startsGap_cons hgap
  intro hc d hd
  cases more with
  | nil => exact (not_extender_of_isGap (hrest d hd)).2
  | cons e more => exact hslash hc d hd

/-- White space puts no digit behind a point. -/
theorem startsDigit_of_prefix (hfront : taken <+: cs) (h : startsDigit (taken ++ rest) = true) :
    startsDigit cs = true := by
  obtain ⟨tail, rfl⟩ := hfront
  cases taken with
  | cons d taken => exact h
  | nil =>
    obtain ⟨d, hd, hdigit⟩ := startsWith_iff.1 h
    rw [isDigit_of_isGap (hrest d hd)] at hdigit
    cases hdigit

/-! ## One kind of token after the other -/

theorem front?_of_word (hc : startsWord c = true) :
    front? (word (c :: cs) ++ rest) =
      some ((TokenKind.ofText? (String.ofList (word (c :: cs)))).getD .ident, word (c :: cs)) := by
  have hword : word (c :: cs) = c :: cs.takeWhile inWord := by
    simp [word, inWord_of_startsWord hc]
  have hall : ∀ d ∈ word (c :: cs), inWord d = true := List.all_eq_true.1 List.all_takeWhile
  rw [hword] at hall ⊢
  exact front?_word hc hall fun d hd => inWord_of_isGap (hrest d hd)

theorem front?_of_decimal (hstart : (Text.isDigit c || (c = '.' && startsDigit cs)) = true)
    (h : decimalNumeral (c :: cs) = .number kind taken) :
    front? (taken ++ rest) = some (kind, taken) := by
  obtain ⟨p, rfl, rfl⟩ : ∃ p : Parts Text.isDigit, taken = p.chars ∧ kind = p.kind :=
    exists_parts hstart h fun _ _ hd => hd
  exact front?_chars (fun _ hd => hd) fun d hd => (stops_of_isGap (hrest d hd)).1

theorem front?_of_hex {x : Char} (hx : x = 'x' ∨ x = 'X')
    (h : hexNumeral ['0', x] cs = .number kind taken) :
    front? (taken ++ rest) = some (kind, taken) := by
  obtain ⟨rfl, ds, s, rfl, hne, hall, hs⟩ := exists_hex h
  have hstop : ∀ d ∈ (s.toList ++ rest).head?, isHexDigit d = false := by
    intro d hd
    cases s with
    | none => exact (stops_of_isGap (hrest d hd)).2.1
    | some e =>
      obtain rfl : e = d := by simpa using hd
      have hlong := hs e rfl
      rw [isLongSuffix, Bool.or_eq_true, decide_eq_true_eq, decide_eq_true_eq] at hlong
      rcases hlong with rfl | rfl <;> decide
  have hsuffix : ((s.toList ++ rest).take 1).filter isLongSuffix = s.toList := by
    cases s with
    | some e => simp [hs e rfl]
    | none =>
      cases rest with
      | nil => rfl
      | cons d rest => simp [(stops_of_isGap (hrest d rfl)).2.2]
  have htaken := Literal.hexNumeral_taken (x := x) hall hne hstop
  rw [hsuffix] at htaken
  have hmark : (decide (x = 'x') || decide (x = 'X')) = true := by simpa using hx
  have hnumeral : numeral ('0' :: x :: (ds ++ (s.toList ++ rest))) =
      .number .number ('0' :: x :: ds ++ s.toList) := by
    rw [numeral, if_pos hmark, htaken]
  have htext : ['0', x] ++ ds ++ s.toList ++ rest = '0' :: x :: (ds ++ (s.toList ++ rest)) := by
    simp
  have hzero : startsWord '0' = false := by decide
  rw [htext, front?, hzero, hnumeral]
  rfl

theorem front?_of_number (hstart : (Text.isDigit c || (c = '.' && startsDigit cs)) = true)
    (h : numeral (c :: cs) = .number kind taken) : front? (taken ++ rest) = some (kind, taken) := by
  unfold numeral at h
  split at h
  · next x ds heq =>
    split at h
    · next hx => exact front?_of_hex hrest (by simpa using hx) h
    · rw [← heq] at h
      exact front?_of_decimal hrest hstart h
  · exact front?_of_decimal hrest hstart h

omit hrest in
/-- A literal that is closed ends with its quote, whatever stands behind it. -/
theorem quotedBody_append {quote : Char} (h : (quotedBody quote cs).2 = true) :
    quotedBody quote ((quotedBody quote cs).1 ++ rest) = quotedBody quote cs := by
  fun_induction quotedBody quote cs with
  | case1 => cases h
  | case2 c cs body closed hbody ih =>
    rw [hbody] at ih
    simp only [List.cons_append, quotedBody, ih h]
  | case3 => cases h
  | case4 => simp [quotedBody, *]
  | case5 => cases h
  | case6 c cs hescape hslash hquote hbreak body closed hbody ih =>
    rw [hbody] at ih
    simp [quotedBody, ih h, hslash, hquote, hbreak]

omit hrest in
theorem front?_of_quoted (hword : startsWord c = false)
    (hdigit : (Text.isDigit c || (c = '.' && startsDigit cs)) = false) (hc : c = '"' ∨ c = '\'')
    (hclosed : (quotedBody c cs).2 = true) :
    front? (c :: ((quotedBody c cs).1 ++ rest)) =
      some (if c = '"' then .string else .char, c :: (quotedBody c cs).1) := by
  have hnumber : (Text.isDigit c ||
      (c = '.' && startsDigit ((quotedBody c cs).1 ++ rest))) = false := by
    rcases hc with rfl | rfl <;> rfl
  have hquote : (decide (c = '"') || decide (c = '\'')) = true := by simpa using hc
  rw [front?, if_neg (by simp [hword]), if_neg (by simp [hnumber]), if_pos hquote,
    quotedBody_append hclosed, if_pos hclosed]

theorem front?_of_symbol (hword : startsWord c = false)
    (hdigit : (Text.isDigit c || (c = '.' && startsDigit cs)) = false)
    (hquote : c ≠ '"' ∧ c ≠ '\'') (h : symbol? (c :: cs) = some (kind, taken)) :
    front? (taken ++ rest) = some (kind, taken) := by
  have hkind := symbol?_eq_some h
  obtain ⟨n, hn, htake⟩ := symbol?_eq_take h
  obtain ⟨m, rfl⟩ : ∃ m, n = m + 1 := by
    cases n with
    | zero => exact absurd htake (spelling_of_reserved hkind).nonempty
    | succ m => exact ⟨m, rfl⟩
  rw [List.take_succ_cons] at htake
  subst htake
  rw [Bool.or_eq_false_iff, Bool.and_eq_false_imp, decide_eq_true_eq] at hdigit
  refine front?_symbol hkind ?_ hword hdigit.1 (fun hpoint => ?_) hquote fun d hd => ?_
  · have hlength := List.length_take_le m cs
    omega
  · -- digits behind the point would have been there before
    rw [Bool.eq_false_iff]
    intro hbehind
    have hbefore := startsDigit_of_prefix hrest (List.take_prefix m cs) hbehind
    rw [hdigit.2 hpoint] at hbefore
    cases hbefore
  · exact maximal_of_not_extender (List.cons_ne_nil _ _) (by simp [hword])
      (not_extender_of_isGap (hrest d hd)).1

/-- A character that is the start of no symbol stays so. -/
theorem symbol?_eq_none (hword : startsWord c = false) (h : symbol? (c :: cs) = none) :
    symbol? (c :: rest) = none := by
  have hself : TokenKind.ofText? (String.ofList [c]) = none := by
    have hone := List.findSome?_eq_none_iff.1 h 1 (by decide)
    simpa using hone
  have hmaximal : ∀ d, rest.head? = some d → Maximal [c] d := fun d hd =>
    maximal_of_not_extender (List.cons_ne_nil _ _) (by simp [hword])
      (not_extender_of_isGap (hrest d hd)).1
  refine List.findSome?_eq_none_iff.2 fun n hn => ?_
  by_cases htake : ((c :: rest).take n).length = n
  · rw [if_pos htake, Option.map_eq_none_iff]
    by_cases hlong : 1 < n
    · exact ofText?_take_of_maximal hmaximal hlong htake
    · obtain rfl : n = 1 := by
        simp only [List.mem_cons, List.not_mem_nil, or_false] at hn
        omega
      exact hself
  · rw [if_neg htake]

theorem front?_of_unknown (hword : startsWord c = false)
    (hdigit : (Text.isDigit c || (c = '.' && startsDigit cs)) = false)
    (hquote : c ≠ '"' ∧ c ≠ '\'') (h : symbol? (c :: cs) = none) :
    front? (c :: rest) = some (.unknown, [c]) := by
  have hnumber : (Text.isDigit c || (c = '.' && startsDigit rest)) = false := by
    rw [Bool.or_eq_false_iff, Bool.and_eq_false_imp] at hdigit ⊢
    refine ⟨hdigit.1, fun _ => ?_⟩
    exact startsWith_false.2 fun d hd => isDigit_of_isGap (hrest d hd)
  rw [front?, if_neg (by simp [hword]), if_neg (by simp [hnumber]), if_neg (by simpa using hquote),
    symbol?_eq_none hrest hword h]
  rfl

/-- What the lexer takes off the front of a text it takes off again where white space, or nothing,
follows. -/
theorem front?_of_front (h : front? cs = some (kind, taken)) :
    front? (taken ++ rest) = some (kind, taken) := by
  cases cs with
  | nil => cases h
  | cons c cs =>
    simp only [front?] at h
    by_cases hword : startsWord c = true
    · rw [if_pos hword] at h
      cases h
      exact front?_of_word hrest hword
    rw [if_neg hword] at h
    rw [Bool.not_eq_true] at hword
    by_cases hdigit : (Text.isDigit c || (c = '.' && startsDigit cs)) = true
    · rw [if_pos hdigit] at h
      cases hnumeral : numeral (c :: cs) with
      | number k t =>
        rw [hnumeral] at h
        cases h
        exact front?_of_number hrest hdigit hnumeral
      | badHex t =>
        rw [hnumeral] at h
        cases h
      | badEnd t d =>
        rw [hnumeral] at h
        cases h
    rw [if_neg hdigit] at h
    rw [Bool.not_eq_true] at hdigit
    by_cases hquote : (c = '"' || c = '\'') = true
    · rw [if_pos hquote] at h
      rw [Bool.or_eq_true, decide_eq_true_eq, decide_eq_true_eq] at hquote
      by_cases hclosed : (quotedBody c cs).2 = true
      · rw [if_pos hclosed] at h
        cases h
        exact front?_of_quoted hword hdigit hquote hclosed
      · rw [if_neg hclosed] at h
        cases h
    rw [if_neg hquote] at h
    rw [Bool.or_eq_true, decide_eq_true_eq, decide_eq_true_eq, not_or] at hquote
    cases hsymbol : symbol? (c :: cs) with
    | some found =>
      obtain ⟨k, t⟩ := found
      rw [hsymbol] at h
      cases h
      exact front?_of_symbol hrest hword hdigit hquote hsymbol
    | none =>
      rw [hsymbol] at h
      cases h
      exact front?_of_unknown hrest hword hdigit hquote hsymbol

end Clears

end Lexeme

open Lexeme (Clears)

/-- The token is what the lexer takes off the front of its text where white space, or nothing,
stands behind it. -/
structure Glyph.Stable (g : Glyph) : Prop where
  starts : ∀ rest, Clears rest → Lexeme.startsGap (g.text.toList ++ rest) = false
  front : ∀ rest, Clears rest →
    Lexeme.front? (g.text.toList ++ rest) = some (g.kind, g.text.toList)

theorem Glyph.stable_of_front {cs taken : List Char} {kind : TokenKind}
    (hstart : Lexeme.startsGap cs = false) (hfront : Lexeme.front? cs = some (kind, taken)) :
    Glyph.Stable ⟨kind, String.ofList taken⟩ where
  starts rest hrest := by
    rw [String.toList_ofList]
    exact Lexeme.startsGap_of_prefix hrest (Lexeme.front?_isPrefix hfront)
      (Lexeme.spelling_of_front hfront).nonempty hstart
  front rest hrest := by
    rw [String.toList_ofList]
    exact Lexeme.front?_of_front hrest hfront

namespace Lexer

/-! ## The tokens of a source -/

/-- Behind white space and comments stands neither. -/
theorem startsGap_skipGapsWith (fuel : Nat) : ∀ {lx mid : Lexer}, lx.rest.length < fuel →
    (skipGapsWith fuel).run.run lx = (.ok (), mid) → Lexeme.startsGap mid.rest = false := by
  induction fuel with
  | zero =>
    intro lx mid hfuel
    omega
  | succ fuel ih =>
    intro lx mid hfuel hrun
    -- Whatever is passed has characters in it, so the rest of the fuel is enough for the rest.
    have hpassed {behind : Lexer} {taken : List Char}
        (hrest : behind.rest = lx.rest.drop taken.length) (hne : taken ≠ [])
        (hle : taken.length ≤ lx.rest.length) : behind.rest.length < fuel := by
      have hpos := List.length_pos_iff.2 hne
      rw [hrest, List.length_drop]
      omega
    unfold skipGapsWith at hrun
    rw [run_bind_ok _ (run_get lx)] at hrun
    split at hrun
    · next ds heq =>
      rw [run_bind_ok _ (run_lineComment heq)] at hrun
      have hlength : (ds.takeWhile fun c => !Lexeme.endsLine c).length ≤ ds.length :=
        (List.takeWhile_sublist _).length_le
      refine ih (hpassed rfl (List.cons_ne_nil '/' ('/' :: _)) ?_) hrun
      rw [heq]
      simpa using hlength
    · next ds heq =>
      obtain ⟨_, behind, hcomment, hrun⟩ := run_bind_eq_ok hrun
      obtain ⟨hclosed, rfl⟩ := run_blockComment heq hcomment
      have hlength := length_blockBody hclosed
      refine ih (hpassed rfl (List.cons_ne_nil '/' ('*' :: (_ ++ ['*', '/']))) ?_) hrun
      rw [heq]
      simpa using hlength
    · next c ds hslash hstar heq =>
      split at hrun
      · next hgap =>
        rw [run_bind_ok _ (run_get lx), run_bind_ok _ (run_pass _ _)] at hrun
        refine ih (hpassed rfl ?_ (List.takeWhile_sublist _).length_le) hrun
        simp [heq, hgap]
      · next hgap =>
        cases hrun
        rw [heq, Lexeme.startsGap]
        · simpa using hgap
        · exact hslash
        · exact hstar
    · next heq =>
      cases hrun
      rw [heq]
      rfl

/-- The lexer's next token is the end token, or what is taken again before white space. -/
theorem stable_next {lx lx' : Lexer} {t : Token} (hrun : next.run.run lx = (.ok t, lx')) :
    t.glyph = endGlyph ∨ t.kind ≠ .endOfInput ∧ t.glyph.Stable := by
  obtain ⟨mid, hgaps, hcases⟩ := run_next_eq_ok hrun
  rcases hcases with ⟨-, -, rfl⟩ | ⟨kind, taken, hfront, -, rfl⟩
  · exact .inl rfl
  · unfold skipGaps at hgaps
    rw [run_bind_ok _ (run_get lx)] at hgaps
    have hstart := startsGap_skipGapsWith _ (Nat.lt_succ_self _) hgaps
    exact .inr ⟨Lexeme.front?_ne_endOfInput hfront, Glyph.stable_of_front hstart hfront⟩

end Lexer

/-! ## Other white space -/

/-- White space between two tokens. -/
structure Separator where
  text : String
  nonempty : text ≠ ""
  blank : ∀ c ∈ text.toList, c ∈ [' ', '\t', '\r', '\n', '\x0c', '\x0b', '\ufeff']

theorem Separator.isGap (s : Separator) : ∀ c ∈ s.text.toList, Lexeme.isGap c = true := by
  intro c hc
  simpa [Lexeme.isGap, or_assoc] using s.blank c hc

/-- The texts in their order, with the separators between them, from the first one on. -/
def spaced (sep : Nat → Separator) : List String → String
  | [] => ""
  | [v] => v
  | v :: vs => v ++ (sep 0).text ++ spaced (fun i => sep (i + 1)) vs

namespace Lexer

/-- Lexing stable tokens with white space before and between them gives the tokens back, with the
end token behind them, and no comments. -/
theorem run_spaced {gs : List Glyph} (hgs : ∀ g ∈ gs, g.kind ≠ .endOfInput ∧ g.Stable) :
    ∀ (sep : Nat → Separator) (gap : List Char) (fuel : Nat) (lx : Lexer),
      (∀ c ∈ gap, Lexeme.isGap c = true) →
      lx.rest = gap ++ (spaced sep (gs.map Glyph.text)).toList → gs.length < fuel →
      ∃ ts lx', (tokensWith fuel).run.run lx = (.ok ts, lx') ∧ lx'.comments = lx.comments ∧
        ts.map Token.glyph = gs ++ [endGlyph] := by
  induction gs with
  | nil =>
    rintro sep gap (_ | fuel) lx hgap hrest hfuel
    · omega
    · have hblank : ∀ c ∈ lx.rest, Lexeme.isGap c = true := by simpa [hrest, spaced] using hgap
      exact ⟨_, _, run_tokensWith_end (run_next_of_blank hblank) rfl, rfl, rfl⟩
  | cons g gs ih =>
    rintro sep gap (_ | fuel) lx hgap hrest hfuel
    · omega
    obtain ⟨hkind, hstable⟩ := hgs g List.mem_cons_self
    -- Behind the token stands nothing, or a separator with the other tokens.
    obtain ⟨between, hbetween, hclears, htext⟩ : ∃ between : List Char,
        (∀ c ∈ between, Lexeme.isGap c = true) ∧
        Clears (between ++ (spaced (fun i => sep (i + 1)) (gs.map Glyph.text)).toList) ∧
        (spaced sep ((g :: gs).map Glyph.text)).toList = g.text.toList ++
          (between ++ (spaced (fun i => sep (i + 1)) (gs.map Glyph.text)).toList) := by
      cases gs with
      | nil => exact ⟨[], by simp, Lexeme.clears_nil, by simp [spaced]⟩
      | cons g' gs =>
        refine ⟨(sep 0).text.toList, (sep 0).isGap, Lexeme.clears_gap ?_ (sep 0).isGap, ?_⟩
        · simpa using (sep 0).nonempty
        · simp [spaced]
    rw [htext] at hrest
    have hnext := run_next_of_front hrest hgap (hstable.starts _ hclears) (hstable.front _ hclears)
    have hafter : (lx.passed (gap ++ g.text.toList)).rest =
        between ++ (spaced (fun i => sep (i + 1)) (gs.map Glyph.text)).toList :=
      passed_rest lx (by rw [hrest, List.append_assoc])
    obtain ⟨ts, lx', hrun, hcomments, hts⟩ := ih (fun g' hg' => hgs g' (List.mem_cons_of_mem g hg'))
      _ between fuel _ hbetween hafter (Nat.lt_of_succ_lt_succ hfuel)
    refine ⟨_, lx', run_tokensWith_cons hnext hkind hrun, hcomments, ?_⟩
    rw [List.map_cons, hts]
    simp [Token.glyph]

end Lexer

theorem length_le_spaced {gs : List Glyph} (hgs : ∀ g ∈ gs, g.Stable) :
    ∀ sep : Nat → Separator, gs.length ≤ (spaced sep (gs.map Glyph.text)).toList.length := by
  induction gs with
  | nil => simp
  | cons g gs ih =>
    intro sep
    have hpos : 0 < g.text.toList.length := by
      have hfront := (hgs g List.mem_cons_self).front [] Lexeme.clears_nil
      exact List.length_pos_iff.2 (Lexeme.spelling_of_front hfront).nonempty
    have hrest := ih (fun g' hg' => hgs g' (List.mem_cons_of_mem g hg')) fun i => sep (i + 1)
    cases gs with
    | nil => exact hpos
    | cons g' gs =>
      simp only [List.map_cons, spaced, String.toList_append, List.length_append,
        List.length_cons] at hrest hpos ⊢
      omega

/-- The tokens of a source, written with any white space between them and without its comments, lex
into the same tokens and no comments. -/
theorem tokenize_spaced {source : String} {origin : Option String} {tokens : List Token}
    {comments : List Comment} (h : tokenize source origin = .ok (tokens, comments))
    (sep : Nat → Separator) (origin' : Option String) :
    ∃ ts, tokenize (spaced sep ((tokens.filter (·.kind ≠ .endOfInput)).map Token.text)) origin' =
        .ok (ts, []) ∧ ts.map Token.glyph = tokens.map Token.glyph := by
  obtain ⟨lx, hlexes, rfl⟩ := tokenize_eq_ok.1 h
  obtain ⟨tiles, htiling⟩ := Lexer.tiling_tokensWith hlexes
  obtain ⟨front, last, rfl, hlast, hfront⟩ := htiling.ends
  -- Only the last token is the end token, and it has no text in the source.
  have hend : last.glyph = Lexer.endGlyph := by
    obtain ⟨lx, lx', hnext⟩ := tokenize_next h last (by simp)
    exact (Lexer.stable_next hnext).resolve_right fun hother => hother.1 hlast
  have hglyphs : ∀ g ∈ front.map Token.glyph, g.kind ≠ .endOfInput ∧ g.Stable := by
    rw [List.forall_mem_map]
    intro t ht
    obtain ⟨lx, lx', hnext⟩ := tokenize_next h t (List.mem_append_left _ ht)
    refine (Lexer.stable_next hnext).resolve_left fun hother => hfront t ht ?_
    exact congrArg Glyph.kind hother
  have htexts : ((front ++ [last]).filter (·.kind ≠ .endOfInput)).map Token.text =
      (front.map Token.glyph).map Glyph.text := by
    have hall : front.filter (·.kind ≠ .endOfInput) = front := by simpa using hfront
    rw [List.filter_append, hall]
    simp [hlast, Token.glyph]
  rw [htexts, List.map_append, List.map_singleton, hend]
  generalize front.map Token.glyph = gs at hglyphs
  have hstart : (Lexer.start (spaced sep (gs.map Glyph.text)) origin').rest =
      [] ++ (spaced sep (gs.map Glyph.text)).toList := by
    simp [Lexer.start, Lexer.startAt]
  have hlength := length_le_spaced (fun g hg => (hglyphs g hg).2) sep
  obtain ⟨ts, lx', hrun, hcomments, hts⟩ := Lexer.run_spaced hglyphs sep [] _ _ (by simp) hstart
    (Nat.lt_succ_of_le hlength)
  refine ⟨ts, tokenize_eq_ok.2 ⟨lx', hrun, ?_⟩, hts⟩
  rw [hcomments]
  rfl

/-- Points before a digit and before a letter, a shift before a slash and a comment, a number before
two points, a character that is no token, and a comment opener in a string. -/
theorem tokenize_spaced_lookahead :
    let sep : Separator := ⟨" \n\ufeff", by decide, by simp⟩
    ∃ tokens comments ts,
      tokenize "1.x>>>=/**//1...5e-3#\"/*\"// end" none = .ok (tokens, comments) ∧
      (tokens.filter (·.kind ≠ .endOfInput)).map Token.text =
        ["1", ".", "x", ">>", ">=", "/", "1.", ".", ".5e-3", "#", "\"/*\""] ∧
      tokenize (spaced (fun _ => sep) ["1", ".", "x", ">>", ">=", "/", "1.", ".", ".5e-3", "#",
        "\"/*\""]) none = .ok (ts, []) ∧ ts.map Token.glyph = tokens.map Token.glyph := by
  intro sep
  have hlexes : ((tokenize "1.x>>>=/**//1...5e-3#\"/*\"// end" none).map fun lexed =>
      (lexed.1.filter (·.kind ≠ .endOfInput)).map Token.text).toOption =
        some ["1", ".", "x", ">>", ">=", "/", "1.", ".", ".5e-3", "#", "\"/*\""] := by
    decide +kernel
  cases h : tokenize "1.x>>>=/**//1...5e-3#\"/*\"// end" none with
  | error fault =>
    rw [h] at hlexes
    cases hlexes
  | ok lexed =>
    obtain ⟨tokens, comments⟩ := lexed
    rw [h] at hlexes
    have htexts : (tokens.filter (·.kind ≠ .endOfInput)).map Token.text =
        ["1", ".", "x", ">>", ">=", "/", "1.", ".", ".5e-3", "#", "\"/*\""] :=
      Option.some.inj hlexes
    obtain ⟨ts, hts, hglyphs⟩ := tokenize_spaced h (fun _ => sep) none
    rw [htexts] at hts
    exact ⟨tokens, comments, ts, rfl, htexts, hts, hglyphs⟩

end MonkeyFormat
