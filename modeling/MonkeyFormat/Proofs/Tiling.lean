import MonkeyFormat.Proofs.Positions
import MonkeyFormat.Proofs.Spelling

set_option autoImplicit false

/-! # Tokens and comments tile the source

The lexer takes tokens, comments and white space off the front of the text, one after the other.
Hence the tokens and comments, put in order, are disjoint, each covers its own text, and between
them there is white space only. -/

namespace MonkeyFormat

/-! ## What is taken is a front of the text -/

namespace Lexeme

theorem isPrefix_append_of_drop {as bs cs : List Char} (ha : as <+: cs)
    (hb : bs <+: cs.drop as.length) : as ++ bs <+: cs := by
  obtain ⟨ds, rfl⟩ := ha
  rw [List.drop_left] at hb
  exact List.prefix_append_right_inj as |>.2 hb

theorem filter_take_one_isPrefix (p : Char → Bool) (cs : List Char) :
    (cs.take 1).filter p <+: cs := by
  cases cs with
  | nil => simp
  | cons c cs => by_cases hc : p c <;> simp [hc]

theorem fraction_isPrefix (b : Bool) (cs : List Char) : fraction b cs <+: cs := by
  unfold fraction
  split
  · next cs =>
    split
    · simpa using List.takeWhile_prefix Text.isDigit
    · split <;> simp
  · simp

theorem exponent_isPrefix (cs : List Char) : exponent cs <+: cs := by
  unfold exponent
  split
  · next e cs =>
    split
    · split
      · simpa using List.takeWhile_prefix Text.isDigit
      · cases cs with
        | nil => simp
        | cons sign ds =>
          dsimp only
          split
          · simpa using List.takeWhile_prefix Text.isDigit
          · simp
    · simp
  · simp

theorem decimalNumeral_isPrefix {cs taken : List Char} {kind : TokenKind}
    (h : decimalNumeral cs = .number kind taken) : taken <+: cs := by
  have hwhole := List.takeWhile_prefix (l := cs) Text.isDigit
  have hfraction := isPrefix_append_of_drop hwhole
    (fraction_isPrefix (!(cs.takeWhile Text.isDigit).isEmpty) _)
  have hpower := isPrefix_append_of_drop hfraction (exponent_isPrefix _)
  simp only [decimalNumeral, List.drop_drop, ← List.length_append] at h
  split at h
  · split at h
    · cases h
    · cases h
      exact isPrefix_append_of_drop hpower (filter_take_one_isPrefix _ _)
  · cases h
    exact isPrefix_append_of_drop hpower (filter_take_one_isPrefix _ _)

theorem numeral_isPrefix {cs taken : List Char} {kind : TokenKind}
    (h : numeral cs = .number kind taken) : taken <+: cs := by
  unfold numeral at h
  split at h
  · next x ds =>
    split at h
    · simp only [hexNumeral] at h
      split at h
      · cases h
      · cases h
        have hdigits : ['0', x] ++ ds.takeWhile isHexDigit <+: '0' :: x :: ds := by
          simpa using List.takeWhile_prefix isHexDigit
        refine isPrefix_append_of_drop hdigits ?_
        simpa using filter_take_one_isPrefix isLongSuffix (ds.drop (ds.takeWhile isHexDigit).length)
    · exact decimalNumeral_isPrefix h
  · exact decimalNumeral_isPrefix h

theorem quotedBody_isPrefix (quote : Char) (cs : List Char) : (quotedBody quote cs).1 <+: cs := by
  fun_induction quotedBody quote cs with
  | case1 => simp
  | case2 c cs body closed hbody ih => simpa [hbody] using ih
  | case3 => simp
  | case4 => simp
  | case5 => simp
  | case6 c cs _ _ _ _ body closed hbody ih => simpa [hbody] using ih

theorem blockBody_closed {cs : List Char} (h : (blockBody cs).2 = true) :
    ∃ rest, cs = (blockBody cs).1 ++ '*' :: '/' :: rest := by
  fun_induction blockBody cs with
  | case1 => cases h
  | case2 c cs hclose =>
    simp only [Bool.and_eq_true, decide_eq_true_eq, beq_iff_eq] at hclose
    obtain ⟨rfl, hslash⟩ := hclose
    obtain ⟨rest, rfl⟩ := List.head?_eq_some_iff.1 hslash
    exact ⟨rest, rfl⟩
  | case3 c cs _ body closed hbody ih =>
    rw [hbody] at ih
    obtain ⟨rest, hrest⟩ := ih h
    exact ⟨rest, congrArg (c :: ·) hrest⟩

/-- A token is taken off the front of the text. -/
theorem front?_isPrefix {cs taken : List Char} {kind : TokenKind}
    (h : front? cs = some (kind, taken)) : taken <+: cs := by
  cases cs with
  | nil => cases h
  | cons c cs =>
    simp only [front?] at h
    split at h
    · cases h
      exact List.takeWhile_prefix inWord
    split at h
    · split at h
      · next hnumeral =>
        cases h
        exact numeral_isPrefix hnumeral
      · cases h
    split at h
    · split at h
      · cases h
        simpa using quotedBody_isPrefix c cs
      · cases h
    · cases hsymbol : symbol? (c :: cs) with
      | none =>
        rw [hsymbol] at h
        cases h
        simp
      | some kt =>
        rw [hsymbol] at h
        cases h
        obtain ⟨n, -, rfl⟩ := symbol?_eq_take hsymbol
        exact List.take_prefix n (c :: cs)

/-- The end token is not taken off a text. -/
theorem front?_ne_endOfInput {cs taken : List Char} {kind : TokenKind}
    (h : front? cs = some (kind, taken)) : kind ≠ .endOfInput := by
  rcases reserved_of_front h with htext | hkind
  · exact (Doc.ofText?_ne_unknown htext).2
  · rintro rfl
    exact absurd hkind (by decide)

end Lexeme

/-! ## Tilings -/

/-- What the lexer cuts out of a source. -/
inductive Tile where
  | token (t : Token)
  | comment (c : Comment)

namespace Tile

def span : Tile → Span
  | .token t => t.span
  | .comment c => c.span

/-- The text of a token, or of a comment with its delimiters. -/
def text : Tile → String
  | .token t => t.text
  | .comment c => c.text

def token? : Tile → Option Token
  | .token t => some t
  | .comment _ => none

def comment? : Tile → Option Comment
  | .token _ => none
  | .comment c => some c

end Tile

/-- The characters counted on from a place are white space and the given tiles, one after the
other. -/
inductive Tiles : Place → List Char → List Tile → Prop
  | nil (p : Place) : Tiles p [] []
  | gap {p : Place} {c : Char} {cs : List Char} {ts : List Tile} (hgap : Lexeme.isGap c = true)
      (h : Tiles (p.next c) cs ts) : Tiles p (c :: cs) ts
  | tile {p : Place} {taken cs : List Char} {t : Tile} {ts : List Tile} (hne : taken ≠ [])
      (htext : t.text = String.ofList taken) (hspan : t.span = p.upTo (p.after taken))
      (h : Tiles (p.after taken) cs ts) : Tiles p (taken ++ cs) (t :: ts)

namespace Tiles

variable {p : Place} {cs : List Char} {ts : List Tile}

theorem gaps {gap : List Char} (hgap : ∀ c ∈ gap, Lexeme.isGap c = true)
    (h : Tiles (p.after gap) cs ts) : Tiles p (gap ++ cs) ts := by
  induction gap generalizing p with
  | nil => exact h
  | cons c gap ih =>
    exact .gap (hgap c List.mem_cons_self) (ih (fun d hd => hgap d (List.mem_cons_of_mem c hd)) h)

theorem single {t : Tile} (hne : cs ≠ []) (htext : t.text = String.ofList cs)
    (hspan : t.span = p.upTo (p.after cs)) : Tiles p cs [t] := by
  simpa using Tiles.tile hne htext hspan (.nil _)

theorem append (h : Tiles p cs ts) {ds : List Char} {us : List Tile}
    (h' : Tiles (p.after cs) ds us) : Tiles p (cs ++ ds) (ts ++ us) := by
  induction h with
  | nil => exact h'
  | gap hgap _ ih => exact .gap hgap (ih h')
  | @tile p taken cs t ts hne htext hspan _ ih =>
    rw [List.append_assoc]
    refine .tile hne htext hspan (ih ?_)
    rwa [Place.after, List.foldl_append] at h'

/-- The tiles stand in the text that they tile, behind the place where it starts. -/
theorem stand {front : List Char} (h : Tiles (.ofOffset front front.length) cs ts) : ∀ t ∈ ts,
    t.span.Coherent (front ++ cs) ∧ front.length ≤ t.span.start ∧ t.span.start < t.span.stop ∧
      t.text.toList = t.span.textIn (front ++ cs) := by
  generalize hp : Place.ofOffset front front.length = p at h
  induction h generalizing front with
  | nil =>
    intro t ht
    cases ht
  | @gap p c cs ts _ _ ih =>
    subst hp
    intro t ht
    obtain ⟨hcoherent, hstart, hrest⟩ := ih (Place.next_ofOffset front c).symm t ht
    rw [List.append_assoc, List.singleton_append] at hcoherent hrest
    rw [List.length_append, List.length_singleton] at hstart
    exact ⟨hcoherent, by omega, hrest⟩
  | @tile p taken cs t ts hne htext hspan _ ih =>
    subst hp
    intro u hu
    have hpos : 0 < taken.length := List.length_pos_iff.2 hne
    rw [← List.append_assoc]
    rcases List.mem_cons.1 hu with rfl | hu
    · obtain ⟨hcoherent, htextIn⟩ := Place.coherent_upTo front taken cs
      rw [← hspan] at hcoherent htextIn
      have hstart : u.span.start = front.length := by
        rw [hspan]
        rfl
      have hstop : u.span.stop = front.length + taken.length := by
        rw [hspan]
        exact Lexer.offset_after _ taken
      refine ⟨hcoherent, by omega, by omega, ?_⟩
      rw [htext, String.toList_ofList, htextIn]
    · obtain ⟨hcoherent, hstart, hrest⟩ := ih (Place.after_ofOffset front taken).symm u hu
      rw [List.length_append] at hstart
      exact ⟨hcoherent, by omega, hrest⟩

theorem offset_le (h : Tiles p cs ts) : ∀ t ∈ ts, p.offset ≤ t.span.start := by
  induction h with
  | nil =>
    intro t ht
    cases ht
  | @gap p c _ _ _ _ ih =>
    intro t ht
    have hnext : (p.next c).offset = p.offset + 1 := Lexer.offset_after p [c]
    have := ih t ht
    omega
  | @tile p taken _ t _ _ _ hspan _ ih =>
    intro u hu
    rcases List.mem_cons.1 hu with rfl | hu
    · rw [hspan]
      exact Int.le_refl _
    · have hafter := Lexer.offset_after p taken
      have := ih u hu
      omega

/-- Each tile ends before the next one starts. -/
theorem ordered (h : Tiles p cs ts) : ts.Pairwise fun t u => t.span.stop ≤ u.span.start := by
  induction h with
  | nil => exact .nil
  | gap _ _ ih => exact ih
  | tile _ _ hspan h ih =>
    refine .cons (fun u hu => ?_) ih
    rw [hspan]
    exact h.offset_le u hu

/-- What no tile covers is white space. -/
theorem isGap_of_uncovered (h : Tiles p cs ts) (i : Nat) (hi : i < cs.length)
    (hfree : ∀ t ∈ ts, ¬ (t.span.start ≤ p.offset + i ∧ p.offset + i < t.span.stop)) :
    Lexeme.isGap cs[i] = true := by
  induction h generalizing i with
  | nil => cases hi
  | @gap p c cs ts hgap _ ih =>
    cases i with
    | zero => exact hgap
    | succ i =>
      have hnext : (p.next c).offset = p.offset + 1 := Lexer.offset_after p [c]
      refine ih i (by simpa using hi) fun t ht => ?_
      have := hfree t ht
      omega
  | @tile p taken cs t ts hne htext hspan _ ih =>
    have hafter := Lexer.offset_after p taken
    by_cases hin : i < taken.length
    · -- the tile itself covers the character
      have hcovered := hfree t List.mem_cons_self
      rw [hspan] at hcovered
      simp only [Place.upTo] at hcovered
      omega
    · rw [List.length_append] at hi
      rw [List.getElem_append_right (by omega)]
      refine ih (i - taken.length) (by omega) fun u hu => ?_
      have := hfree u (List.mem_cons_of_mem t hu)
      omega

end Tiles

/-! ## The lexer tiles what it passes -/

namespace Lexer

/-- On its way from one state to another the lexer passes the given tiles, and keeps the
comments. -/
structure Crosses (lx lx' : Lexer) (taken : List Char) (ts : List Tile) : Prop where
  rest : lx.rest = taken ++ lx'.rest
  place : lx'.place = lx.place.after taken
  tiles : Tiles lx.place taken ts
  comments : lx'.comments = (ts.filterMap Tile.comment?).reverse ++ lx.comments

namespace Crosses

variable {lx lx' lx'' : Lexer} {cs ds : List Char} {ts us : List Tile}

theorem refl (lx : Lexer) : Crosses lx lx [] [] := ⟨rfl, rfl, .nil lx.place, rfl⟩

theorem trans (h : Crosses lx lx' cs ts) (h' : Crosses lx' lx'' ds us) :
    Crosses lx lx'' (cs ++ ds) (ts ++ us) where
  rest := by rw [h.rest, h'.rest, List.append_assoc]
  place := by rw [h'.place, h.place, Place.after, Place.after, Place.after, List.foldl_append]
  tiles := h.tiles.append (h.place ▸ h'.tiles)
  comments := by
    rw [h'.comments, h.comments, List.filterMap_append, List.reverse_append, List.append_assoc]

theorem gap {gap : List Char} (hgap : ∀ c ∈ gap, Lexeme.isGap c = true)
    (h : gap <+: lx.rest) : Crosses lx (lx.passed gap) gap [] where
  rest := by
    obtain ⟨rest, hrest⟩ := h
    rw [passed_rest lx hrest.symm, hrest]
  place := rfl
  tiles := by
    have := (Tiles.nil (lx.place.after gap)).gaps hgap
    rwa [List.append_nil] at this
  comments := rfl

theorem token {taken : List Char} (kind : TokenKind) (hne : taken ≠ []) (h : taken <+: lx.rest) :
    Crosses lx (lx.passed taken) taken
      [.token ⟨kind, String.ofList taken, lx.place.upTo (lx.passed taken).place⟩] where
  rest := by
    obtain ⟨rest, hrest⟩ := h
    rw [passed_rest lx hrest.symm, hrest]
  place := rfl
  tiles := .single hne rfl rfl
  comments := rfl

theorem comment {taken : List Char} (kind value : String) (hne : taken ≠ [])
    (h : taken <+: lx.rest)
    (htext : (Comment.mk kind value (lx.place.upTo (lx.passed taken).place)).text.toList = taken) :
    Crosses lx { lx.passed taken with
        comments := ⟨kind, value, lx.place.upTo (lx.passed taken).place⟩ :: lx.comments }
      taken [.comment ⟨kind, value, lx.place.upTo (lx.passed taken).place⟩] where
  rest := by
    obtain ⟨rest, hrest⟩ := h
    rw [← hrest]
    exact congrArg _ (passed_rest lx hrest.symm).symm
  place := rfl
  tiles := by
    refine .single hne ?_ rfl
    rw [← htext, String.ofList_toList]
    rfl
  comments := rfl

end Crosses

theorem crosses_skipGapsWith (fuel : Nat) : ∀ {lx lx' : Lexer},
    (skipGapsWith fuel).run.run lx = (.ok (), lx') →
      ∃ cs ts, Crosses lx lx' cs ts ∧ ts.filterMap Tile.token? = [] := by
  induction fuel with
  | zero =>
    intro lx lx' hrun
    cases hrun
    exact ⟨[], [], .refl lx, rfl⟩
  | succ fuel ih =>
    intro lx lx' hrun
    unfold skipGapsWith at hrun
    rw [run_bind_ok _ (run_get lx)] at hrun
    split at hrun
    · next ds heq =>
      rw [run_bind_ok _ (run_lineComment heq)] at hrun
      obtain ⟨cs, ts, hcrosses, htokens⟩ := ih hrun
      have hfront : '/' :: '/' :: ds.takeWhile (fun c => !Lexeme.endsLine c) <+: lx.rest := by
        rw [heq]
        simpa using List.takeWhile_prefix _
      have hcomment := Crosses.comment "Line"
        (String.ofList (ds.takeWhile fun c => !Lexeme.endsLine c)) (List.cons_ne_nil _ _) hfront
        (by simp [Comment.text, Comment.isBlock])
      exact ⟨_, _, hcomment.trans hcrosses, htokens⟩
    · next ds heq =>
      obtain ⟨_, mid, hcomment, hrun⟩ := run_bind_eq_ok hrun
      obtain ⟨hclosed, rfl⟩ := run_blockComment heq hcomment
      obtain ⟨rest, hrest⟩ := Lexeme.blockBody_closed hclosed
      obtain ⟨cs, ts, hcrosses, htokens⟩ := ih hrun
      have hfront : '/' :: '*' :: ((Lexeme.blockBody ds).1 ++ ['*', '/']) <+: lx.rest := by
        refine ⟨rest, ?_⟩
        rw [heq]
        simpa using hrest.symm
      have hcomment := Crosses.comment "Block" (String.ofList (Lexeme.blockBody ds).1)
        (List.cons_ne_nil _ _) hfront (by simp [Comment.text, Comment.isBlock])
      exact ⟨_, _, hcomment.trans hcrosses, htokens⟩
    · split at hrun
      · rw [run_bind_ok _ (run_get lx), run_bind_ok _ (run_pass _ _)] at hrun
        obtain ⟨cs, ts, hcrosses, htokens⟩ := ih hrun
        have hgap : Crosses lx (lx.passed (lx.rest.takeWhile Lexeme.isGap)) _ [] :=
          .gap (List.all_eq_true.1 List.all_takeWhile) (List.takeWhile_prefix Lexeme.isGap)
        exact ⟨_, _, hgap.trans hcrosses, htokens⟩
      · cases hrun
        exact ⟨[], [], .refl lx, rfl⟩
    · cases hrun
      exact ⟨[], [], .refl lx, rfl⟩

/-- The lexer's next token: the end token at the end, else the last of the tiles passed. -/
theorem crosses_next {lx lx' : Lexer} {t : Token} (hrun : next.run.run lx = (.ok t, lx')) :
    ∃ cs ts, Crosses lx lx' cs ts ∧
      ((lx'.rest = [] ∧ t = ⟨.endOfInput, "EOF", lx'.place.upTo lx'.place⟩ ∧
          ts.filterMap Tile.token? = []) ∨
        (t.kind ≠ .endOfInput ∧ ts.filterMap Tile.token? = [t])) := by
  obtain ⟨mid, hgaps, hcases⟩ := run_next_eq_ok hrun
  unfold skipGaps at hgaps
  rw [run_bind_ok _ (run_get lx)] at hgaps
  obtain ⟨cs, ts, hcrosses, htokens⟩ := crosses_skipGapsWith _ hgaps
  rcases hcases with ⟨hrest, rfl, rfl⟩ | ⟨kind, taken, hfront, rfl, rfl⟩
  · exact ⟨cs, ts, hcrosses, .inl ⟨hrest, rfl, htokens⟩⟩
  · have htoken := Crosses.token kind (Lexeme.spelling_of_front hfront).nonempty
      (Lexeme.front?_isPrefix hfront)
    refine ⟨_, _, hcrosses.trans htoken, .inr ⟨Lexeme.front?_ne_endOfInput hfront, ?_⟩⟩
    rw [List.filterMap_append, htokens]
    rfl

theorem crosses_tokensWith (fuel : Nat) : ∀ {lx lx' : Lexer} {us : List Token},
    (tokensWith fuel).run.run lx = (.ok us, lx') →
      ∃ cs ts, Crosses lx lx' cs ts ∧ lx'.rest = [] ∧
        us = ts.filterMap Tile.token? ++ [⟨.endOfInput, "EOF", lx'.place.upTo lx'.place⟩] ∧
        ∀ t ∈ ts.filterMap Tile.token?, t.kind ≠ .endOfInput := by
  induction fuel with
  | zero =>
    intro lx lx' us hrun
    cases hrun
  | succ fuel ih =>
    intro lx lx' us hrun
    unfold tokensWith at hrun
    obtain ⟨t, mid, hnext, hrun⟩ := run_bind_eq_ok hrun
    obtain ⟨cs, ts, hcrosses, hcases⟩ := crosses_next hnext
    split at hrun
    · next hkind =>
      cases hrun
      rcases hcases with ⟨hrest, rfl, htokens⟩ | ⟨hne, -⟩
      · refine ⟨cs, ts, hcrosses, hrest, ?_, ?_⟩ <;> simp [htokens]
      · exact absurd hkind hne
    · next hkind =>
      obtain ⟨vs, last, hvs, hrun⟩ := run_bind_eq_ok hrun
      cases hrun
      obtain ⟨ds, us, hcrosses', hrest, rfl, hkinds⟩ := ih hvs
      rcases hcases with ⟨-, rfl, -⟩ | ⟨hne, htokens⟩
      · exact absurd rfl hkind
      · refine ⟨_, _, hcrosses.trans hcrosses', hrest, ?_, ?_⟩
        · simp [htokens]
        · rw [List.filterMap_append, htokens]
          simpa [hne] using hkinds

end Lexer

/-- Tokens and comments tile a source: in order they are the given tiles, which are disjoint and
cover their own texts, and behind them stands the end token. -/
structure Tiling (source : String) (tokens : List Token) (comments : List Comment)
    (tiles : List Tile) : Prop where
  comments : comments = tiles.filterMap Tile.comment?
  tokens : ∃ last : Token, tokens = tiles.filterMap Tile.token? ++ [last] ∧
    last.kind = .endOfInput ∧ last.span.start = source.length ∧ last.span.stop = source.length ∧
    last.span.Coherent source.toList
  kinds : ∀ t ∈ tiles.filterMap Tile.token?, t.kind ≠ .endOfInput
  ordered : tiles.Pairwise fun t u => t.span.stop ≤ u.span.start
  nonempty : ∀ t ∈ tiles, t.span.start < t.span.stop
  coherent : ∀ t ∈ tiles, t.span.Coherent source.toList
  texts : ∀ t ∈ tiles, t.text.toList = t.span.textIn source.toList
  gaps : ∀ (i : Nat) (hi : i < source.toList.length),
    (∀ t ∈ tiles, ¬ (t.span.start ≤ i ∧ i < t.span.stop)) → Lexeme.isGap source.toList[i] = true

/-- The end token stands at the end of the tokens only. -/
theorem Tiling.ends {source : String} {tokens : List Token} {comments : List Comment}
    {tiles : List Tile} (h : Tiling source tokens comments tiles) :
    ∃ front last, tokens = front ++ [last] ∧ last.kind = .endOfInput ∧
      ∀ t ∈ front, t.kind ≠ .endOfInput := by
  obtain ⟨last, htokens, hlast, -⟩ := h.tokens
  exact ⟨_, last, htokens, hlast, h.kinds⟩

/-- Every token but the end token is a tile. -/
theorem Tiling.mem_tiles {source : String} {tokens : List Token} {comments : List Comment}
    {tiles : List Tile} (h : Tiling source tokens comments tiles) {t : Token} (ht : t ∈ tokens)
    (hkind : t.kind ≠ .endOfInput) : Tile.token t ∈ tiles := by
  obtain ⟨last, rfl, hlast, -⟩ := h.tokens
  rcases List.mem_append.1 ht with ht | ht
  · obtain ⟨tile, htile, heq⟩ := List.mem_filterMap.1 ht
    cases tile with
    | token u =>
      cases heq
      exact htile
    | comment c => cases heq
  · rw [List.mem_singleton.1 ht] at hkind
    exact absurd hlast hkind

/-- A run of the lexer tiles the source that it starts from. -/
theorem Lexer.tiling_tokensWith {source : String} {origin : Option String} {fuel : Nat}
    {tokens : List Token} {lx : Lexer}
    (hrun : (tokensWith fuel).run.run (start source origin) = (.ok tokens, lx)) :
    ∃ tiles, Tiling source tokens lx.comments.reverse tiles := by
  obtain ⟨cs, ts, hcrosses, hrest, htokens, hkinds⟩ := crosses_tokensWith _ hrun
  have hcs : source.toList = cs := by
    have := hcrosses.rest
    rwa [hrest, List.append_nil] at this
  have htiles : Tiles (.ofOffset [] 0) source.toList ts := hcs ▸ hcrosses.tiles
  have hstand := Tiles.stand htiles
  have hend : lx.place = .ofOffset source.toList source.toList.length := by
    rw [hcrosses.place, ← hcs]
    exact Place.after_ofOffset [] source.toList
  refine ⟨ts, ?_, ⟨_, htokens, rfl, ?_, ?_, ?_⟩, hkinds, htiles.ordered, ?_, ?_, ?_, ?_⟩
  · rw [hcrosses.comments, List.reverse_append, List.reverse_reverse]
    rfl
  · rw [hend, ← String.length_toList]
    rfl
  · rw [hend, ← String.length_toList]
    rfl
  · have := (Place.coherent_upTo source.toList [] []).1
    rw [List.append_nil, List.append_nil] at this
    rwa [hend]
  · exact fun t ht => (hstand t ht).2.2.1
  · exact fun t ht => (hstand t ht).1
  · exact fun t ht => (hstand t ht).2.2.2
  · intro i hi hfree
    refine htiles.isGap_of_uncovered i hi fun t ht => ?_
    have hoffset : (Place.ofOffset [] 0).offset = 0 := rfl
    rw [hoffset, zero_add]
    exact hfree t ht

/-- The lexer tiles the source. -/
theorem tokenize_tiling {source : String} {origin : Option String} {tokens : List Token}
    {comments : List Comment} (h : tokenize source origin = .ok (tokens, comments)) :
    ∃ tiles, Tiling source tokens comments tiles := by
  obtain ⟨lx, hrun, rfl⟩ := tokenize_eq_ok.1 h
  exact Lexer.tiling_tokensWith hrun

theorem tokenize_tiling_assignment :
    ∃ tokens comments tiles, tokenize "a /*b*/\n= \"c\";" none = .ok (tokens, comments) ∧
      Tiling "a /*b*/\n= \"c\";" tokens comments tiles := by
  have hlexes : (tokenize "a /*b*/\n= \"c\";" none).toBool = true := by decide +kernel
  cases h : tokenize "a /*b*/\n= \"c\";" none with
  | error fault =>
    rw [h] at hlexes
    cases hlexes
  | ok lexed =>
    obtain ⟨tokens, comments⟩ := lexed
    obtain ⟨tiles, htiles⟩ := tokenize_tiling h
    exact ⟨tokens, comments, tiles, rfl, htiles⟩

end MonkeyFormat
