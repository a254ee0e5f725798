import MonkeyFormat.Proofs.Lexing
import MonkeyFormat.Proofs.Rendering

set_option autoImplicit false

/-! # Documents that spell tokens

A document spells tokens if each of its layouts lexes into them. Whether it does can depend on what
comes before and behind it, since words run together and symbols grow longer. So a document is said
to spell tokens from one edge to another: the first says what a text before it can stand, the second
what a text behind it has to respect. -/

namespace MonkeyFormat

namespace Doc

/-! ## Edges -/

/-- What may follow a text without changing its last token. -/
inductive Edge where
  /-- Anything. -/
  | fresh
  /-- What does not lengthen a word. -/
  | word
  /-- What does not make a number of a point. -/
  | dotted
  /-- What does not lengthen a symbol. -/
  | symbol
  /-- What lengthens neither a word nor a symbol. -/
  | ending
  /-- White space only. -/
  | operator
deriving DecidableEq

/-- May the text stand behind the edge? -/
def Edge.admits : Edge → List Char → Prop
  | .fresh, _ => True
  | .word, cs => ∀ c, cs.head? = some c → Lexeme.inWord c = false
  | .dotted, cs => Lexeme.startsDigit cs = false
  | .symbol, cs => ∀ c, cs.head? = some c → c ∉ Lexeme.extenders
  | .ending, cs => ∀ c, cs.head? = some c → Lexeme.inWord c = false ∧ c ∉ Lexeme.extenders
  | .operator, cs => ∀ c, cs.head? = some c → Lexeme.isGap c = true

theorem inWord_of_isGap {c : Char} (h : Lexeme.isGap c = true) : Lexeme.inWord c = false := by
  simp only [Lexeme.isGap, Bool.or_eq_true, decide_eq_true_eq] at h
  rcases h with (((((rfl | rfl) | rfl) | rfl) | rfl) | rfl) | rfl
  all_goals decide +kernel

theorem isDigit_of_isGap {c : Char} (h : Lexeme.isGap c = true) : Text.isDigit c = false := by
  simp only [Lexeme.isGap, Bool.or_eq_true, decide_eq_true_eq] at h
  rcases h with (((((rfl | rfl) | rfl) | rfl) | rfl) | rfl) | rfl
  all_goals decide +kernel

theorem not_extender_of_isGap {c : Char} (h : Lexeme.isGap c = true) :
    c ∉ Lexeme.extenders ∧ c ≠ '/' ∧ c ≠ '*' := by
  simp only [Lexeme.isGap, Bool.or_eq_true, decide_eq_true_eq] at h
  rcases h with (((((rfl | rfl) | rfl) | rfl) | rfl) | rfl) | rfl
  all_goals decide +kernel

/-- White space, and the end, may stand behind every edge. -/
theorem Edge.admits_of_gap {cs : List Char} (h : Edge.operator.admits cs) :
    ∀ e : Edge, e.admits cs
  | .fresh => trivial
  | .word => fun c hc => inWord_of_isGap (h c hc)
  | .dotted => by
    cases cs with
    | nil => rfl
    | cons c cs => exact isDigit_of_isGap (h c rfl)
  | .symbol => fun c hc => (not_extender_of_isGap (h c hc)).1
  | .ending => fun c hc => ⟨inWord_of_isGap (h c hc), (not_extender_of_isGap (h c hc)).1⟩
  | .operator => h

theorem Edge.operator_admits_cons {c : Char} {cs : List Char} (h : Lexeme.isGap c = true) :
    Edge.operator.admits (c :: cs) := by
  rintro d ⟨⟩
  exact h

theorem Edge.operator_admits_of_endsLine {cs : List Char} (h : endsLine cs = true) :
    Edge.operator.admits cs := by
  cases cs with
  | nil => rintro c ⟨⟩
  | cons c cs =>
    obtain rfl : c = '\n' := of_decide_eq_true h
    exact operator_admits_cons rfl

/-! ## Pieces that spell tokens -/

/-- Behind the edge `s` and before the edge `t` the pieces lex into the tokens, however they are
laid out and whatever comes behind them. -/
def Spelled (s : Edge) (ps : List Piece) (gs : List Glyph) (t : Edge) : Prop :=
  ∀ qs hs, (∀ cs, Expands qs cs → Lexeme.Scans cs hs ∧ t.admits cs) →
    ∀ cs, Expands (ps ++ qs) cs → Lexeme.Scans cs (gs ++ hs) ∧ s.admits cs

namespace Spelled

variable {s t u : Edge} {ps qs : List Piece} {gs hs : List Glyph}

theorem refl (s : Edge) : Spelled s [] [] s := fun _ _ h => h

theorem trans (hp : Spelled s ps gs t) (hq : Spelled t qs hs u) :
    Spelled s (ps ++ qs) (gs ++ hs) u := by
  intro rs is hr cs hcs
  rw [List.append_assoc] at hcs ⊢
  exact hp _ _ (hq _ _ hr) cs hcs

theorem fromFresh (h : Spelled s ps gs t) : Spelled .fresh ps gs t :=
  fun qs hs hq cs hcs => ⟨(h qs hs hq cs hcs).1, trivial⟩

theorem fromDotted (h : Spelled .fresh ps gs t)
    (hstart : ∀ qs cs, Expands (ps ++ qs) cs → Lexeme.startsDigit cs = false) :
    Spelled .dotted ps gs t :=
  fun qs hs hq cs hcs => ⟨(h qs hs hq cs hcs).1, hstart qs cs hcs⟩

theorem ofFresh (h : Spelled s ps gs .fresh) (t : Edge) : Spelled s ps gs t :=
  fun qs hs hq => h qs hs fun cs hcs => ⟨(hq cs hcs).1, trivial⟩

/-- Behind a symbol may stand what starts with a token that does not lengthen it. -/
theorem fromSymbol {g : Glyph} (h : Spelled .fresh ps (g :: gs) t)
    (hg : ∀ c, g.text.toList.head? = some c → c ∉ Lexeme.extenders) :
    Spelled .symbol ps (g :: gs) t := by
  intro qs hs hq cs hcs
  refine ⟨(h qs hs hq cs hcs).1, ?_⟩
  have hscan := (h qs hs hq cs hcs).1
  cases hscan with
  | token gap taken rest kind _ hgap _ _ htaken =>
    rintro c hc
    cases gap with
    | cons d gap =>
      cases hc
      exact (not_extender_of_isGap (hgap c List.mem_cons_self)).1
    | nil =>
      cases taken with
      | nil => exact absurd rfl htaken
      | cons d taken =>
        cases hc
        exact hg c (by simp)

theorem fromEnding (h : Spelled .ending ps gs t) : Spelled .word ps gs t :=
  fun qs hs hq cs hcs => ⟨(h qs hs hq cs hcs).1, fun c hc => ((h qs hs hq cs hcs).2 c hc).1⟩

theorem toEnding (h : Spelled s ps gs .word) : Spelled s ps gs .ending :=
  fun qs hs hq => h qs hs fun cs hcs => ⟨(hq cs hcs).1, fun c hc => ((hq cs hcs).2 c hc).1⟩

theorem toOperator (h : Spelled s ps gs t) : Spelled s ps gs .operator :=
  fun qs hs hq => h qs hs fun cs hcs => ⟨(hq cs hcs).1, Edge.admits_of_gap (hq cs hcs).2 t⟩

/-! ### White space -/

theorem blank (s : Edge) : Spelled s [.char ' '] [] .fresh := by
  intro qs hs hq cs hcs
  cases hcs with
  | char c ps cs h =>
    exact ⟨(hq _ h).1.gap rfl, Edge.admits_of_gap (Edge.operator_admits_cons rfl) s⟩
  | trimmed c ps cs _ hend h =>
    exact ⟨(hq _ h).1, Edge.admits_of_gap (Edge.operator_admits_of_endsLine hend) s⟩

theorem scans_broken {n : Nat} {cs : List Char} (h : Lexeme.Scans cs gs) (s : Edge) :
    Lexeme.Scans ('\n' :: (List.replicate n ' ' ++ cs)) gs ∧
      s.admits ('\n' :: (List.replicate n ' ' ++ cs)) := by
  refine ⟨Lexeme.Scans.gap (h.gaps ?_) rfl,
    Edge.admits_of_gap (Edge.operator_admits_cons rfl) s⟩
  intro c hc
  rw [(List.mem_replicate.1 hc).2]
  rfl

theorem line (s : Edge) (kind : LineKind) (hkind : kind ≠ .soft) :
    Spelled s [.line kind] [] .fresh := by
  intro qs hs hq cs hcs
  cases hcs with
  | flat => exact absurd rfl hkind
  | space ps cs h =>
    exact ⟨(hq _ h).1.gap rfl, Edge.admits_of_gap (Edge.operator_admits_cons rfl) s⟩
  | spaceTrimmed ps cs hend h =>
    exact ⟨(hq _ h).1, Edge.admits_of_gap (Edge.operator_admits_of_endsLine hend) s⟩
  | broken kind n ps cs h => exact scans_broken (hq _ h).1 s

theorem soft (s : Edge) : Spelled s [.line .soft] [] s := by
  intro qs hs hq cs hcs
  cases hcs with
  | flat ps cs h => exact hq _ h
  | broken kind n ps cs h => exact scans_broken (hq _ h).1 s

end Spelled

/-! ## Words and symbols -/

/-- A text without blanks is laid out as it is. -/
theorem expands_solid {w : List Char} (hw : ∀ c ∈ w, Output.isTrailing c = false)
    {qs : List Piece} {cs : List Char} (h : Expands (w.map .char ++ qs) cs) :
    ∃ rest, cs = w ++ rest ∧ Expands qs rest := by
  induction w generalizing cs with
  | nil => exact ⟨cs, rfl, h⟩
  | cons c w ih =>
    rw [List.forall_mem_cons] at hw
    cases h with
    | char c ps ds h =>
      obtain ⟨rest, rfl, hrest⟩ := ih hw.2 h
      exact ⟨rest, rfl, hrest⟩
    | trimmed c ps ds hc =>
      rw [hw.1] at hc
      cases hc

theorem isTrailing_of_inWord {c : Char} (h : Lexeme.inWord c = true) :
    Output.isTrailing c = false := by
  rw [Bool.eq_false_iff]
  intro hc
  simp only [Output.isTrailing, Bool.or_eq_true, decide_eq_true_eq] at hc
  rcases hc with rfl | rfl <;> exact absurd h (by decide)

theorem ofText?_ne_unknown {s : String} {kind : TokenKind} (h : TokenKind.ofText? s = some kind) :
    kind ≠ .unknown ∧ kind ≠ .endOfInput := by
  have hall : ∀ r ∈ Lexeme.reserved, TokenKind.ofText? r ≠ some .unknown ∧
      TokenKind.ofText? r ≠ some .endOfInput := by decide +kernel
  have hs := hall s (Lexeme.mem_reserved_of_ofText? h)
  rw [h] at hs
  exact ⟨fun hk => hs.1 (congrArg some hk), fun hk => hs.2 (congrArg some hk)⟩

theorem glyph_kind_ne (s : String) :
    (Glyph.of s).kind ≠ .unknown ∧ (Glyph.of s).kind ≠ .endOfInput := by
  cases h : TokenKind.ofText? s with
  | none => simp [Glyph.of, h]
  | some kind => simpa [Glyph.of, h] using ofText?_ne_unknown h

/-- A word spells its token. -/
theorem spelled_word {w : String} {c : Char} {cs : List Char} (hw : w.toList = c :: cs)
    (hc : Lexeme.startsWord c = true) (hall : ∀ d ∈ c :: cs, Lexeme.inWord d) :
    Spelled .fresh (textPieces w) [Glyph.of w] .word := by
  intro qs hs hq ds hds
  rw [textPieces, hw] at hds
  obtain ⟨rest, rfl, hrest⟩ := expands_solid (fun d hd => isTrailing_of_inWord (hall d hd)) hds
  obtain ⟨hscan, hnext⟩ := hq rest hrest
  have hwof : String.ofList (c :: cs) = w := by rw [← hw, String.ofList_toList]
  have hfront := Lexeme.front?_word hc hall hnext
  rw [hwof] at hfront
  have htoken := Lexeme.Scans.token [] (c :: cs) rest _ hs (by simp)
    (Lexeme.startsGap_of_startsWord hc) hfront (List.cons_ne_nil _ _)
    (glyph_kind_ne w).1 (glyph_kind_ne w).2 hscan
  rw [hwof] at htoken
  exact ⟨htoken, trivial⟩

theorem isDigit_of_startsWord {c : Char} (h : Lexeme.startsWord c = true) :
    Text.isDigit c = false := by
  simp only [Lexeme.startsWord, Bool.or_eq_true, decide_eq_true_eq] at h
  rcases h with (h | rfl) | rfl
  · exact Text.isDigit_of_isLetter h
  · decide
  · decide

/-- A word may also follow a point. -/
theorem spelled_word_dotted {w : String} {c : Char} {cs : List Char} (hw : w.toList = c :: cs)
    (hc : Lexeme.startsWord c = true) (hall : ∀ d ∈ c :: cs, Lexeme.inWord d) :
    Spelled .dotted (textPieces w) [Glyph.of w] .word := by
  refine (spelled_word hw hc hall).fromDotted fun qs ds hds => ?_
  rw [textPieces, hw] at hds
  obtain ⟨rest, rfl, _⟩ := expands_solid (fun d hd => isTrailing_of_inWord (hall d hd)) hds
  exact isDigit_of_startsWord hc

/-- The symbol tokens: texts with a kind of their own that do not start like a word, a number or a
quotation. -/
def isSymbol (w : List Char) : Bool :=
  match w with
  | [] => false
  | c :: cs =>
    (TokenKind.ofText? (String.ofList w)).isSome && decide (cs.length ≤ 2) &&
      !Lexeme.startsWord c && !Text.isDigit c && !Lexeme.isGap c && c ≠ '"' && c ≠ '\'' &&
      w.all fun d => !Output.isTrailing d

/-- A symbol spells its token where what follows does not lengthen it. -/
theorem spelled_symbol {w : List Char} (hw : isSymbol w = true) {s t : Edge}
    (hs : ∀ rest, s.admits (w ++ rest))
    (hmax : ∀ rest, t.admits rest → ∀ d, rest.head? = some d → Lexeme.Maximal w d)
    (hgap : w = ['/'] → ∀ rest, t.admits rest → ∀ d, rest.head? = some d → d ≠ '/' ∧ d ≠ '*')
    (hpoint : w.head? = some '.' → ∀ rest, t.admits rest →
      Lexeme.startsDigit (w.tail ++ rest) = false) :
    Spelled s (w.map .char) [Glyph.of (String.ofList w)] t := by
  intro qs hs' hq ds hds
  cases w with
  | nil => cases hw
  | cons c cs =>
    simp only [isSymbol, Bool.and_eq_true, Bool.not_eq_true', Option.isSome_iff_exists,
      List.all_eq_true, decide_eq_true_eq] at hw
    obtain ⟨⟨⟨⟨⟨⟨⟨⟨kind, hkind⟩, hlen⟩, hword⟩, hdigit⟩, hblank⟩, hquote⟩, hquote'⟩, hsolid⟩ := hw
    obtain ⟨rest, rfl, hrest⟩ := expands_solid hsolid hds
    obtain ⟨hscan, hnext⟩ := hq rest hrest
    have hglyph : Glyph.of (String.ofList (c :: cs)) = ⟨kind, String.ofList (c :: cs)⟩ := by
      rw [Glyph.of, hkind]
      rfl
    have hfront := Lexeme.front?_symbol hkind hlen hword hdigit
      (fun hc => hpoint (by rw [hc]; rfl) rest hnext) ⟨hquote, hquote'⟩ (hmax rest hnext)
    have hstart : Lexeme.startsGap ((c :: cs) ++ rest) = false := by
      apply Lexeme.startsGap_cons hblank
      rintro rfl d hd
      cases cs with
      | nil => exact hgap rfl rest hnext d hd
      | cons e es =>
        cases hd
        have hslash : ∀ r ∈ Lexeme.reserved, r.toList.head? = some '/' →
            r.toList.tail.head?.all (fun d => d ≠ '/' && d ≠ '*') = true := by decide +kernel
        have := hslash _ (Lexeme.mem_reserved_of_ofText? hkind) (by simp)
        simpa using this
    have htoken := Lexeme.Scans.token [] (c :: cs) rest kind hs' (by simp) hstart hfront
      (List.cons_ne_nil _ _) (ofText?_ne_unknown hkind).1 (ofText?_ne_unknown hkind).2 hscan
    rw [hglyph]
    exact ⟨htoken, hs rest⟩

theorem isSymbol_of_mem_closedSymbols {c : Char} (hc : c ∈ Lexeme.closedSymbols) :
    isSymbol [c] = true ∧ (Lexeme.inWord c = false ∧ c ∉ Lexeme.extenders) ∧ c ≠ '/' ∧ c ≠ '.' := by
  have hall : Lexeme.closedSymbols.all (fun c => isSymbol [c] && (!Lexeme.inWord c &&
      decide (c ∉ Lexeme.extenders)) && c != '/' && c != '.') = true := by decide +kernel
  simpa [and_assoc] using List.all_eq_true.1 hall c hc

/-- Brackets and separators spell their tokens behind words and symbols, and before anything. -/
theorem spelled_closed {c : Char} (hc : c ∈ Lexeme.closedSymbols) :
    Spelled .ending [.char c] [Glyph.of (String.singleton c)] .fresh := by
  obtain ⟨hsymbol, hends, hslash, hpoint⟩ := isSymbol_of_mem_closedSymbols hc
  refine spelled_symbol hsymbol ?_ (fun _ _ d _ => Lexeme.maximal_closed hc d) ?_ ?_
  · rintro rest d ⟨⟩
    exact hends
  · intro h
    exact absurd (List.cons.inj h).1 hslash
  · intro h
    exact absurd (Option.some.inj h) hpoint

/-- An angle spells its token behind a word, where what follows does not lengthen it. -/
theorem spelled_angle {c : Char} (hc : c ∈ ['<', '>']) {t : Edge}
    (ht : ∀ rest, t.admits rest → ∀ d, rest.head? = some d → d ∉ Lexeme.extenders) :
    Spelled .word [.char c] [Glyph.of (String.singleton c)] t := by
  have hall : ['<', '>'].all (fun c => isSymbol [c] && !Lexeme.inWord c && !Lexeme.startsWord c &&
      c != '/' && c != '.') = true := by decide +kernel
  obtain ⟨hsymbol, hword, hstart, hslash, hpoint⟩ : isSymbol [c] = true ∧ Lexeme.inWord c = false ∧
      Lexeme.startsWord c = false ∧ c ≠ '/' ∧ c ≠ '.' := by
    simpa [and_assoc] using List.all_eq_true.1 hall c hc
  refine spelled_symbol hsymbol ?_ (fun rest hrest d hd => ?_) ?_ ?_
  · rintro rest d ⟨⟩
    exact hword
  · refine Lexeme.maximal_of_not_extender (List.cons_ne_nil _ _) ?_ (ht rest hrest d hd)
    simp [hstart]
  · intro h
    exact absurd (List.cons.inj h).1 hslash
  · intro h
    exact absurd (Option.some.inj h) hpoint

/-- A point spells its token between words. -/
theorem spelled_point : Spelled .word [.char '.'] [Glyph.of "."] .dotted := by
  refine spelled_symbol (w := ['.']) (by decide) ?_ ?_ ?_ (fun _ _ h => h)
  · rintro rest d ⟨⟩
    decide
  · intro rest _ d _ r hr hpre
    have hall : ∀ r ∈ Lexeme.reserved, r.toList.head? = some '.' → r.toList.length = 1 := by
      decide +kernel
    obtain ⟨tail, htail⟩ := hpre
    have := hall r hr (by rw [← htail]; rfl)
    rw [← htail] at this
    simp at this
  · intro h
    cases h

/-- A symbol between blanks spells its token. -/
theorem spelled_operator {w : List Char} (hw : isSymbol w = true) (hpoint : w.head? ≠ some '.') :
    Spelled .fresh (w.map .char) [Glyph.of (String.ofList w)] .operator := by
  refine spelled_symbol hw (fun _ => trivial) ?_ ?_ (fun h => absurd h hpoint)
  · intro rest hrest d hd
    apply Lexeme.maximal_of_not_extender
    · rintro rfl
      cases hw
    · cases w with
      | nil => rfl
      | cons c cs =>
        simp only [isSymbol, Bool.and_eq_true] at hw
        simpa using hw.1.1.1.1.1.2
    · exact (not_extender_of_isGap (hrest d hd)).1
  · intro _ rest hrest d hd
    exact (not_extender_of_isGap (hrest d hd)).2

/-! ## Fixed texts -/

/-- The tokens of a fixed text behind an edge, and the edge behind it; `fuel` bounds its length. -/
def spellText : Nat → Edge → List Char → Option (List Glyph × Edge)
  | 0, _, _ => none
  | _ + 1, s, [] => some ([], s)
  | fuel + 1, s, c :: cs =>
    if c = ' ' then spellText fuel .fresh cs
    else if Lexeme.startsWord c && (s == .fresh || s == .dotted) then
      (spellText fuel .word ((c :: cs).dropWhile Lexeme.inWord)).map fun (gs, t) =>
        (Glyph.of (String.ofList (Lexeme.word (c :: cs))) :: gs, t)
    else if Lexeme.closedSymbols.contains c && (s == .fresh || s == .word) then
      (spellText fuel .fresh cs).map fun (gs, t) => (Glyph.of (String.singleton c) :: gs, t)
    else if c = '.' && (s == .fresh || s == .word) then
      (spellText fuel .dotted cs).map fun (gs, t) => (Glyph.of "." :: gs, t)
    else if isSymbol (c :: cs) && c ≠ '.' && s == .fresh then
      some ([Glyph.of (String.ofList (c :: cs))], .operator)
    else none

theorem Spelled.cons {s t u : Edge} {ps qs : List Piece} {g : Glyph} {gs : List Glyph}
    (hp : Spelled s ps [g] t) (hq : Spelled t qs gs u) : Spelled s (ps ++ qs) (g :: gs) u :=
  hp.trans hq

theorem spelled_leading_word {c : Char} {cs : List Char} (hc : Lexeme.startsWord c = true) :
    Spelled .fresh ((Lexeme.word (c :: cs)).map .char)
        [Glyph.of (String.ofList (Lexeme.word (c :: cs)))] .word ∧
      Spelled .dotted ((Lexeme.word (c :: cs)).map .char)
        [Glyph.of (String.ofList (Lexeme.word (c :: cs)))] .word := by
  have hcons : Lexeme.word (c :: cs) = c :: Lexeme.word cs := by
    rw [Lexeme.word, List.takeWhile_cons_of_pos (Lexeme.inWord_of_startsWord hc)]
    rfl
  have hall : ∀ d ∈ c :: Lexeme.word cs, Lexeme.inWord d = true := by
    rw [← hcons]
    exact List.all_eq_true.1 List.all_takeWhile
  have hlist := String.toList_ofList (l := c :: Lexeme.word cs)
  have hword := spelled_word hlist hc hall
  have hdotted := spelled_word_dotted hlist hc hall
  rw [textPieces, hlist, ← hcons] at hword hdotted
  exact ⟨hword, hdotted⟩

theorem spellText_sound (fuel : Nat) (s : Edge) (cs : List Char) {gs : List Glyph} {t : Edge}
    (h : spellText fuel s cs = some (gs, t)) : Spelled s (cs.map .char) gs t := by
  fun_induction spellText fuel s cs generalizing gs with
  | case1 => cases h
  | case2 fuel =>
    cases h
    exact .refl _
  | case3 fuel s cs ih => exact (Spelled.blank s).trans (ih h)
  | case4 fuel s c cs hblank hc ih =>
    simp only [Option.map_eq_some_iff, Prod.mk.injEq, Bool.and_eq_true, Bool.or_eq_true,
      beq_iff_eq] at h hc
    obtain ⟨⟨gs, t⟩, hrest, rfl, rfl⟩ := h
    have hsplit : (c :: cs).map Piece.char = (Lexeme.word (c :: cs)).map .char ++
        ((c :: cs).dropWhile Lexeme.inWord).map .char := by
      rw [← List.map_append, Lexeme.word, List.takeWhile_append_dropWhile]
    rw [hsplit]
    rcases hc.2 with rfl | rfl
    · exact (spelled_leading_word hc.1).1.cons (ih hrest)
    · exact (spelled_leading_word hc.1).2.cons (ih hrest)
  | case5 fuel s c cs hblank hword hc ih =>
    simp only [Option.map_eq_some_iff, Prod.mk.injEq, Bool.and_eq_true, Bool.or_eq_true,
      beq_iff_eq, List.contains_iff_mem] at h hc
    obtain ⟨⟨gs, t⟩, hrest, rfl, rfl⟩ := h
    rcases hc.2 with rfl | rfl
    · exact (spelled_closed hc.1).fromFresh.cons (ih hrest)
    · exact (spelled_closed hc.1).fromEnding.cons (ih hrest)
  | case6 fuel s c cs hblank hword hclosed hc ih =>
    simp only [Option.map_eq_some_iff, Prod.mk.injEq, Bool.and_eq_true, Bool.or_eq_true,
      beq_iff_eq, decide_eq_true_eq] at h hc
    obtain ⟨⟨gs, t⟩, hrest, rfl, rfl⟩ := h
    obtain ⟨rfl, rfl | rfl⟩ := hc
    · exact spelled_point.fromFresh.cons (ih hrest)
    · exact spelled_point.cons (ih hrest)
  | case7 fuel s c cs hblank hword hclosed hpoint hc =>
    simp only [Bool.and_eq_true, beq_iff_eq, decide_eq_true_eq] at hc
    obtain ⟨⟨hsymbol, hne⟩, rfl⟩ := hc
    cases h
    exact spelled_operator hsymbol fun h => hne (Option.some.inj h)
  | case8 => cases h

/-! ## Documents -/

/-- The document is plain, and spells the tokens from one edge to the other. -/
structure Spells (s : Edge) (d : Doc) (gs : List Glyph) (t : Edge) : Prop where
  plain : d.plain = true
  spelled : Spelled s d.pieces gs t

/-- The same for several documents one after the other. -/
structure SpellsAll (s : Edge) (ds : List Doc) (gs : List Glyph) (t : Edge) : Prop where
  plain : plainAll ds = true
  spelled : Spelled s (piecesAll ds) gs t

namespace Spells

variable {s t u : Edge} {d : Doc} {ds : List Doc} {gs hs : List Glyph}

theorem fromFresh (h : Spells s d gs t) : Spells .fresh d gs t := ⟨h.plain, h.spelled.fromFresh⟩

theorem ofFresh (h : Spells s d gs .fresh) (t : Edge) : Spells s d gs t :=
  ⟨h.plain, h.spelled.ofFresh t⟩

theorem toOperator (h : Spells s d gs t) : Spells s d gs .operator :=
  ⟨h.plain, h.spelled.toOperator⟩

theorem indent (h : Spells s d gs t) : Spells s (.indent d) gs t := ⟨h.plain, h.spelled⟩

theorem group (h : Spells s d gs t) (broken : Bool) : Spells s (.group d broken) gs t :=
  ⟨h.plain, h.spelled⟩

theorem list (h : SpellsAll s ds gs t) : Spells s (.list ds) gs t := ⟨h.plain, h.spelled⟩

theorem space (s : Edge) : Spells s .space [] .fresh := ⟨rfl, Spelled.line s .space (by decide)⟩

theorem hardline (s : Edge) : Spells s .hardline [] .fresh :=
  ⟨rfl, Spelled.line s .hard (by decide)⟩

theorem softline (s : Edge) : Spells s .softline [] s := ⟨rfl, Spelled.soft s⟩

/-- A text made of two spells the tokens of both. -/
theorem concat {x y : String}
    (h : Spells s (.bare x) gs t) (h' : Spells t (.bare y) hs u) :
    Spells s (.bare (x ++ y)) (gs ++ hs) u := by
  have hpieces : (Doc.bare (x ++ y)).pieces = (Doc.bare x).pieces ++ (Doc.bare y).pieces := by
    simp [Doc.pieces, textPieces]
  refine ⟨?_, ?_⟩
  · have hx := h.plain
    have hy := h'.plain
    simp only [Doc.plain, Bool.not_eq_true', isMultiline, String.toList_append,
      List.contains_eq_mem, decide_eq_false_iff_not, List.mem_append] at hx hy ⊢
    exact fun hmem => hmem.elim hx hy
  · rw [hpieces]
    exact h.spelled.trans h'.spelled

/-- A fixed text. -/
theorem text (gs : List Glyph) (t : Edge) {x : String} (hx : isMultiline x = false)
    (h : spellText (x.length + 1) s x.toList = some (gs, t)) : Spells s (.bare x) gs t :=
  ⟨by rw [Doc.plain, hx]; rfl, spellText_sound _ _ _ h⟩

theorem isMultiline_of_inWord {x : String} (h : ∀ c ∈ x.toList, Lexeme.inWord c = true) :
    isMultiline x = false := by
  rw [isMultiline, Bool.eq_false_iff]
  intro hmem
  rw [List.contains_iff_mem] at hmem
  exact absurd (h _ hmem) (by decide)

/-- A name. -/
theorem name {x : String} (h : Lexeme.isName x = true) :
    Spells .fresh (.bare x) [Glyph.of x] .word ∧ Spells .dotted (.bare x) [Glyph.of x] .word := by
  obtain ⟨c, cs, hx, hc, hall, _⟩ := Lexeme.isName_cons h
  have hplain : (Doc.bare x).plain = true := by
    rw [Doc.plain, isMultiline_of_inWord (by rw [hx]; exact hall)]
    rfl
  exact ⟨⟨hplain, spelled_word hx hc hall⟩, ⟨hplain, spelled_word_dotted hx hc hall⟩⟩

end Spells

namespace SpellsAll

variable {s t u : Edge} {d : Doc} {ds es : List Doc} {gs hs : List Glyph}

theorem nil (s : Edge) : SpellsAll s [] [] s := ⟨rfl, .refl s⟩

theorem cons (h : Spells s d gs t) (hs' : SpellsAll t ds hs u) :
    SpellsAll s (d :: ds) (gs ++ hs) u :=
  ⟨by rw [plainAll, h.plain, hs'.plain]; rfl, h.spelled.trans hs'.spelled⟩

theorem cast (h : SpellsAll s ds gs t) (e : gs = hs) : SpellsAll s ds hs t := e ▸ h

theorem one (h : Spells s d gs t) : SpellsAll s [d] gs t := by
  rw [← List.append_nil gs]
  exact cons h (nil t)

theorem append (h : SpellsAll s ds gs t) (h' : SpellsAll t es hs u) :
    SpellsAll s (ds ++ es) (gs ++ hs) u := by
  refine ⟨?_, ?_⟩
  · rw [plainAll_append, h.plain, h'.plain]
    rfl
  · rw [piecesAll_append]
    exact h.spelled.trans h'.spelled

end SpellsAll

/-- What pieces that spell tokens are laid out as lexes into them. -/
theorem Spelled.scans {ps : List Piece} {gs : List Glyph} {t : Edge}
    (h : Spelled .fresh ps gs t) {cs : List Char} (hcs : Expands ps cs) : Lexeme.Scans cs gs := by
  have hend : ∀ cs, Expands [] cs → Lexeme.Scans cs [] ∧ t.admits cs := by
    intro cs hcs
    cases hcs
    exact ⟨.blank [] (by simp), Edge.admits_of_gap (by rintro c ⟨⟩) t⟩
  have hscan := (h [] [] hend cs (by rwa [List.append_nil])).1
  rwa [List.append_nil] at hscan

/-- A text that spells tokens lexes into them. -/
theorem Spells.scans {x : String} {gs : List Glyph} {t : Edge}
    (h : Spells .fresh (.bare x) gs t) : Lexeme.Scans x.toList gs := by
  refine h.spelled.scans ?_
  change Expands (x.toList.map .char) x.toList
  induction x.toList with
  | nil => exact .nil
  | cons c cs ih => exact .char c _ _ ih

/-- A document that spells tokens is rendered as a text that lexes into them, at every width. -/
theorem render_spells (w : Widths) {d : Doc} {gs : List Glyph} {t : Edge}
    (h : Spells .fresh d gs t) :
    ∃ text, d.render w = .ok text ∧ Lexeme.Scans text.toList gs := by
  obtain ⟨text, hrender, hexpands⟩ := render_plain w h.plain
  exact ⟨text, hrender, h.spelled.scans hexpands⟩

end Doc

end MonkeyFormat
