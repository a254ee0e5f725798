import MonkeyFormat.Proofs.Consumption

set_option autoImplicit false

/-! # How reading a source fails

A source that is not accepted is complained about at one of its places, or has a number that cannot
be read. No other fault can come from the lexer or the parser: the lexer reads no character behind
the end of the text, the parser never passes the end token, and the bounds of their loops are wide
enough. -/

namespace MonkeyFormat

/-- The place is that of an offset in a text. -/
structure Place.Lies (cs : List Char) (p : Place) : Prop where
  nonneg : 0 ≤ p.offset
  within : p.offset ≤ cs.length
  counted : p = .ofOffset cs p.offset.toNat

theorem Span.Coherent.lies {cs : List Char} {s : Span} (h : s.Coherent cs) : s.first.Lies cs where
  nonneg := h.nonneg
  within := h.order.trans h.within
  counted := h.first

/-- The fault is a complaint about a place of the text. -/
def Fault.Points (cs : List Char) (origin : Option String) (e : Fault) : Prop :=
  ∃ c p, e = .malformed c p origin ∧ p.Lies cs

/-- The fault is that of a number among the tokens, whose digits cannot be read. -/
def Fault.Unreadable (tokens : List Token) (e : Fault) : Prop :=
  e = .unreadableNumber ∧ ∃ t ∈ tokens, (t.kind = .number ∨ t.kind = .float) ∧
    Literal.value t.kind t.text = .error e

/-! ## Where the lexer fails -/

namespace Lexer

variable {α : Type} {cs : List Char} {origin : Option String} {lx lx' : Lexer}

/-- The lexer stands in a text, at the place that its line and column say. -/
structure On (cs : List Char) (origin : Option String) (lx : Lexer) : Prop where
  text : ∃ front, cs = front ++ lx.rest ∧ lx.place = .ofOffset front front.length
  origin : lx.origin = origin

namespace On

theorem start (source : String) (origin : Option String) :
    (Lexer.start source origin).On source.toList origin := ⟨⟨[], rfl, rfl⟩, rfl⟩

theorem lies (h : lx.On cs origin) : lx.place.Lies cs := by
  obtain ⟨front, hcs, hplace⟩ := h.text
  have hoffset : lx.place.offset = front.length := by rw [hplace]; rfl
  refine ⟨by omega, ?_, ?_⟩
  · rw [hoffset, hcs, List.length_append]
    omega
  · rw [hoffset, Int.toNat_natCast, hcs, Place.ofOffset_append]
    exact hplace

theorem pass (h : lx.On cs origin) {taken : List Char} (htaken : taken <+: lx.rest) :
    (lx.passed taken).On cs origin := by
  obtain ⟨front, hcs, hplace⟩ := h.text
  obtain ⟨rest, hrest⟩ := htaken
  refine ⟨⟨front ++ taken, ?_, ?_⟩, h.origin⟩
  · rw [hcs, passed_rest lx hrest.symm, ← hrest, List.append_assoc]
  · rw [passed, hplace]
    exact Place.after_ofOffset front taken

/-- The comments passed do not matter. -/
theorem comments (h : lx.On cs origin) (comments : List Comment) :
    Lexer.On cs origin { lx with comments := comments } := ⟨h.text, h.origin⟩

end On

/-- From the state the lexer ends as `post` says, or complains about a place of the text. -/
abbrev Meets (cs : List Char) (origin : Option String) (lx : Lexer) (m : Lex α)
    (post : α → Lexer → Prop) : Prop := Settles (fun e _ => e.Points cs origin) lx m post

/-- A complaint about the place where the lexer stood before it passed something. -/
theorem meets_complain {mid : Lexer} {post : α → Lexer → Prop} (h : lx.On cs origin)
    (hmid : mid.origin = lx.origin) (c : Complaint) :
    Meets cs origin mid (complain c lx.place : Lex α) post :=
  ⟨c, lx.place, by rw [hmid, h.origin], h.lies⟩

theorem meets_blockComment (h : lx.On cs origin) {c d : Char} {ds : List Char}
    (hrest : lx.rest = c :: d :: ds) : Meets cs origin lx blockComment fun _ _ => True := by
  have hc := passed_rest_cons lx hrest
  have hd := passed_rest_cons (lx.passed [c]) hc
  unfold blockComment
  refine .run_bind (run_get lx) (.run_bind (run_advance hrest) (.run_bind (run_advance hc) ?_))
  refine .run_bind (run_get _) ?_
  rw [hd]
  dsimp only
  refine .run_bind (run_pass _ _) (.ite (fun _ => ?_) fun _ => ?_)
  · exact .run_bind (run_pass _ _) (.of_run rfl trivial)
  · refine meets_complain h ?_ _
    rfl

/-- White space and comments are passed, unless a comment is not closed. -/
theorem meets_skipGapsWith (fuel : Nat) : ∀ {lx : Lexer}, lx.On cs origin →
    Meets cs origin lx (skipGapsWith fuel) fun _ lx' =>
      lx'.On cs origin ∧ lx'.rest.length ≤ lx.rest.length := by
  induction fuel with
  | zero => exact fun h => .pure ⟨h, le_rfl⟩
  | succ fuel ih =>
    intro lx h
    -- the rounds that follow start behind what this one passes
    have hround {taken : List Char} (htaken : taken <+: lx.rest) (comments : List Comment) :
        Meets cs origin { lx.passed taken with comments := comments } (skipGapsWith fuel)
          fun _ lx' => lx'.On cs origin ∧ lx'.rest.length ≤ lx.rest.length := by
      refine (ih ((h.pass htaken).comments comments)).weaken fun _ lx' hlx => ⟨hlx.1, ?_⟩
      have hdrop : (lx.passed taken).rest.length ≤ lx.rest.length := by
        rw [passed, List.length_drop]
        omega
      exact hlx.2.trans hdrop
    unfold skipGapsWith
    refine .run_bind (run_get lx) ?_
    split
    · next ds heq =>
      refine .run_bind (run_lineComment heq) (hround ?_ _)
      rw [heq]
      simpa using List.takeWhile_prefix _
    · next ds heq =>
      have hcomment : Meets cs origin lx blockComment fun _ mid => ∃ taken comments,
          taken <+: lx.rest ∧ mid = { lx.passed taken with comments := comments } := by
        refine (meets_blockComment h heq).and_ok fun _ mid hrun _ => ?_
        obtain ⟨hclosed, rfl⟩ := run_blockComment heq hrun
        obtain ⟨rest, hrest⟩ := Lexeme.blockBody_closed hclosed
        refine ⟨_, _, ⟨rest, ?_⟩, rfl⟩
        rw [heq]
        simpa using hrest.symm
      refine hcomment.bind ?_
      rintro _ _ ⟨taken, comments, htaken, rfl⟩
      exact hround htaken comments
    · next c ds _ _ =>
      refine .ite (fun _ => ?_) fun _ => .pure ⟨h, le_rfl⟩
      refine .run_bind (run_get lx) (.run_bind (run_pass _ lx) ?_)
      exact hround (List.takeWhile_prefix Lexeme.isGap) lx.comments
    · exact .pure ⟨h, le_rfl⟩

theorem meets_number (h : lx.On cs origin) : Meets cs origin lx number fun _ _ => True := by
  unfold number
  refine .run_bind (run_get lx) (.run_bind (run_get lx) ?_)
  split
  · exact .of_run (run_token _ _ lx) trivial
  · refine .run_bind (run_pass _ lx) (meets_complain h ?_ _)
    rfl
  · refine .run_bind (run_pass _ lx) (meets_complain h ?_ _)
    rfl

theorem meets_quoted (h : lx.On cs origin) {c : Char} {ds : List Char} (hrest : lx.rest = c :: ds)
    (quote : Char) : Meets cs origin lx (quoted quote) fun _ _ => True := by
  unfold quoted
  refine .run_bind (run_get lx) (.run_bind (run_advance hrest) (.run_bind (run_get _) ?_))
  dsimp only
  refine .run_bind (run_pass _ _) (.ite (fun _ => ?_) fun _ => ?_)
  · exact .run_bind (run_get _) (.pure trivial)
  · refine meets_complain h ?_ _
    rfl

theorem meets_symbol (lx : Lexer) : Meets cs origin lx symbol fun _ _ => True := by
  unfold symbol
  refine .run_bind (run_get lx) ?_
  split
  · exact .of_run (run_map_ok some (run_token _ _ lx)) trivial
  · exact .pure trivial

/-- The next token is passed, and every token but the end token has something in it. -/
theorem meets_next (h : lx.On cs origin) : Meets cs origin lx next fun t lx' =>
    lx'.On cs origin ∧ (t.kind ≠ .endOfInput → lx'.rest.length < lx.rest.length) := by
  have hgaps : Meets cs origin lx skipGaps fun _ mid =>
      mid.On cs origin ∧ mid.rest.length ≤ lx.rest.length :=
    .run_bind (run_get lx) (meets_skipGapsWith _ h)
  have hfaults : Meets cs origin lx next fun _ _ => True := by
    refine hgaps.bind fun _ mid hmid => .run_bind (run_get mid) ?_
    split
    · exact .pure trivial
    · next c ds hrest =>
      refine .ite (fun _ => .of_run (run_token _ _ mid) trivial) fun _ => ?_
      refine .ite (fun _ => meets_number hmid.1) fun _ => ?_
      refine .ite (fun _ => meets_quoted hmid.1 hrest c) fun _ => ?_
      refine (meets_symbol mid).bind fun o lx' _ => ?_
      cases o with
      | some t => exact .pure trivial
      | none => exact .of_run (run_token _ _ lx') trivial
  refine hfaults.and_ok fun t lx' hrun _ => ?_
  obtain ⟨mid, hmid, hcases⟩ := run_next_eq_ok hrun
  obtain ⟨hon, hle⟩ := hgaps.ok hmid
  rcases hcases with ⟨-, rfl, rfl⟩ | ⟨kind, taken, hfront, rfl, rfl⟩
  · exact ⟨hon, fun hend => absurd rfl hend⟩
  · have htaken := Lexeme.front?_isPrefix hfront
    refine ⟨hon.pass htaken, fun _ => ?_⟩
    have hpos := List.length_pos_iff.2 (Lexeme.spelling_of_front hfront).nonempty
    have hlength := htaken.length_le
    rw [passed, List.length_drop]
    omega

/-- There are fewer tokens than the bound allows, since each but the last takes a character. -/
theorem meets_tokensWith (fuel : Nat) : ∀ {lx : Lexer}, lx.On cs origin → lx.rest.length < fuel →
    Meets cs origin lx (tokensWith fuel) fun _ _ => True := by
  induction fuel with
  | zero => exact fun _ hfuel => absurd hfuel (Nat.not_lt_zero _)
  | succ fuel ih =>
    intro lx h hfuel
    refine (meets_next h).bind fun t lx' hnext => ?_
    refine .ite (fun _ => .pure trivial) fun hend => ?_
    have hless := hnext.2 hend
    exact (ih hnext.1 (by omega)).bind fun _ _ _ => .pure trivial

end Lexer

/-- Where a source has no tokens, the lexer complains about a place of it. -/
theorem tokenize_faults {source : String} {origin : Option String} {f : Fault}
    (h : tokenize source origin = .error f) : f.Points source.toList origin := by
  have hmeets : Lexer.Meets source.toList origin (Lexer.start source origin) Lexer.tokens
      fun _ _ => True :=
    .run_bind (Lexer.run_get _)
      (Lexer.meets_tokensWith _ (Lexer.On.start source origin) (Nat.lt_succ_self _))
  unfold tokenize at h
  split at h
  · cases h
  · next hrun =>
    cases h
    exact hmeets.error hrun

/-! ## Where the parser fails -/

namespace Literal

theorem dropSuffix_ok (p : Char → Bool) {raw : String} (h : raw ≠ "") :
    ∃ digits, dropSuffix p raw = .ok digits := by
  unfold dropSuffix
  split
  · next hnil => exact absurd (String.toList_eq_nil_iff.1 (List.reverse_eq_nil_iff.1 hnil)) h
  · exact ⟨_, rfl⟩

/-- Digits without their suffix that cannot be read. -/
theorem digits_error {α : Type} {p : Char → Bool} {raw : String} {read : String → Option α}
    {f : α → Value} {e : Fault} (hne : raw ≠ "")
    (h : (do let digits ← dropSuffix p raw; let a ← readable (read digits); pure (f a)) =
      Except.error e) : e = .unreadableNumber := by
  obtain ⟨digits, hdigits⟩ := dropSuffix_ok p hne
  rw [hdigits] at h
  have hread : (do let a ← readable (read digits); pure (f a)) = Except.error e := h
  cases ha : read digits with
  | none =>
    rw [ha] at hread
    exact (Except.error.inj hread).symm
  | some a =>
    rw [ha] at hread
    cases hread

/-- Each word that is a literal has a value. -/
theorem value_word {raw : String} {e : Fault} (h : TokenKind.ofText? raw = some .literal) :
    value .literal raw ≠ .error e := by
  have hall : ∀ r ∈ Lexeme.reserved, TokenKind.ofText? r = some .literal →
      (value .literal r).toBool = true := by decide +kernel
  have hok := hall raw (Lexeme.mem_reserved_of_ofText? h) h
  intro he
  rw [he] at hok
  cases hok

/-- Of the literals only numbers can have no value, and only for their digits. -/
theorem value_error {kind : TokenKind} {raw : String} {e : Fault}
    (hkind : kind ∈ [TokenKind.number, .float, .string, .char, .literal]) (hne : raw ≠ "")
    (hword : kind = .literal → TokenKind.ofText? raw = some .literal)
    (h : value kind raw = .error e) :
    (kind = .number ∨ kind = .float) ∧ e = .unreadableNumber := by
  simp only [List.mem_cons, List.not_mem_nil, or_false] at hkind
  rcases hkind with rfl | rfl | rfl | rfl | rfl
  · rw [value] at h
    exact ⟨.inl rfl, digits_error hne h⟩
  · rw [value] at h
    exact ⟨.inr rfl, digits_error hne h⟩
  · cases h
  · cases h
  · exact absurd h (value_word (hword rfl))

end Literal

/-- What tokens of a source are complained about for. -/
theorem tokenize_reports {source : String} {origin : Option String} {tokens : List Token}
    {comments : List Comment} (h : tokenize source origin = .ok (tokens, comments)) :
    ∀ t ∈ tokens, t.Reports
      (fun e => e.Points source.toList origin ∨ e.Unreadable tokens) origin := by
  intro t ht
  have hplaced := (tokenize_placed h).1 t ht
  have hcoherent := hplaced.coherent
  refine ⟨fun c => .inl ⟨c, t.place, rfl, hcoherent.lies⟩, fun hangle c => .inl ⟨c, _, rfl, ?_⟩,
    fun hkind e he => .inr ?_⟩
  · have hnonneg := hcoherent.nonneg
    refine ⟨?_, (hplaced.order hangle).trans hcoherent.within, hplaced.middle hangle⟩
    dsimp only
    omega
  · rw [List.contains_iff_mem] at hkind
    have hne := ((tokenize_good h).1 t ht).nonempty hkind
    have hword (hliteral : t.kind = .literal) : TokenKind.ofText? t.text = some .literal := by
      rcases tokenize_front h t ht with hend | ⟨cs, taken, hfront, htext⟩
      · rw [hliteral] at hend
        cases hend
      · rw [hliteral] at hfront
        rw [htext]
        exact (Lexeme.reserved_of_front hfront).resolve_right (by decide)
    obtain ⟨hnumber, rfl⟩ := Literal.value_error hkind hne hword he
    exact ⟨rfl, t, ht, hnumber, he⟩

/-- A source that is not accepted is complained about at one of its places, or has a number that
cannot be read. However the parser ends, the end token is still to come; as tokens leave from the
front only, it was so all along, and no token was asked for behind the end. -/
theorem parse_fails (source : String) (o : Options)
    (ho : o.rule = .fragment → Parse.Known o.fragment) :
    (∀ e, parse source o = .error e →
      e.Points source.toList o.origin ∨
        ∃ tokens comments, tokenize source o.origin = .ok (tokens, comments) ∧
          e.Unreadable tokens) ∧
      ∀ tokens comments, tokenize source o.origin = .ok (tokens, comments) →
        ∃ t ∈ ((Parse.startRule o).run.run (.start tokens source o.origin)).2.rest,
          t.kind = .endOfInput := by
  cases htokens : tokenize source o.origin with
  | error f =>
    refine ⟨fun e he => .inl ?_, nofun⟩
    rw [parse, htokens] at he
    cases he
    exact tokenize_faults htokens
  | ok r =>
    obtain ⟨tokens, comments⟩ := r
    obtain ⟨lx, hlexes, rfl⟩ := tokenize_eq_ok.1 htokens
    obtain ⟨tiles, htiles⟩ := Lexer.tiling_tokensWith hlexes
    have hready : (Parser.start tokens source o.origin).Ready
        fun e => e.Points source.toList o.origin ∨ e.Unreadable tokens :=
      ⟨tokenize_reports htokens, htiles.ends⟩
    have hmeets := Parse.meets_startRule (o := o) (fun hrule => .inl (ho hrule)) hready
    rcases hrun : (Parse.startRule o).run.run (Parser.start tokens source o.origin) with
      ⟨result, q⟩
    have hq : q.Ready fun e => e.Points source.toList o.origin ∨ e.Unreadable tokens := by
      cases result with
      | error e => exact (hmeets.error hrun).2
      | ok n => exact (hmeets.ok hrun).1.ready
    constructor
    · intro e he
      suffices h : e.Points source.toList o.origin ∨ e.Unreadable tokens from
        h.imp_right fun h => ⟨tokens, _, rfl, h⟩
      simp only [parse, htokens, hrun, bind, Except.bind] at he
      cases hunknown : tokens.find? fun t => t.kind = .unknown with
      | some t =>
        simp only [hunknown] at he
        cases he
        exact (tokenize_reports htokens t (List.mem_of_find?_eq_some hunknown)).complaint _
      | none =>
        simp only [hunknown] at he
        cases result with
        | error f =>
          cases he
          exact (hmeets.error hrun).1
        | ok n => cases he
    · intro ts cs hts
      cases hts
      rw [hrun]
      obtain ⟨front, last, hrest, hlast, -⟩ := hq.ends
      exact ⟨last, by rw [hrest]; simp, hlast⟩

/-- The members of a class that end inside a generic type: the complaint is about the end. -/
theorem parse_fails_truncated :
    ∃ e tokens comments,
      parse "function f(a as B<C" { rule := .fragment, fragment := some "class" } = .error e ∧
      (e.Points "function f(a as B<C".toList none ∨ e.Unreadable tokens) ∧
      tokenize "function f(a as B<C" none = .ok (tokens, comments) ∧
      ∃ t ∈ ((Parse.startRule { rule := .fragment, fragment := some "class" }).run.run
          (.start tokens "function f(a as B<C" none)).2.rest, t.kind = .endOfInput := by
  have hfails : (parse "function f(a as B<C"
      { rule := .fragment, fragment := some "class" }).toBool = false := by decide +kernel
  have hlexes : (tokenize "function f(a as B<C" none).toBool = true := by decide +kernel
  obtain ⟨hfaults, hends⟩ := parse_fails "function f(a as B<C"
    { rule := .fragment, fragment := some "class" } fun _ => by simp [Parse.Known]
  cases htokens : tokenize "function f(a as B<C" none with
  | error e =>
    rw [htokens] at hlexes
    cases hlexes
  | ok lexed =>
    obtain ⟨tokens, comments⟩ := lexed
    cases h : parse "function f(a as B<C" { rule := .fragment, fragment := some "class" } with
    | ok parsed =>
      rw [h] at hfails
      cases hfails
    | error e =>
      refine ⟨e, tokens, comments, rfl, (hfaults e h).imp_right ?_, rfl, hends _ _ htokens⟩
      rintro ⟨ts, cs, hts, hunreadable⟩
      rw [htokens] at hts
      cases hts
      exact hunreadable

-- A superscript is a digit to the lexer, but no number can be read from it.
example : (match parse "\u00b2" { rule := .expression } with
    | .error .unreadableNumber => true
    | _ => false) = true := by decide +kernel

end MonkeyFormat
