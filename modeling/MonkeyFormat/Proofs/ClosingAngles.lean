import MonkeyFormat.Grammar.Program
import MonkeyFormat.Proofs.Parsing

set_option autoImplicit false

/-! # Closing angles, one by one or two at a time

The angles that close nested generic arguments may come as tokens of their own or two to a token.
A run that succeeds on the one grouping succeeds on the other, too, and comes to the same result: a
double angle is taken apart where a closing one is needed, and nowhere else can a production go on
with an angle behind which another one stands. -/

namespace MonkeyFormat

/-! ## Tokens in another grouping -/

/-- Two closing angles, each a token of its own, the second right behind the first. -/
structure Token.Adjoins (first second : Token) : Prop where
  firstAngle : first.kind = .greater ∧ first.text = ">"
  secondAngle : second.kind = .greater ∧ second.text = ">"
  /-- The first one covers a single character. -/
  single : first.span.stop = first.span.start + 1 ∧ first.span.endLine = first.span.line ∧
    first.span.endCol = first.span.col + 1
  behind : second.span.start = first.span.stop ∧ second.span.line = first.span.endLine ∧
    second.span.col = first.span.endCol

/-- The token that covers both of two closing angles. -/
def Token.joined (first second : Token) : Token :=
  ⟨.shiftRight, ">>", ⟨first.span.start, second.span.stop, first.span.line, first.span.col,
    second.span.endLine, second.span.endCol⟩⟩

namespace Token.Adjoins

variable {first second : Token}

/-- The first half of the double angle is the first angle. -/
theorem firstHalf (h : first.Adjoins second) : (⟨.greater, ">", ⟨first.span.start,
    first.span.start + 1, first.span.line, first.span.col, first.span.line, first.span.col + 1⟩⟩ :
      Token) = first := by
  obtain ⟨⟨hkind, htext⟩, -, ⟨hstop, hline, hcol⟩, -⟩ := h
  obtain ⟨kind, text, start, stop, line, col, endLine, endCol⟩ := first
  simp_all

/-- The second half of the double angle is the second angle. -/
theorem secondHalf (h : first.Adjoins second) : (⟨.greater, ">", ⟨first.span.start + 1,
    second.span.stop, first.span.line, first.span.col + 1, second.span.endLine,
    second.span.endCol⟩⟩ : Token) = second := by
  obtain ⟨-, ⟨hkind, htext⟩, ⟨hstop, hline, hcol⟩, hstart, hbegin, hcolumn⟩ := h
  obtain ⟨kind, text, start, stop, line, col, endLine, endCol⟩ := second
  simp_all

end Token.Adjoins

/-- The second list is the first one with some pairs of closing angles joined. -/
inductive Regrouped : List Token → List Token → Prop where
  | nil : Regrouped [] []
  | keep (t : Token) {ts us : List Token} (rest : Regrouped ts us) : Regrouped (t :: ts) (t :: us)
  | join {first second : Token} {ts us : List Token} (h : first.Adjoins second)
    (rest : Regrouped ts us) : Regrouped (first :: second :: ts) (first.joined second :: us)

theorem Regrouped.refl (ts : List Token) : Regrouped ts ts := by
  induction ts with
  | nil => exact .nil
  | cons t ts ih => exact .keep t ih

/-- A double angle is worth as many steps as two single ones. -/
theorem Regrouped.weight_eq {ts us : List Token} (h : Regrouped ts us) :
    us.foldr (fun t n => t.weight + n) 0 = ts.foldr (fun t n => t.weight + n) 0 := by
  induction h with
  | nil => rfl
  | keep t _ ih => rw [List.foldr_cons, List.foldr_cons, ih]
  | @join first second ts us hadjoins _ ih =>
    have hfirst : first.weight = 1 := by
      rw [Token.weight, hadjoins.firstAngle.1]
      rfl
    have hsecond : second.weight = 1 := by
      rw [Token.weight, hadjoins.secondAngle.1]
      rfl
    rw [List.foldr_cons, List.foldr_cons, List.foldr_cons, ih, hfirst, hsecond, ← Nat.add_assoc]
    rfl

/-- The tokens to come are grouped in another way; all else is the same. -/
structure Parser.Regroups (p q : Parser) : Prop where
  rest : Regrouped p.rest q.rest
  last : p.last = q.last
  source : p.source = q.source
  origin : p.origin = q.origin

/-- Both parsers have the same token to come next. -/
inductive Parser.Level (p q : Parser) : Prop where
  | done (hp : p.rest = []) (hq : q.rest = [])
  | next (t : Token) {ts us : List Token} (hp : p.rest = t :: ts) (hq : q.rest = t :: us)
    (rest : Regrouped ts us)

/-- One parser has two closing angles to come, and the other one token that covers both. -/
structure Parser.Split (p q : Parser) (first second : Token) : Prop where
  adjoins : first.Adjoins second
  tokens : ∃ ts us, p.rest = first :: second :: ts ∧ q.rest = first.joined second :: us ∧
    Regrouped ts us

namespace Parser

variable {p q : Parser}

theorem Level.head_eq (h : p.Level q) : q.head = p.head := by
  cases h with
  | done hp hq => rw [head, head, hp, hq]
  | next t hp hq => rw [head, head, hp, hq, List.headD_cons, List.headD_cons]

theorem Level.tail (h : p.Level q) : Regrouped (p.rest.drop 1) (q.rest.drop 1) := by
  cases h with
  | done hp hq =>
    rw [hp, hq]
    exact .nil
  | next t hp hq rest =>
    rw [hp, hq]
    exact rest

theorem Split.heads {first second : Token} (h : p.Split q first second) :
    p.head = first ∧ q.head = first.joined second := by
  obtain ⟨ts, us, hp, hq, -⟩ := h.tokens
  rw [head, head, hp, hq]
  exact ⟨rfl, rfl⟩

theorem Regroups.cases (h : p.Regroups q) :
    p.Level q ∨ ∃ first second, p.Split q first second := by
  have hrest := h.rest
  generalize hts : p.rest = ts, hus : q.rest = us at hrest
  cases hrest with
  | nil => exact .inl (.done hts hus)
  | keep t rest => exact .inl (.next t hts hus rest)
  | join hadjoins rest => exact .inr ⟨_, _, hadjoins, _, _, hts, hus, rest⟩

/-- No closing angle comes next. -/
abbrev Whole (p : Parser) : Prop := p.head.kind ≠ .greater

theorem Regroups.level (h : p.Regroups q) (hwhole : p.Whole) : p.Level q := by
  rcases h.cases with hlevel | ⟨first, second, hsplit⟩
  · exact hlevel
  · refine absurd ?_ hwhole
    rw [hsplit.heads.1]
    exact hsplit.adjoins.firstAngle.1

theorem Regroups.weight_eq (h : p.Regroups q) : q.weight = p.weight := h.rest.weight_eq

end Parser

namespace Parse

variable {α β σ : Type}

/-! ## One run behind the other -/

/-- From states with the same tokens, grouped in another way, where `P` holds of the first: if the
production succeeds in the first, it ends as `Q` says and succeeds in the second with the same
result, and again the tokens to come are the same. -/
def Mimics (P : Parser → Prop) (m : Parse α) (Q : α → Parser → Prop) : Prop :=
  ∀ p q, p.Regroups q → P p → ∀ a p', m.run.run p = (.ok a, p') →
    Q a p' ∧ ∃ q', m.run.run q = (.ok a, q') ∧ p'.Regroups q'

/-- The production comes to the same result wherever the tokens are grouped in another way. -/
abbrev Copies (m : Parse α) : Prop := Mimics (fun _ => True) m fun _ _ => True

/-- The same where no closing angle comes next. -/
abbrev CopiesWhole (m : Parse α) : Prop := Mimics Parser.Whole m fun _ _ => True

/-- The production fails where a closing angle comes next. -/
def Balks (m : Parse α) : Prop :=
  ∀ p : Parser, p.head.kind = .greater → ∀ a p', m.run.run p ≠ (.ok a, p')

/-- Where closing angles come next, the production gives `a` and consumes nothing. -/
def Idles (m : Parse α) (a : α) : Prop :=
  ∀ p : Parser, p.head.kind = .greater ∨ p.head.kind = .shiftRight → m.run.run p = (.ok a, p)

theorem run_get (p : Parser) : (get : Parse Parser).run.run p = (.ok p, p) := rfl

section Rules

variable {P P' : Parser → Prop} {Q : α → Parser → Prop} {R : β → Parser → Prop} {m m' : Parse α}
  {f : α → Parse β}

theorem Mimics.bind (hm : Mimics P m Q) (hf : ∀ a, Mimics (Q a) (f a) R) :
    Mimics P (m >>= f) R := by
  intro p q h hp b p' hrun
  obtain ⟨a, r, ha, hb⟩ := run_bind_eq_ok hrun
  obtain ⟨hr, s, hs, hrs⟩ := hm p q h hp a r ha
  rw [run_bind_ok f hs]
  exact hf a r s hrs hr b p' hb

theorem Mimics.weaken (hm : Mimics P m Q) (h : ∀ p, P' p → P p) : Mimics P' m Q :=
  fun p q hpq hp => hm p q hpq (h p hp)

theorem Mimics.mono {Q' : α → Parser → Prop} (hm : Mimics P m Q) (h : ∀ a p, Q a p → Q' a p) :
    Mimics P m Q' := by
  intro p q hpq hp a p' hrun
  obtain ⟨hQ, hq⟩ := hm p q hpq hp a p' hrun
  exact ⟨h a p' hQ, hq⟩

theorem Copies.at (hm : Copies m) : Mimics P m fun _ _ => True := hm.weaken fun _ _ => trivial

theorem Copies.bind (hm : Copies m) (hf : ∀ a, Mimics (fun _ => True) (f a) R) :
    Mimics P (m >>= f) R := Mimics.bind hm.at hf

theorem Mimics.pure {a : α} (h : ∀ p, P p → Q a p) : Mimics P (Pure.pure a) Q := by
  intro p q hpq hp b p' hrun
  cases hrun
  exact ⟨h p hp, q, rfl, hpq⟩

theorem copies_pure (a : α) : Mimics P (Pure.pure a) fun _ _ => True := .pure fun _ _ => trivial

theorem mimics_throw (e : Fault) : Mimics P (throw e : Parse α) Q := by
  intro p q _ _ a p' hrun
  cases hrun

theorem mimics_complain (c : Complaint) (t : Token) : Mimics P (complain c t : Parse α) Q := by
  intro p q _ _ a p' hrun
  cases hrun

theorem Mimics.map {f : α → β} (hm : Mimics P m fun _ _ => True) :
    Mimics P (f <$> m) fun _ _ => True := by
  rw [← bind_pure_comp]
  exact Mimics.bind hm fun a => copies_pure _

theorem Mimics.ite {c : Prop} [Decidable c] (hm : Mimics P m Q) (hm' : Mimics P m' Q) :
    Mimics P (if c then m else m') Q := by
  split
  · exact hm
  · exact hm'

/-- A look at the state that does not tell how the tokens are grouped. -/
theorem Mimics.get {f : Parser → Parse β} (hsame : ∀ p q, p.Regroups q → P p → f q = f p)
    (hf : ∀ r, Mimics P (f r) R) : Mimics P ((MonadState.get : Parse Parser) >>= f) R := by
  intro p q h hp b p' hrun
  rw [run_bind_ok f (run_get p)] at hrun
  rw [run_bind_ok f (run_get q), hsame p q h hp]
  exact hf p p q h hp b p' hrun

/-! ### Before closing angles -/

theorem Balks.bind (hm : Balks m) : Balks (m >>= f) := by
  intro p hp b p' hrun
  obtain ⟨a, r, ha, _⟩ := run_bind_eq_ok hrun
  exact hm p hp a r ha

theorem balks_complain (c : Complaint) (t : Token) : Balks (complain c t : Parse α) := by
  intro p _ a p' hrun
  cases hrun

theorem balks_throw (e : Fault) : Balks (throw e : Parse α) := by
  intro p _ a p' hrun
  cases hrun

theorem Idles.balks {a : α} (hm : Idles m a) (hf : Balks (f a)) : Balks (m >>= f) := by
  intro p hp b p' hrun
  rw [run_bind_ok f (hm p (.inl hp))] at hrun
  exact hf p hp b p' hrun

theorem Idles.bind {a : α} {b : β} (hm : Idles m a) (hf : Idles (f a) b) : Idles (m >>= f) b := by
  intro p hp
  rw [run_bind_ok f (hm p hp)]
  exact hf p hp

theorem idles_pure (a : α) : Idles (Pure.pure a) a := fun _ _ => rfl

theorem Balks.current {f : Token → Parse β} (hf : ∀ t, t.kind = .greater → Balks (f t)) :
    Balks (current >>= f) := by
  intro p hp b p' hrun
  rw [run_bind_ok f (run_current p)] at hrun
  exact hf p.head hp p hp b p' hrun

/-! ### The token to come next -/

variable {f : Token → Parse β}

/-- A decision on the next token that fails at a closing angle. -/
theorem Mimics.current (hbalks : ∀ t, t.kind = .greater → Balks (f t))
    (hf : ∀ t, t.kind ≠ .greater → Mimics (fun p => P p ∧ p.head = t) (f t) R) :
    Mimics P (current >>= f) R := by
  intro p q h hp b p' hrun
  rw [run_bind_ok f (run_current p)] at hrun
  by_cases hangle : p.head.kind = .greater
  · exact absurd hrun (hbalks p.head hangle p hangle b p')
  · rw [run_bind_ok f (run_current q), (h.level hangle).head_eq]
    exact hf p.head hangle p q h ⟨hp, rfl⟩ b p' hrun

/-- A decision on the next token that does not tell single and double angles apart. -/
theorem Mimics.current_same
    (hsame : ∀ t u, t.kind = .greater → u.kind = .shiftRight → f u = f t)
    (hf : ∀ t, Mimics (fun p => P p ∧ p.head = t) (f t) R) : Mimics P (Parse.current >>= f) R := by
  intro p q h hp b p' hrun
  rw [run_bind_ok f (run_current p)] at hrun
  have hq : f q.head = f p.head := by
    rcases h.cases with hlevel | ⟨first, second, hsplit⟩
    · rw [hlevel.head_eq]
    · rw [hsplit.heads.1, hsplit.heads.2]
      exact hsame _ _ hsplit.adjoins.firstAngle.1 rfl
  rw [run_bind_ok f (run_current q), hq]
  exact hf p.head p q h ⟨hp, rfl⟩ b p' hrun

/-- A decision on the next token after which nothing happens at closing angles. -/
theorem Mimics.current_idles {b : β} (hidles : ∀ t, t.kind = .greater ∨ t.kind = .shiftRight →
      Idles (f t) b) (hf : ∀ t, Mimics (fun p => P p ∧ p.head = t) (f t) R) :
    Mimics P (Parse.current >>= f) R := by
  intro p q h hp c p' hrun
  rw [run_bind_ok f (run_current p)] at hrun
  obtain ⟨hR, hq⟩ := hf p.head p q h ⟨hp, rfl⟩ c p' hrun
  rw [run_bind_ok f (run_current q)]
  rcases h.cases with hlevel | ⟨first, second, hsplit⟩
  · rw [hlevel.head_eq]
    exact ⟨hR, hq⟩
  · have hp' : p.head.kind = .greater := by
      rw [hsplit.heads.1]
      exact hsplit.adjoins.firstAngle.1
    have hq' : q.head.kind = .shiftRight := by
      rw [hsplit.heads.2]
      rfl
    rw [hidles p.head (.inl hp') p (.inl hp')] at hrun
    cases hrun
    exact ⟨hR, q, hidles q.head (.inr hq') q (.inr hq'), h⟩

/-- A decision on the token behind the next one, where no closing angle comes next. -/
theorem Mimics.second (hP : ∀ p, P p → p.Whole)
    (hsame : ∀ t u : Token, t.kind = .greater → t.text = ">" → u.kind = .shiftRight →
      u.text = ">>" → f u = f t) (hf : ∀ t, Mimics P (f t) R) :
        Mimics P (Parse.second >>= f) R := by
  intro p q h hp b p' hrun
  -- the tokens behind the next ones are the same, or a single and a double angle
  have hseconds : ∃ t u, Parse.second.run.run p = (.ok t, p) ∧ Parse.second.run.run q = (.ok u, q) ∧
      f u = f t := by
    unfold Parse.second
    rw [run_bind_ok _ (run_get p), run_bind_ok _ (run_get q)]
    cases h.level (hP p hp) with
    | done hp hq =>
      rw [hp, hq]
      exact ⟨_, _, rfl, rfl, rfl⟩
    | next t hp hq rest =>
      rw [hp, hq]
      cases rest with
      | nil => exact ⟨_, _, rfl, rfl, rfl⟩
      | keep u rest => exact ⟨_, _, rfl, rfl, rfl⟩
      | join hadjoins rest =>
        exact ⟨_, _, rfl, rfl, hsame _ _ hadjoins.firstAngle.1 hadjoins.firstAngle.2 rfl rfl⟩
  obtain ⟨t, u, ht, hu, hsame⟩ := hseconds
  rw [run_bind_ok f ht] at hrun
  rw [run_bind_ok f hu, hsame]
  exact hf t p q h hp b p' hrun

/-- Looking at the token behind the next one consumes nothing. -/
theorem run_second (p : Parser) : ∃ t, Parse.second.run.run p = (.ok t, p) := by
  unfold Parse.second
  rw [run_bind_ok _ (run_get p)]
  split
  · exact ⟨_, rfl⟩
  · exact ⟨_, rfl⟩
  · exact ⟨_, rfl⟩

theorem Balks.second (hf : ∀ t, Balks (f t)) : Balks (Parse.second >>= f) := by
  intro p hp b p' hrun
  obtain ⟨t, ht⟩ := run_second p
  rw [run_bind_ok _ ht] at hrun
  exact hf t p hp b p' hrun

/-- The token behind the next one does not matter. -/
theorem Mimics.second_unused {m : Parse β} (hf : ∀ t, f t = m) (hm : Mimics P m R) :
    Mimics P (Parse.second >>= f) R := by
  intro p q h hp b p' hrun
  obtain ⟨t, ht⟩ := run_second p
  obtain ⟨u, hu⟩ := run_second q
  rw [run_bind_ok _ ht, hf] at hrun
  rw [run_bind_ok _ hu, hf]
  exact hm p q h hp b p' hrun

end Rules

/-! ## Tokens -/

section Tokens

variable {kind : TokenKind} {what text : String}

theorem mimics_nextIs (hgreater : kind ≠ .greater) (hshift : kind ≠ .shiftRight) :
    Mimics (fun _ => True) (nextIs kind) fun b p => b = true → p.head.kind = kind := by
  refine .current_same (fun t u ht hu => ?_) fun t => .pure ?_
  · rw [ht, hu, decide_eq_false hgreater.symm, decide_eq_false hshift.symm]
  · rintro p ⟨-, rfl⟩ h
    exact of_decide_eq_true h

theorem mimics_atAny {kinds : List TokenKind} (hgreater : TokenKind.greater ∉ kinds)
    (hshift : TokenKind.shiftRight ∉ kinds) :
    Mimics (fun _ => True) (atAny kinds) fun b p => b = true → p.head.kind ∈ kinds := by
  refine .current_same (fun t u ht hu => ?_) fun t => .pure ?_
  · rw [ht, hu, List.contains_eq_mem, List.contains_eq_mem, decide_eq_false hgreater,
      decide_eq_false hshift]
  · rintro p ⟨-, rfl⟩ h
    rw [List.contains_eq_mem] at h
    exact of_decide_eq_true h

theorem mimics_atText (hgreater : kind ≠ .greater) (hshift : kind ≠ .shiftRight) :
    Mimics (fun _ => True) (atText kind text) fun b p => b = true → p.head.kind = kind := by
  refine .current_same (fun t u ht hu => ?_) fun t => .pure ?_
  · rw [ht, hu, decide_eq_false hgreater.symm, decide_eq_false hshift.symm, Bool.false_and,
      Bool.false_and]
  · rintro p ⟨-, rfl⟩ h
    exact of_decide_eq_true (Bool.and_eq_true_iff.1 h).1

theorem run_advance_cons {p : Parser} {t : Token} {ts : List Token} (hrest : p.rest = t :: ts)
    (hend : t.kind ≠ .endOfInput) : advance.run.run p =
      (.ok t, { p with seen := t :: p.seen, rest := ts, last := some t }) := by
  unfold advance
  rw [run_bind_ok _ (run_get p), hrest]
  dsimp only
  rw [if_neg hend]
  rfl

/-- Consuming the same token keeps what is to come behind it. -/
theorem advance_level {p q p' : Parser} {t : Token} (h : p.Regroups q) (hlevel : p.Level q)
    (hrun : advance.run.run p = (.ok t, p')) :
    ∃ q', advance.run.run q = (.ok t, q') ∧ p'.Regroups q' := by
  unfold advance at hrun ⊢
  rw [run_bind_ok _ (run_get p)] at hrun
  rw [run_bind_ok _ (run_get q)]
  cases hlevel with
  | done hp hq =>
    rw [hp] at hrun
    rw [hq]
    cases hrun
    exact ⟨q, rfl, h⟩
  | next u hp hq rest =>
    rw [hp] at hrun
    rw [hq]
    dsimp only at hrun ⊢
    split at hrun
    · next hend =>
      rw [if_pos hend]
      cases hrun
      exact ⟨_, rfl, .keep _ rest, rfl, h.source, h.origin⟩
    · next hend =>
      rw [if_neg hend]
      cases hrun
      exact ⟨_, rfl, rest, rfl, h.source, h.origin⟩

theorem mimics_advance : CopiesWhole advance := fun _ _ h hp _ _ hrun =>
  ⟨trivial, advance_level h (h.level hp) hrun⟩

/-- The next token is known and no closing angle. -/
theorem mimics_advance_at {P : Parser → Prop} {t : Token} (ht : t.kind ≠ .greater)
    (hP : ∀ p, P p → p.head = t) : Mimics P advance fun _ _ => True :=
  mimics_advance.weaken fun p hp => by
    rw [Parser.Whole, hP p hp]
    exact ht

theorem copies_accept (hgreater : kind ≠ .greater) (hshift : kind ≠ .shiftRight) :
    Copies (accept kind) := by
  refine (mimics_nextIs hgreater hshift).bind fun b => ?_
  cases b with
  | false => exact copies_pure none
  | true => exact (mimics_advance.map).weaken fun p hp => by rwa [Parser.Whole, hp rfl]

theorem copies_skip (hgreater : kind ≠ .greater) (hshift : kind ≠ .shiftRight) :
    Copies (skip kind) := (copies_accept hgreater hshift).bind fun _ => copies_pure _

theorem copies_expect (hgreater : kind ≠ .greater) : Copies (expect kind what) := by
  refine .current (fun t ht => ?_) fun t ht => .ite ?_ (mimics_complain _ _)
  · rw [if_neg (by rw [ht]; exact hgreater.symm)]
    exact balks_complain _ _
  · exact mimics_advance_at ht fun p hp => hp.2

theorem balks_expect (hgreater : kind ≠ .greater) : Balks (expect kind what) := by
  refine .current fun t ht => ?_
  rw [if_neg (by rw [ht]; exact hgreater.symm)]
  exact balks_complain _ _

theorem idles_nextIs (hgreater : kind ≠ .greater) (hshift : kind ≠ .shiftRight) :
    Idles (nextIs kind) false := by
  rintro p (hp | hp)
  · change (Except.ok (decide (p.head.kind = kind)), p) = _
    rw [hp, decide_eq_false hgreater.symm]
  · change (Except.ok (decide (p.head.kind = kind)), p) = _
    rw [hp, decide_eq_false hshift.symm]

theorem idles_accept (hgreater : kind ≠ .greater) (hshift : kind ≠ .shiftRight) :
    Idles (accept kind) none := (idles_nextIs hgreater hshift).bind (idles_pure none)

theorem idles_atAny {kinds : List TokenKind} (hgreater : TokenKind.greater ∉ kinds)
    (hshift : TokenKind.shiftRight ∉ kinds) : Idles (atAny kinds) false := by
  rintro p (hp | hp)
  · change (Except.ok (kinds.contains p.head.kind), p) = _
    rw [hp, List.contains_eq_mem, decide_eq_false hgreater]
  · change (Except.ok (kinds.contains p.head.kind), p) = _
    rw [hp, List.contains_eq_mem, decide_eq_false hshift]

end Tokens

/-! ## Nodes -/

theorem copies_finish (kind : String) (first : Span) (fields : Fields) :
    Copies (finish kind first fields) := by
  intro p q h _ n p' hrun
  cases hrun
  refine ⟨trivial, q, ?_, h⟩
  change (Except.ok _, q) = _
  rw [h.last]

/-! ## Repetition -/

section Repetition

variable {step : σ → Parse (σ × Bool)} {S : Parser → Prop}

/-- Rounds that come to the same results; what the last one ends with holds in the end. -/
theorem mimics_loop (hstep : ∀ s, Mimics (fun _ => True) (step s) fun r p => r.2 = false → S p)
    (fuel : Nat) : ∀ s, Mimics (fun _ => True) (loop step fuel s) fun _ p => S p := by
  induction fuel with
  | zero => exact fun _ => mimics_throw _
  | succ fuel ih =>
    refine fun s => (hstep s).bind ?_
    rintro ⟨r, more⟩
    cases more with
    | false => exact .pure fun p hp => hp rfl
    | true => exact (ih r).weaken fun _ _ => trivial

theorem copies_loop (hstep : ∀ s, Copies (step s)) (fuel : Nat) (s : σ) :
    Copies (loop step fuel s) :=
  mimics_loop (fun s => (hstep s).mono fun _ _ _ _ => trivial) fuel s

/-- Items up to where a test on the next token holds, each from where it does not. -/
theorem mimics_many {stop : Parse Bool} {item : Parse Node} {Q : Bool → Parser → Prop} (fuel : Nat)
    (hstop : Mimics (fun _ => True) stop Q) (hitem : Mimics (Q false) item fun _ _ => True) :
    Mimics (fun _ => True) (many fuel stop item) fun _ p => Q true p := by
  refine (mimics_loop (fun acc => hstop.bind fun b => ?_) fuel []).bind fun ns => .pure fun _ h => h
  cases b with
  | true => exact .pure fun p hp _ => hp
  | false => exact hitem.bind fun n => .pure fun _ _ h => by cases h

theorem copies_many {stop : Parse Bool} {item : Parse Node} {Q : Bool → Parser → Prop} (fuel : Nat)
    (hstop : Mimics (fun _ => True) stop Q) (hitem : Copies item) :
    Copies (many fuel stop item) :=
  (mimics_many fuel hstop hitem.at).mono fun _ _ _ => trivial

theorem copies_commaList {item : Parse Node} (fuel : Nat) {close : TokenKind}
    (hgreater : close ≠ .greater) (hshift : close ≠ .shiftRight) (hitem : Copies item) :
    Copies (commaList fuel close item) := by
  refine (copies_loop (fun acc => (mimics_nextIs hgreater hshift).bind fun b => ?_) fuel []).bind
    fun ns => copies_pure _
  refine .ite (copies_pure _) (hitem.bind fun n => ?_)
  exact (copies_skip (by decide) (by decide)).bind fun more => copies_pure _

theorem copies_bodyUntilBrace {item : Parse Node} (fuel : Nat) (hitem : Copies item) :
    Copies (bodyUntilBrace fuel item) := by
  have hitems : Copies (do
      let t ← current
      if t.kind = .endOfInput then complain .unclosedBody t else item) :=
    .current_same (fun t u ht hu => by rw [ht, hu]; rfl) fun t =>
      .ite (mimics_complain _ _) hitem.at
  refine (mimics_many fuel (mimics_nextIs (by decide) (by decide)) hitems.at).bind fun ns => ?_
  refine Mimics.bind (mimics_advance.weaken fun p hp => ?_) fun _ => copies_pure _
  rw [Parser.Whole, hp rfl]
  decide

/-- Rounds that end at a closing angle before the first one. -/
theorem Idles.balks_loop {f : σ → Parse β} {s : σ} {fuel : Nat} (hstep : Idles (step s) (s, false))
    (hf : Balks (f s)) : Balks (loop step fuel s >>= f) := by
  cases fuel with
  | zero => exact (balks_throw _).bind
  | succ fuel =>
    have hloop : Idles (loop step (fuel + 1) s) s := hstep.bind (idles_pure s)
    exact hloop.balks hf

end Repetition

end Parse

end MonkeyFormat
