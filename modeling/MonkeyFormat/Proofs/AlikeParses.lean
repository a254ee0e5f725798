import MonkeyFormat.Grammar.Program
import MonkeyFormat.Proofs.PlainTrees

set_option autoImplicit false

/-! # Parsing the same tokens at other places

The grammar looks at the place of a token only to tell whether a `b` stands right behind a bracket.
So two runs over the same tokens go the same way, unless one of them leaves such a `b` where the
other takes it. A run that leaves it stops before an identifier that no production can go on with,
and in the end fails. -/

namespace MonkeyFormat

/-! ## States that are alike -/

/-- A literal that is not a number is not spelled like a whole number. -/
def Glyph.Sound (g : Glyph) : Prop :=
  g.kind ∈ [TokenKind.float, .string, .char, .literal] → Literal.isWholeShaped g.text = false

/-- The tokens are the same, places aside. -/
structure Token.Like (t u : Token) : Prop where
  glyph : t.glyph = u.glyph
  sound : t.glyph.Sound

theorem Token.Like.kind {t u : Token} (h : t.Like u) : t.kind = u.kind :=
  congrArg Glyph.kind h.glyph

theorem Token.Like.text {t u : Token} (h : t.Like u) : t.text = u.text :=
  congrArg Glyph.text h.glyph

/-- The parsers have the same tokens to come, places aside. -/
def Parser.Like (p q : Parser) : Prop := List.Forall₂ Token.Like p.rest q.rest

theorem Parser.Like.head {p q : Parser} (h : p.Like q) : p.head.Like q.head := by
  unfold Parser.Like at h
  unfold Parser.head
  generalize p.rest = ts, q.rest = us at h ⊢
  cases h with
  | nil => exact ⟨rfl, fun hkind => absurd hkind (by decide)⟩
  | cons ht _ => exact ht

/-- An identifier comes next. -/
def Parser.AtName (p : Parser) : Prop := p.head.kind = .ident

namespace Parse

section Rules

variable {α β : Type}

/-! ## One run -/

/-- A run that starts in a state that `P` holds of ends, if it succeeds, as `T` says. -/
def Keeps (P : Parser → Prop) (m : Parse α) (T : α → Parser → Prop) : Prop :=
  ∀ p, P p → ∀ a q, m.run.run p = (.ok a, q) → T a q

/-- The result and the state of a run that stops before an identifier. -/
abbrev adrift (_ : α) (p : Parser) : Prop := p.AtName

/-- The production does not get past an identifier. -/
abbrev Stays (m : Parse α) : Prop := Keeps Parser.AtName m adrift

/-- The production fails at an identifier. -/
abbrev Bars (m : Parse α) : Prop := Keeps Parser.AtName m fun _ _ => False

section

variable {P : Parser → Prop} {m m' : Parse α} {f : α → Parse β} {S : α → Parser → Prop}
  {T : β → Parser → Prop}

theorem Keeps.bind (hm : Keeps P m S) (hf : ∀ a, Keeps (S a) (f a) T) : Keeps P (m >>= f) T := by
  intro p hp b q hrun
  obtain ⟨a, r, ha, hb⟩ := run_bind_eq_ok hrun
  exact hf a r (hm p hp a r ha) b q hb

theorem Bars.bind (hm : Bars m) : Keeps Parser.AtName (m >>= f) T :=
  Keeps.bind hm fun _ _ h => h.elim

theorem Keeps.pure {a : α} (h : ∀ p, P p → S a p) : Keeps P (Pure.pure a) S := by
  intro p hp b q hrun
  cases hrun
  exact h p hp

theorem Keeps.throw (e : Fault) : Keeps P (throw e : Parse α) S := by
  intro p _ a q hrun
  cases hrun

theorem Keeps.complain (c : Complaint) (t : Token) : Keeps P (complain c t : Parse α) S := by
  intro p _ a q hrun
  cases hrun

theorem Keeps.ite {c : Prop} [Decidable c] (hm : Keeps P m S) (hm' : Keeps P m' S) :
    Keeps P (if c then m else m') S := by
  split
  · exact hm
  · exact hm'

end

section

variable {f : Token → Parse β} {g : Bool → Parse β} {k : Option Token → Parse β}
  {T : β → Parser → Prop} {kind : TokenKind}

theorem Keeps.current (hf : ∀ t : Token, t.kind = .ident → Keeps Parser.AtName (f t) T) :
    Keeps Parser.AtName (current >>= f) T := by
  intro p hp b q hrun
  rw [run_bind_ok f (run_current p)] at hrun
  exact hf p.head hp p hp b q hrun

theorem bars_expect {what : String} (hkind : kind ≠ .ident) : Bars (expect kind what) := by
  refine Keeps.current fun t ht => ?_
  rw [if_neg (by rw [ht]; exact hkind.symm)]
  exact .complain _ _

theorem Keeps.nextIs (hkind : kind ≠ .ident) (hg : Keeps Parser.AtName (g false) T) :
    Keeps Parser.AtName (nextIs kind >>= g) T := by
  intro p hp b q hrun
  have hfalse : decide (p.head.kind = kind) = false := by
    rw [show p.head.kind = .ident from hp]
    exact decide_eq_false hkind.symm
  have hrun' : (g (decide (p.head.kind = kind))).run.run p = (.ok b, q) := hrun
  rw [hfalse] at hrun'
  exact hg p hp b q hrun'

theorem Keeps.accept (hkind : kind ≠ .ident) (hk : Keeps Parser.AtName (k none) T) :
    Keeps Parser.AtName (accept kind >>= k) T := by
  unfold Parse.accept
  rw [bind_assoc]
  exact Keeps.nextIs hkind hk

theorem Keeps.skip (hkind : kind ≠ .ident) (hg : Keeps Parser.AtName (g false) T) :
    Keeps Parser.AtName (skip kind >>= g) T := by
  unfold Parse.skip
  rw [bind_assoc]
  exact Keeps.accept hkind hg

theorem stays_finish (kind : String) (first : Span) (fields : Fields) :
    Stays (finish kind first fields) := by
  intro p hp a q hrun
  cases hrun
  exact hp

end

/-! ## Two runs -/

/-- From states that are alike, two runs that both succeed end in states that are alike with results
that `post` holds of, unless one of them ends as `stray` says. -/
def Agree (stray : α → Parser → Prop) (m m' : Parse α) (post : α → α → Prop) : Prop :=
  ∀ p p', p.Like p' → ∀ a q a' q', m.run.run p = (.ok a, q) → m'.run.run p' = (.ok a', q') →
    (q.Like q' ∧ post a a') ∨ stray a q ∨ stray a' q'

/-- Both runs go the same way. -/
abbrev Matches (m m' : Parse α) (post : α → α → Prop) : Prop :=
  Agree (fun _ _ => False) m m' post

/-- Both runs go the same way, unless one of them stops before an identifier. -/
abbrev Nearly (m m' : Parse α) (post : α → α → Prop) : Prop := Agree adrift m m' post

variable {m m' n n' : Parse α} {f f' : α → Parse β} {post : α → α → Prop} {goal : β → β → Prop}
  {S : α → Parser → Prop} {T : β → Parser → Prop}

theorem Agree.bind (hm : Agree S m m' post) (hf : ∀ a a', post a a' → Agree T (f a) (f' a') goal)
    (hs : ∀ a, Keeps (S a) (f a) T) (hs' : ∀ a, Keeps (S a) (f' a) T) :
    Agree T (m >>= f) (m' >>= f') goal := by
  intro p p' hp b q b' q' hrun hrun'
  obtain ⟨a, r, ha, hb⟩ := run_bind_eq_ok hrun
  obtain ⟨a', r', ha', hb'⟩ := run_bind_eq_ok hrun'
  rcases hm p p' hp a r a' r' ha ha' with ⟨hr, hpost⟩ | h | h
  · exact hf a a' hpost r r' hr b q b' q' hb hb'
  · exact .inr (.inl (hs a r h b q hb))
  · exact .inr (.inr (hs' a' r' h b' q' hb'))

/-- One production behind another that goes the same way. -/
theorem Matches.bind (hm : Matches m m' post)
    (hf : ∀ a a', post a a' → Agree T (f a) (f' a') goal) : Agree T (m >>= f) (m' >>= f') goal :=
  Agree.bind hm hf (fun _ _ h => h.elim) fun _ _ h => h.elim

/-- One production behind another; what comes behind it does not get past an identifier. -/
theorem Nearly.bind (hm : Nearly m m' post) (hf : ∀ a a', post a a' → Nearly (f a) (f' a') goal)
    (hs : ∀ a, Stays (f a)) (hs' : ∀ a, Stays (f' a)) : Nearly (m >>= f) (m' >>= f') goal :=
  Agree.bind hm hf hs hs'

/-- One production and a token behind it that is no identifier. -/
theorem Nearly.close {kind : TokenKind} {what : String} {g g' : α → Token → Parse β}
    (hm : Nearly m m' post) (hkind : kind ≠ .ident)
    (hf : ∀ a a', post a a' →
      Agree T (expect kind what >>= g a) (expect kind what >>= g' a') goal) :
    Agree T (m >>= fun a => expect kind what >>= g a)
      (m' >>= fun a => expect kind what >>= g' a) goal :=
  Agree.bind hm hf (fun _ => (bars_expect hkind).bind) fun _ => (bars_expect hkind).bind

theorem Matches.loosen (hm : Matches m m' post) : Agree S m m' post := by
  intro p p' hp a q a' q' hrun hrun'
  rcases hm p p' hp a q a' q' hrun hrun' with h | h | h
  · exact .inl h
  · exact h.elim
  · exact h.elim

theorem Agree.pure {a a' : α} (h : post a a') : Agree S (Pure.pure a) (Pure.pure a') post := by
  intro p p' hp b q b' q' hrun hrun'
  cases hrun
  cases hrun'
  exact .inl ⟨hp, h⟩

theorem Agree.weaken {post' : α → α → Prop} (hm : Agree S m m' post)
    (h : ∀ a a', post a a' → post' a a') : Agree S m m' post' := by
  intro p p' hp a q a' q' hrun hrun'
  rcases hm p p' hp a q a' q' hrun hrun' with ⟨hq, hpost⟩ | hstray
  · exact .inl ⟨hq, h a a' hpost⟩
  · exact .inr hstray

theorem Agree.map {f f' : α → β} {T : β → Parser → Prop} (hm : Agree S m m' post)
    (hf : ∀ a a', post a a' → goal (f a) (f' a')) (hs : ∀ a p, S a p → T (f a) p)
    (hs' : ∀ a p, S a p → T (f' a) p) : Agree T (f <$> m) (f' <$> m') goal := by
  rw [← bind_pure_comp, ← bind_pure_comp]
  exact Agree.bind hm (fun a a' h => .pure (hf a a' h)) (fun a => .pure (hs a))
    fun a => .pure (hs' a)

theorem Matches.map {f f' : α → β} (hm : Matches m m' post)
    (hf : ∀ a a', post a a' → goal (f a) (f' a')) : Matches (f <$> m) (f' <$> m') goal :=
  Agree.map hm hf (fun _ _ h => h) fun _ _ h => h

theorem Nearly.map {f f' : α → β} (hm : Nearly m m' post)
    (hf : ∀ a a', post a a' → goal (f a) (f' a')) : Nearly (f <$> m) (f' <$> m') goal :=
  Agree.map hm hf (fun _ _ h => h) fun _ _ h => h

theorem Agree.ite {c c' : Prop} [Decidable c] [Decidable c'] (hc : c ↔ c')
    (hm : Agree S m m' post) (hn : Agree S n n' post) :
    Agree S (if c then m else n) (if c' then m' else n') post := by
  by_cases h : c
  · rwa [if_pos h, if_pos (hc.1 h)]
  · rwa [if_neg h, if_neg (fun h' => h (hc.2 h'))]

theorem agree_throw (e e' : Fault) : Agree S (throw e : Parse α) (throw e') post := by
  intro p p' _ a q a' q' hrun
  cases hrun

theorem agree_complain (c c' : Complaint) (t t' : Token) :
    Agree S (complain c t : Parse α) (complain c' t') post := by
  intro p p' _ a q a' q' hrun
  cases hrun

/-- What stands behind a complaint does not run. -/
theorem agree_complained {c c' : Complaint} {t t' : Token} {f f' : α → Parse β}
    {T : β → Parser → Prop} (hf : ∀ a a', Agree T (f a) (f' a') goal) :
    Agree T ((complain c t : Parse α) >>= f) ((complain c' t' : Parse α) >>= f') goal := by
  have hbind : Matches (complain c t : Parse α) (complain c' t') fun _ _ => True :=
    agree_complain c c' t t'
  exact hbind.bind fun a a' _ => hf a a'

/-! ### Tokens -/

theorem matches_get : Matches (get : Parse Parser) get Parser.Like := by
  intro p p' hp a q a' q' hrun hrun'
  cases hrun
  cases hrun'
  exact .inl ⟨hp, hp⟩

theorem matches_current : Matches current current Token.Like :=
  matches_get.bind fun _ _ hp => .pure hp.head

theorem matches_second : Matches second second Token.Like := by
  refine matches_get.bind fun p p' hp => ?_
  have hdefault : (default : Token).Like default :=
    ⟨rfl, fun hkind => absurd hkind (by decide)⟩
  unfold Parser.Like at hp
  generalize p.rest = ts, p'.rest = ts' at hp ⊢
  cases hp with
  | nil => exact .pure hdefault
  | cons ht hts =>
    cases hts with
    | nil => exact .pure ht
    | cons hu _ => exact .pure hu

theorem matches_set {p p' : Parser} (h : p.Like p') :
    Matches (set p : Parse PUnit) (set p') fun _ _ => True := by
  intro r r' _ a q a' q' hrun hrun'
  cases hrun
  cases hrun'
  exact .inl ⟨h, trivial⟩

theorem matches_advance : Matches advance advance Token.Like := by
  refine matches_get.bind fun p p' hp => ?_
  unfold Parser.Like at hp
  generalize p.rest = ts, p'.rest = ts' at hp ⊢
  cases hp with
  | nil => exact .pure ⟨rfl, fun hkind => absurd hkind (by decide)⟩
  | cons ht hts =>
    refine .ite (by rw [ht.kind]) ((matches_set ?_).bind fun _ _ _ => .pure ht)
      ((matches_set ?_).bind fun _ _ _ => .pure ht)
    · exact List.Forall₂.cons ht hts
    · exact hts

theorem matches_nextIs (kind : TokenKind) : Matches (nextIs kind) (nextIs kind) Eq :=
  matches_current.bind fun _ _ ht => .pure (by rw [ht.kind])

theorem matches_atAny (kinds : List TokenKind) : Matches (atAny kinds) (atAny kinds) Eq :=
  matches_current.bind fun _ _ ht => .pure (by rw [ht.kind])

theorem matches_atText (kind : TokenKind) (text : String) :
    Matches (atText kind text) (atText kind text) Eq :=
  matches_current.bind fun _ _ ht => .pure (by rw [ht.kind, ht.text])

theorem matches_accept (kind : TokenKind) :
    Matches (accept kind) (accept kind) (Option.Rel Token.Like) := by
  refine (matches_nextIs kind).bind ?_
  rintro b _ rfl
  exact .ite Iff.rfl (matches_advance.map fun _ _ h => .some h) (.pure .none)

theorem matches_skip (kind : TokenKind) : Matches (skip kind) (skip kind) Eq := by
  refine (matches_accept kind).bind fun o o' ho => .pure ?_
  cases ho <;> rfl

theorem matches_expect (kind : TokenKind) (what : String) :
    Matches (expect kind what) (expect kind what) Token.Like :=
  matches_current.bind fun _ _ ht =>
    .ite (by rw [ht.kind]) matches_advance (agree_complain _ _ _ _)

/-! ### Nodes -/

/-- Nodes that end where the token consumed last ends. -/
theorem agree_finish {S : Node → Parser → Prop} {kind : String} {first first' : Span}
    {fs gs : Fields} {post : Node → Node → Prop} (h : ∀ s t, post ⟨kind, s, fs⟩ ⟨kind, t, gs⟩) :
    Agree S (finish kind first fs) (finish kind first' gs) post := by
  intro p p' hp a q a' q' hrun hrun'
  cases hrun
  cases hrun'
  exact .inl ⟨hp, h _ _⟩

theorem agree_node {S : Node → Parser → Prop} {kind : String} {first first' : Span}
    {fs gs : Fields} (h : Fields.Like fs gs) (hkind : kind ≠ "Literal")
    (hfields : properFields kind fs = true) :
    Agree S (finish kind first fs) (finish kind first' gs) Node.Like :=
  agree_finish fun s t => .of_fields h hkind hfields s t

/-! ### Repetition -/

variable {σ : Type} {step step' : σ → Parse (σ × Bool)}

/-- Rounds that go the same way, as long as no run strays, and what becomes of one that does. -/
theorem agree_loop {S : σ × Bool → Parser → Prop} {T : σ → Parser → Prop} (inv : σ → σ → Prop)
    (hstep : ∀ s s', inv s s' →
      Agree S (step s) (step' s') fun r r' => inv r.1 r'.1 ∧ r.2 = r'.2)
    (hdone : ∀ s p, S (s, false) p → T s p)
    (hmore : ∀ s n, Keeps (S (s, true)) (loop step n s) T)
    (hmore' : ∀ s n, Keeps (S (s, true)) (loop step' n s) T) (fuel : Nat) :
    ∀ s s', inv s s' → Agree T (loop step fuel s) (loop step' fuel s') inv := by
  induction fuel with
  | zero => exact fun _ _ _ => agree_throw _ _
  | succ fuel ih =>
    intro s s' hs
    refine Agree.bind (hstep s s' hs) ?_ ?_ ?_
    · rintro ⟨r, more⟩ ⟨r', _⟩ ⟨hr, rfl⟩
      exact .ite Iff.rfl (ih r r' hr) (.pure hr)
    · rintro ⟨r, more⟩
      cases more with
      | false => exact .pure (hdone r)
      | true => exact hmore r fuel
    · rintro ⟨r, more⟩
      cases more with
      | false => exact .pure (hdone r)
      | true => exact hmore' r fuel

theorem matches_loop (inv : σ → σ → Prop) (hstep : ∀ s s', inv s s' →
      Matches (step s) (step' s') fun r r' => inv r.1 r'.1 ∧ r.2 = r'.2) (fuel : Nat) :
    ∀ s s', inv s s' → Matches (loop step fuel s) (loop step' fuel s') inv :=
  agree_loop inv hstep (fun _ _ h => h) (fun _ _ _ h => h.elim) (fun _ _ _ h => h.elim) fuel

/-- At an identifier the repetition ends. -/
def Ends (step : σ → Parse (σ × Bool)) : Prop :=
  ∀ s, Keeps Parser.AtName (step s) fun r p => r.2 = false ∧ p.AtName

theorem Ends.stays_loop (h : Ends step) (fuel : Nat) (s : σ) : Stays (loop step fuel s) := by
  cases fuel with
  | zero => exact .throw _
  | succ fuel =>
    refine (h s).bind ?_
    rintro ⟨r, more⟩ p ⟨hmore, hp⟩ a q hrun
    cases hmore
    cases hrun
    exact hp

/-- Rounds after which a run may have stopped before an identifier, where the next one ends. -/
theorem nearly_loop (inv : σ → σ → Prop) (hstep : ∀ s s', inv s s' →
      Nearly (step s) (step' s') fun r r' => inv r.1 r'.1 ∧ r.2 = r'.2)
    (hends : Ends step) (hends' : Ends step') (fuel : Nat) :
    ∀ s s', inv s s' → Nearly (loop step fuel s) (loop step' fuel s') inv :=
  agree_loop inv hstep (fun _ _ h => h) (fun s n => hends.stays_loop n s)
    (fun s n => hends'.stays_loop n s) fuel

/-- A first part, and rounds behind it that end at an identifier. -/
theorem nearly_chain {m m' : Parse σ} (inv : σ → σ → Prop) (hm : Nearly m m' inv)
    (hstep : ∀ s s', inv s s' →
      Nearly (step s) (step' s') fun r r' => inv r.1 r'.1 ∧ r.2 = r'.2)
    (hends : Ends step) (hends' : Ends step') (fuel : Nat) :
    Nearly (m >>= loop step fuel) (m' >>= loop step' fuel) inv :=
  Nearly.bind hm (nearly_loop inv hstep hends hends' fuel) (hends.stays_loop fuel)
    (hends'.stays_loop fuel)

/-- What a list with separators looks like to a run that has strayed: no separator follows. -/
abbrev unseparated (r : σ × Bool) (p : Parser) : Prop := r.2 = false ∧ p.AtName

/-- Rounds that go on only behind a separator. -/
theorem nearly_separated (inv : σ → σ → Prop) (hstep : ∀ s s', inv s s' →
      Agree unseparated (step s) (step' s') fun r r' => inv r.1 r'.1 ∧ r.2 = r'.2)
    (fuel : Nat) : ∀ s s', inv s s' → Nearly (loop step fuel s) (loop step' fuel s') inv :=
  agree_loop inv hstep (fun _ _ h => h.2) (fun _ _ _ h => absurd h.1 (by simp))
    (fun _ _ _ h => absurd h.1 (by simp)) fuel

/-- Nodes that are collected, last one first. -/
abbrev AllLike (ns ms : List Node) : Prop := List.Forall₂ Node.Like ns ms

theorem AllLike.reverse {ns ms : List Node} (h : AllLike ns ms) :
    AllLike ns.reverse ms.reverse := List.rel_reverse h

theorem matches_many {stop stop' : Parse Bool} {item item' : Parse Node} (fuel : Nat)
    (hstop : Matches stop stop' Eq) (hitem : Matches item item' Node.Like) :
    Matches (many fuel stop item) (many fuel stop' item') AllLike := by
  refine (matches_loop AllLike (fun acc acc' hacc => ?_) fuel [] [] .nil).bind
    fun ns ns' hns => .pure hns.reverse
  refine hstop.bind ?_
  rintro b _ rfl
  refine .ite Iff.rfl (.pure ⟨hacc, rfl⟩) ?_
  exact hitem.bind fun n n' hn => .pure ⟨.cons hn hacc, rfl⟩

/-- An item and a separator behind it, if there is one. -/
theorem agree_separated {item item' : Parse Node} {acc acc' : List Node}
    (hitem : Nearly item item' Node.Like) (hacc : AllLike acc acc') :
    Agree unseparated (do let n ← item; pure (n :: acc, ← skip .comma))
      (do let n ← item'; pure (n :: acc', ← skip .comma))
      fun r r' => AllLike r.1 r'.1 ∧ r.2 = r'.2 := by
  refine Agree.bind hitem (fun n n' hn => ?_) (fun n => ?_) fun n => ?_
  · refine (matches_skip .comma).bind ?_
    rintro b _ rfl
    exact .pure ⟨.cons hn hacc, rfl⟩
  · exact .skip (by decide) (.pure fun p hp => ⟨rfl, hp⟩)
  · exact .skip (by decide) (.pure fun p hp => ⟨rfl, hp⟩)

theorem nearly_commaList {item item' : Parse Node} (fuel : Nat) (close : TokenKind)
    (hitem : Nearly item item' Node.Like) :
    Nearly (commaList fuel close item) (commaList fuel close item') AllLike := by
  refine Nearly.bind (nearly_separated AllLike (fun acc acc' hacc => ?_) fuel [] [] .nil)
    (fun ns ns' hns => .pure hns.reverse) (fun _ => .pure fun _ h => h) fun _ =>
      .pure fun _ h => h
  refine (matches_nextIs close).bind ?_
  rintro b _ rfl
  exact .ite Iff.rfl (.pure ⟨hacc, rfl⟩) (agree_separated hitem hacc)

theorem matches_bodyUntilBrace {item item' : Parse Node} (fuel : Nat)
    (hitem : Matches item item' Node.Like) :
    Matches (bodyUntilBrace fuel item) (bodyUntilBrace fuel item') AllLike := by
  refine (matches_many fuel (matches_nextIs _) ?_).bind fun ns ns' hns =>
    matches_advance.bind fun _ _ _ => .pure hns
  exact matches_current.bind fun _ _ ht =>
    .ite (by rw [ht.kind]) (agree_complain _ _ _ _) hitem

end Rules

end Parse

end MonkeyFormat
