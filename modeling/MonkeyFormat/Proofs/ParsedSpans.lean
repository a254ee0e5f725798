import MonkeyFormat.Proofs.SpanNesting

set_option autoImplicit false

/-! # Where the nodes of a parsed tree lie

A node starts at a token and ends at the token consumed last, so the nodes that one production reads
after another lie behind each other. Each production is followed from a spot between two tokens to
the spot it ends at: its nodes lie between the token that comes next at the first spot and the token
that comes before the second one. -/

namespace MonkeyFormat

/-- What the spans of a tree take from a token. -/
structure Token.Placed (cs : List Char) (t : Token) : Prop where
  coherent : t.span.Coherent cs
  /-- Two closing angles may be taken one by one. -/
  order : t.kind = .shiftRight → t.span.start + 1 ≤ t.span.stop
  middle : t.kind = .shiftRight →
    (⟨t.span.line, t.span.col + 1, t.span.start + 1⟩ : Place) =
      .ofOffset cs (t.span.start + 1).toNat
  empty : t.kind = .endOfInput → t.span.stop ≤ t.span.start

/-- A spot between two tokens: where the one before it ends, and where the one behind it starts. -/
structure Spot where
  edge : Int
  here : Int
  order : edge ≤ here

instance : Preorder Spot where
  le s t := s.edge ≤ t.edge ∧ s.here ≤ t.here
  le_refl _ := ⟨le_rfl, le_rfl⟩
  le_trans _ _ _ h h' := ⟨h.1.trans h'.1, h.2.trans h'.2⟩

/-- The second spot lies behind the token that the first one lies before. -/
structure Spot.Passed (s t : Spot) : Prop where
  le : s ≤ t
  past : s.here ≤ t.edge

theorem Spot.Passed.later {s t u : Spot} (h : s.Passed t) (h' : t ≤ u) : s.Passed u :=
  ⟨h.le.trans h', h.past.trans h'.1⟩

theorem Spot.Passed.earlier {r s t : Spot} (h : s.Passed t) (h' : r ≤ s) : r.Passed t :=
  ⟨h'.trans h.le, h'.2.trans h.past⟩

/-- The span starts at the spot. -/
structure Span.Begins (cs : List Char) (s : Spot) (span : Span) : Prop where
  coherent : span.Coherent cs
  start : span.start = s.here

/-- The parser stands at a spot of a text. -/
structure Parser.At (cs : List Char) (s : Spot) (p : Parser) : Prop where
  placed : ∀ t ∈ p.rest, t.Placed cs
  ordered : p.rest.Pairwise fun t u => t.span.stop ≤ u.span.start
  ends : ∃ front last, p.rest = front ++ [last] ∧ last.kind = .endOfInput
  last : ∀ t ∈ p.last, t.span.Coherent cs
  source : p.source.toList = cs
  /-- Before the first token there is none to end, and nothing lies there. -/
  edge : s.edge = (p.last.map (·.span.stop)).getD (-1)
  here : s.here = p.head.span.start

/-- Nodes that lie between two spots, one behind the other. -/
structure Lie (cs : List Char) (s : Spot) (ns : List Node) (t : Spot) : Prop where
  le : s ≤ t
  placed : ∀ n ∈ ns, n.Placed cs
  apart : Apart s.here ns t.edge

namespace Lie

variable {cs : List Char} {r s t u : Spot} {ns ms : List Node}

theorem nil (h : s ≤ t) : Lie cs s [] t := ⟨h, by simp, trivial⟩

theorem later (h : Lie cs s ns t) (h' : t ≤ u) : Lie cs s ns u :=
  ⟨h.le.trans h', h.placed, h.apart.mono le_rfl h'.1⟩

theorem earlier (h : Lie cs s ns t) (h' : r ≤ s) : Lie cs r ns t :=
  ⟨h'.trans h.le, h.placed, h.apart.mono h'.2 le_rfl⟩

theorem append (h : Lie cs s ns t) (h' : Lie cs t ms u) : Lie cs s (ns ++ ms) u where
  le := h.le.trans h'.le
  placed n hn := (List.mem_append.1 hn).elim (h.placed n) (h'.placed n)
  apart := h.apart.append h'.apart h.le.2 t.order h'.le.1

/-- A node joins those collected before it, last one first. -/
theorem collect {acc : List Node} {n : Node} (h : Lie cs s acc.reverse t) (hn : Lie cs t [n] u) :
    Lie cs s (n :: acc).reverse u := by
  rw [List.reverse_cons]
  exact h.append hn

/-- The children of a node lie where it lies. -/
theorem children {n : Node} (h : Lie cs s [n] t) : Lie cs s n.children t := by
  obtain ⟨hstart, hstop, -⟩ := h.apart
  have hn := h.placed n List.mem_cons_self
  exact ⟨h.le, hn.children, hn.apart.mono hstart hstop⟩

/-- A node takes at least one token. -/
theorem passed {n : Node} (h : Lie cs s (n :: ns) t) : s.Passed t where
  le := h.le
  past := h.apart.1.trans ((h.placed n List.mem_cons_self).coherent.order.trans h.apart.2.1)

end Lie

/-- The token that comes next starts at the spot. -/
theorem Parser.At.head {cs : List Char} {s : Spot} {p : Parser} (h : p.At cs s) :
    p.head.Placed cs ∧ p.head.span.Begins cs s := by
  obtain ⟨front, last, hrest, -⟩ := h.ends
  have hmem : p.head ∈ p.rest := by
    rw [Parser.head, hrest]
    cases front <;> simp
  have hplaced := h.placed _ hmem
  exact ⟨hplaced, hplaced.coherent, h.here.symm⟩

namespace Parse

/-- From the spot the production leads to later ones, with results that `post` holds of. -/
def Goes {α : Type} (cs : List Char) (s : Spot) (m : Parse α) (post : α → Spot → Prop) : Prop :=
  ∀ p : Parser, p.At cs s → ∀ a q, m.run.run p = (.ok a, q) → ∃ t, q.At cs t ∧ s ≤ t ∧ post a t

section Rules

variable {cs : List Char} {r s t : Spot} {α β : Type} {m m' : Parse α} {f : α → Parse β}
  {post : α → Spot → Prop} {goal : β → Spot → Prop}

theorem Goes.bind (hm : Goes cs s m post)
    (hf : ∀ a t, s ≤ t → post a t → Goes cs t (f a) goal) : Goes cs s (m >>= f) goal := by
  intro p hp b q hrun
  obtain ⟨a, mid, ha, hb⟩ := run_bind_eq_ok hrun
  obtain ⟨t, hmid, hst, hpost⟩ := hm p hp a mid ha
  obtain ⟨u, hq, htu, hgoal⟩ := hf a t hst hpost mid hmid b q hb
  exact ⟨u, hq, hst.trans htu, hgoal⟩

theorem Goes.pure {a : α} (h : post a s) : Goes cs s (Pure.pure a) post := by
  intro p hp b q hrun
  cases hrun
  exact ⟨s, hp, le_rfl, h⟩

theorem Goes.weaken {post' : α → Spot → Prop} (hm : Goes cs s m post)
    (h : ∀ a t, s ≤ t → post a t → post' a t) : Goes cs s m post' := by
  intro p hp a q hrun
  obtain ⟨t, hq, hst, hpost⟩ := hm p hp a q hrun
  exact ⟨t, hq, hst, h a t hst hpost⟩

theorem Goes.map {g : α → β} (hm : Goes cs s m post)
    (hg : ∀ a t, s ≤ t → post a t → goal (g a) t) : Goes cs s (g <$> m) goal := by
  intro p hp b q hrun
  obtain ⟨a, ha, rfl⟩ := run_map_eq_ok hrun
  obtain ⟨t, hq, hst, hpost⟩ := hm p hp a q ha
  exact ⟨t, hq, hst, hg a t hst hpost⟩

theorem Goes.ite {c : Prop} [Decidable c] (hm : Goes cs s m post) (hm' : Goes cs s m' post) :
    Goes cs s (if c then m else m') post := by
  split
  · exact hm
  · exact hm'

/-- Two branches that go on in the same way. -/
theorem Goes.branch {c : Prop} [Decidable c] (hm : Goes cs s m post) (hm' : Goes cs s m' post)
    (hf : ∀ a t, s ≤ t → post a t → Goes cs t (f a) goal) :
    Goes cs s (if c then m >>= f else m' >>= f) goal := .ite (hm.bind hf) (hm'.bind hf)

theorem goes_throw (e : Fault) : Goes cs s (throw e : Parse α) post := by
  intro p _ a q hrun
  cases hrun

/-- A look at the state moves nothing. -/
theorem Goes.get_bind {f : Parser → Parse β} (hf : ∀ p, p.At cs s → Goes cs s (f p) goal) :
    Goes cs s (get >>= f) goal := by
  intro p hp b q hrun
  exact hf p hp p hp b q hrun

theorem goes_complain (c : Complaint) (t : Token) :
    Goes cs s (complain c t : Parse α) post := .get_bind fun _ _ => goes_throw _

/-! ## Tokens -/

theorem Goes.current_bind {f : Token → Parse β}
    (hf : ∀ tok, tok.Placed cs → tok.span.Begins cs s → Goes cs s (f tok) goal) :
    Goes cs s (current >>= f) goal := by
  intro p hp b q hrun
  exact hf p.head hp.head.1 hp.head.2 p hp b q hrun

theorem goes_second : Goes cs s second fun _ t => t = s := by
  refine .get_bind fun p _ => ?_
  split <;> exact .pure rfl

theorem goes_nextIs (kind : TokenKind) : Goes cs s (nextIs kind) fun _ t => t = s :=
  .current_bind fun _ _ _ => .pure rfl

theorem goes_atAny (kinds : List TokenKind) : Goes cs s (atAny kinds) fun _ t => t = s :=
  .current_bind fun _ _ _ => .pure rfl

theorem goes_atText (kind : TokenKind) (text : String) :
    Goes cs s (atText kind text) fun _ t => t = s := .current_bind fun _ _ _ => .pure rfl

/-- A production that goes on behind a test, which moves nothing. -/
theorem Goes.test_bind (hm : Goes cs s m fun _ t => t = s) (hf : ∀ a, Goes cs s (f a) goal) :
    Goes cs s (m >>= f) goal := by
  refine hm.bind ?_
  rintro a _ _ rfl
  exact hf a

/-- What consuming a token gives: the token that starts at the spot, which is behind it then. -/
structure Consumed (cs : List Char) (s : Spot) (tok : Token) (t : Spot) : Prop where
  begins : tok.span.Begins cs s
  passed : s.Passed t

/-- Consuming a token leads behind it. -/
theorem run_advance_at {p : Parser} (hp : p.At cs s) :
    ∃ q t, advance.run.run p = (.ok p.head, q) ∧ q.At cs t ∧ Consumed cs s p.head t := by
  obtain ⟨front, last, hends, hkind⟩ := hp.ends
  obtain ⟨hplaced, hbegins⟩ := hp.head
  unfold advance
  rw [run_bind_ok _ (show (get : Parse Parser).run.run p = (.ok p, p) from rfl)]
  cases hrest : p.rest with
  | nil => simp [hrest] at hends
  | cons tok toks =>
    have hhead : p.head = tok := by
      rw [Parser.head, hrest]
      rfl
    rw [hhead] at hplaced hbegins ⊢
    have hordered := hp.ordered
    rw [hrest, List.pairwise_cons] at hordered
    have hlast : ∀ u ∈ some tok, u.span.Coherent cs := by
      rintro u ⟨⟩
      exact hplaced.coherent
    have hstart := hbegins.start
    have hlength := hplaced.coherent.order
    have hspot := s.order
    by_cases htok : tok.kind = .endOfInput
    · -- the end token stays, and covers nothing
      have hempty := hplaced.empty htok
      simp only [htok]
      refine ⟨_, ⟨tok.span.stop, s.here, by omega⟩, rfl, ?_, hbegins, ⟨?_, le_rfl⟩, ?_⟩
      · exact ⟨hrest ▸ hp.placed, hrest ▸ hp.ordered, hrest ▸ hp.ends, hlast, hp.source, rfl,
          hstart.symm⟩
      · show s.edge ≤ tok.span.stop
        omega
      · show s.here ≤ tok.span.stop
        omega
    · have hnext : ∃ front, toks = front ++ [last] := by
        cases front with
        | nil =>
          rw [hrest, List.nil_append, List.cons.injEq] at hends
          exact absurd (hends.1 ▸ hkind) htok
        | cons _ front =>
          rw [hrest, List.cons_append, List.cons.injEq] at hends
          exact ⟨front, hends.2⟩
      obtain ⟨front, rfl⟩ := hnext
      have hmem : (front ++ [last]).headD default ∈ front ++ [last] := by cases front <;> simp
      have hstop := hordered.1 _ hmem
      have hlater := hplaced.coherent.order
      simp only [htok]
      refine ⟨_, ⟨tok.span.stop, ((front ++ [last]).headD default).span.start, hstop⟩, rfl, ?_,
        hbegins, ⟨?_, ?_⟩, ?_⟩
      · refine ⟨fun u hu => hp.placed u ?_, hordered.2, ⟨front, last, rfl, hkind⟩, hlast, hp.source,
          rfl, rfl⟩
        rw [hrest]
        exact List.mem_cons_of_mem tok hu
      · show s.edge ≤ tok.span.stop
        omega
      · show s.here ≤ ((front ++ [last]).headD default).span.start
        omega
      · show s.here ≤ tok.span.stop
        omega

theorem goes_advance : Goes cs s advance (Consumed cs s) := by
  intro p hp a q hrun
  obtain ⟨q', t, hrun', hq, hconsumed⟩ := run_advance_at hp
  rw [hrun'] at hrun
  cases hrun
  exact ⟨t, hq, hconsumed.passed.le, hconsumed⟩

theorem goes_expect (kind : TokenKind) (what : String) :
    Goes cs s (expect kind what) (Consumed cs s) :=
  .current_bind fun _ _ _ => .ite goes_advance (goes_complain _ _)

theorem goes_accept (kind : TokenKind) :
    Goes cs s (accept kind) fun o t => ∀ tok ∈ o, Consumed cs s tok t := by
  refine (goes_nextIs kind).test_bind fun _ => .ite (goes_advance.map fun tok t _ h => ?_) ?_
  · rintro _ ⟨⟩
    exact h
  · exact .pure (by simp)

theorem goes_skip (kind : TokenKind) : Goes cs s (skip kind) fun _ _ => True :=
  (goes_accept kind).bind fun _ _ _ _ => .pure trivial

/-! ## Nodes -/

@[simp] theorem held_genericsField (o : Option (List Node)) :
    (genericsField o).held = o.getD [] := by
  cases o with
  | none => rfl
  | some ns => exact Value.held_nodes ns

/-- The children of a node of a known kind, read off its fields. -/
theorem children_of_known {kind : String} {span : Span} {fields : Fields} {names : List String}
    (known : childFields? kind = some names) :
    (Node.mk kind span fields).children =
      names.flatMap fun name => ((fields.lookup name).getD .null).held := by
  rw [Node.children_eq, Node.childKeys, known]
  rfl

/-- A node spans from a place of the text to a later one, with its children between them. -/
theorem placed_spanning {kind : String} {first last : Span} {fields : Fields}
    {names : List String} {ns : List Node} (known : childFields? kind = some names)
    (hchildren : (names.flatMap fun name => ((fields.lookup name).getD .null).held) = ns)
    (hfirst : first.Coherent cs) (hlast : last.Coherent cs) (horder : first.start ≤ last.stop)
    (hplaced : ∀ n ∈ ns, n.Placed cs) (hapart : Apart first.start ns last.stop) :
    (spanning kind first last fields).Placed cs := by
  have hns : (spanning kind first last fields).children = ns :=
    (children_of_known known).trans hchildren
  refine .intro _ ⟨hfirst.nonneg, horder, hlast.within, hfirst.first, hlast.last⟩ ?_ ?_
  · rwa [hns]
  · rwa [hns]

/-- A finished node starts where its first span starts and ends where the last token does. -/
theorem goes_finish {kind : String} {first : Span} {fields : Fields} {names : List String}
    {ns : List Node} (known : childFields? kind = some names)
    (hchildren : (names.flatMap fun name => ((fields.lookup name).getD .null).held) = ns)
    (hfirst : first.Coherent cs) (hlo : r.here ≤ first.start) (hle : r ≤ s)
    (hpast : first.start ≤ s.edge) (hplaced : ∀ n ∈ ns, n.Placed cs)
    (hapart : Apart first.start ns s.edge) :
    Goes cs s (finish kind first fields) fun n t => Lie cs r [n] t := by
  refine .get_bind fun p hp => .pure ?_
  cases hlast : p.last with
  | none =>
    have hedge := hp.edge
    rw [hlast] at hedge
    have := hfirst.nonneg
    simp only [Option.map_none, Option.getD_none] at hedge
    omega
  | some l =>
    have hedge : s.edge = l.span.stop := by
      rw [hp.edge, hlast]
      rfl
    rw [hedge] at hpast hapart
    have hnode := placed_spanning known hchildren hfirst (hp.last l hlast) hpast hplaced hapart
    refine ⟨hle, ?_, hlo, hedge.ge, trivial⟩
    simpa using hnode

/-- A finished node has the kind that was asked for, and starts where its first span does. -/
theorem Goes.finished {kind : String} {first : Span} {fields : Fields} {post : Node → Spot → Prop}
    (h : Goes cs s (finish kind first fields) post) :
    Goes cs s (finish kind first fields) fun n t =>
      post n t ∧ n.kind = kind ∧ n.start = first.start := by
  intro p hp n q hrun
  obtain ⟨t, hq, hst, hpost⟩ := h p hp n q hrun
  cases hrun
  exact ⟨t, hq, hst, hpost, rfl, rfl⟩

/-- A node that starts with a token consumed before its children. -/
theorem goes_finish_token {kind : String} {first : Span} {fields : Fields} {names : List String}
    {ns : List Node} (known : childFields? kind = some names) (hfirst : first.Begins cs r)
    (hpassed : r.Passed s)
    (hchildren : (names.flatMap fun name => ((fields.lookup name).getD .null).held) = ns)
    (hns : Lie cs r ns s) :
    Goes cs s (finish kind first fields) fun n t => Lie cs r [n] t := by
  have hstart := hfirst.start
  refine goes_finish known hchildren hfirst.coherent hstart.ge hpassed.le ?_ hns.placed ?_
  · rw [hstart]
    exact hpassed.past
  · rw [hstart]
    exact hns.apart

theorem Consumed.finish {kind : String} {first : Token} {fields : Fields} {names : List String}
    {ns : List Node} {t : Spot} (hfirst : Consumed cs r first t)
    (known : childFields? kind = some names) (hns : Lie cs t ns s)
    (hchildren : (names.flatMap fun name => ((fields.lookup name).getD .null).held) = ns) :
    Goes cs s (Parse.finish kind first.span fields) fun n u => Lie cs r [n] u :=
  goes_finish_token known hfirst.begins (hfirst.passed.later hns.le) hchildren
    (hns.earlier hfirst.passed.le)

/-- A node that starts with its first child. -/
theorem goes_finish_child {kind : String} {first : Node} {fields : Fields} {names : List String}
    {ns : List Node} (known : childFields? kind = some names)
    (hchildren : (names.flatMap fun name => ((fields.lookup name).getD .null).held) = first :: ns)
    (hns : Lie cs r (first :: ns) s) :
    Goes cs s (finish kind first.span fields) fun n t => Lie cs r [n] t := by
  obtain ⟨hlo, hstop, hrest⟩ := hns.apart
  have hcoherent := (hns.placed first List.mem_cons_self).coherent
  exact goes_finish known hchildren hcoherent hlo hns.le (hcoherent.order.trans hstop) hns.placed
    ⟨le_rfl, hstop, hrest⟩

/-! ## Repetition -/

theorem goes_loop {σ : Type} {step : σ → Parse (σ × Bool)} (inv : σ → Spot → Prop)
    (hstep : ∀ x t, s ≤ t → inv x t → Goes cs t (step x) fun r u => inv r.1 u) (fuel : Nat) :
    ∀ x t, s ≤ t → inv x t → Goes cs t (loop step fuel x) inv := by
  induction fuel with
  | zero => exact fun _ _ _ _ => goes_throw _
  | succ fuel ih =>
    intro x t hst hx
    refine (hstep x t hst hx).bind ?_
    rintro ⟨x', more⟩ u htu hx'
    exact .ite (ih x' u (hst.trans htu) hx') (.pure hx')

end Rules

/-- The production reads a node. -/
abbrev Nests (cs : List Char) (m : Parse Node) : Prop :=
  ∀ s, Goes cs s m fun n t => Lie cs s [n] t

/-- The production reads nodes, one behind the other. -/
abbrev NestsAll (cs : List Char) (m : Parse (List Node)) : Prop :=
  ∀ s, Goes cs s m fun ns t => Lie cs s ns t

/-- The production reads a node or none. -/
abbrev NestsOptional (cs : List Char) (m : Parse (Option Node)) : Prop :=
  ∀ s, Goes cs s m fun o t => Lie cs s o.toList t

section Lists

variable {cs : List Char} {s t : Spot}

theorem Nests.some {m : Parse Node} (hm : Nests cs m) : NestsOptional cs (Option.some <$> m) :=
  fun s => (hm s).map fun _ _ _ h => h

theorem nests_none : NestsOptional cs (Pure.pure Option.none) := fun _ => .pure (.nil le_rfl)

theorem nests_many {stop : Parse Bool} {item : Parse Node} (fuel : Nat)
    (hstop : ∀ s, Goes cs s stop fun _ t => t = s) (hitem : Nests cs item) :
    NestsAll cs (many fuel stop item) := by
  intro s
  refine (goes_loop (fun acc t => Lie cs s acc.reverse t) (fun acc t _ hacc => ?_) fuel [] s le_rfl
    (.nil le_rfl)).bind fun ns t _ hns => .pure hns
  refine (hstop t).test_bind fun _ => .ite (.pure hacc) ?_
  exact (hitem t).bind fun n u _ hn => .pure (hacc.collect hn)

theorem nests_commaList {item : Parse Node} (fuel : Nat) (close : TokenKind)
    (hitem : Nests cs item) : NestsAll cs (commaList fuel close item) := by
  intro s
  refine (goes_loop (fun acc t => Lie cs s acc.reverse t) (fun acc t _ hacc => ?_) fuel [] s le_rfl
    (.nil le_rfl)).bind fun ns t _ hns => .pure hns
  refine (goes_nextIs close).test_bind fun _ => .ite (.pure hacc) ?_
  refine (hitem t).bind fun n u _ hn => (goes_skip .comma).bind fun _ v huv _ => ?_
  exact .pure ((hacc.collect hn).later huv)

theorem nests_bodyUntilBrace {item : Parse Node} (fuel : Nat) (hitem : Nests cs item) :
    NestsAll cs (bodyUntilBrace fuel item) := by
  intro s
  refine (nests_many fuel (fun _ => goes_nextIs _) (fun s => ?_) s).bind fun ns t _ hns =>
    goes_advance.bind fun _ u htu _ => .pure (hns.later htu)
  exact .current_bind fun _ _ _ => .ite (goes_complain _ _) (hitem s)

end Lists

section Productions

variable {cs : List Char} {r s : Spot}

/-! ## Names and types -/

theorem nests_identifier : Nests cs identifier := fun _ =>
  (goes_expect _ _).bind fun _ _ _ htok => htok.finish rfl (.nil le_rfl) rfl

theorem goes_member {object property : Node} (h : Lie cs r [object, property] s) :
    Goes cs s (member object property) fun n t => Lie cs r [n] t :=
  goes_finish_child rfl rfl h

theorem nests_scopedName (fuel : Nat) : Nests cs (scopedName fuel) := by
  intro s
  refine (nests_identifier s).bind fun first t hst hfirst => ?_
  refine goes_loop (fun name t => Lie cs s [name] t) (fun name t _ hname => ?_) fuel first t hst
    hfirst
  refine (goes_skip _).bind fun _ u htu _ => .ite ?_ (.pure (hname.later htu))
  refine (nests_identifier u).bind fun property v _ hproperty => ?_
  exact (goes_member ((hname.later htu).append hproperty)).bind fun n w _ hn => .pure hn

/-- The halves of a double angle are tokens of their own. -/
theorem placed_halves {tok : Token} (h : tok.Placed cs) (hkind : tok.kind = .shiftRight) :
    let span := tok.span
    Span.Coherent cs ⟨span.start, span.start + 1, span.line, span.col, span.line, span.col + 1⟩ ∧
      Token.Placed cs ⟨.greater, ">",
        ⟨span.start + 1, span.stop, span.line, span.col + 1, span.endLine, span.endCol⟩⟩ := by
  have hnonneg := h.coherent.nonneg
  have horder := h.order hkind
  have hwithin := h.coherent.within
  have hmiddle := h.middle hkind
  refine ⟨⟨hnonneg, by simp, by simp; omega, h.coherent.first, hmiddle⟩, ?_, nofun, nofun, nofun⟩
  exact ⟨by simp; omega, horder, hwithin, hmiddle, h.coherent.last⟩

theorem goes_closeAngle : Goes cs s closeAngle fun _ _ => True := by
  intro p hp a q hrun
  obtain ⟨hplaced, hbegins⟩ := hp.head
  obtain ⟨front, last, hends, hlast⟩ := hp.ends
  unfold closeAngle at hrun
  rw [run_bind_ok _ (show current.run.run p = (.ok p.head, p) from rfl)] at hrun
  split at hrun
  · have hadvance : Goes cs s (advance >>= fun _ => Pure.pure ()) fun _ _ => True :=
      goes_advance.bind fun _ _ _ _ => .pure trivial
    exact hadvance p hp a q hrun
  · next hkind =>
    cases hrun
    obtain ⟨hfirst, hsecond⟩ := placed_halves hplaced hkind
    cases front with
    | nil =>
      have hhead : p.head = last := by
        rw [Parser.head, hends]
        rfl
      rw [hhead, hlast] at hkind
      cases hkind
    | cons tok front =>
      have hhead : p.head = tok := by
        rw [Parser.head, hends]
        rfl
      have hdrop : p.rest.drop 1 = front ++ [last] := by
        rw [hends]
        rfl
      have hordered := hp.ordered
      have hall := hp.placed
      rw [hends, List.cons_append, List.pairwise_cons] at hordered
      rw [hends] at hall
      have hstart := hbegins.start
      have hspot := s.order
      rw [hhead] at hfirst hsecond hstart ⊢
      refine ⟨⟨tok.span.start + 1, tok.span.start + 1, le_rfl⟩, ?_, ⟨?_, ?_⟩, trivial⟩
      · dsimp only
        rw [hdrop]
        refine ⟨?_, ?_, ⟨_ :: front, last, rfl, hlast⟩, ?_, hp.source, rfl, rfl⟩
        · intro u hu
          rcases List.mem_cons.1 hu with rfl | hu
          · exact hsecond
          · exact hall u (List.mem_cons_of_mem tok hu)
        · exact .cons hordered.1 hordered.2
        · rintro u ⟨⟩
          exact hfirst
      · show s.edge ≤ tok.span.start + 1
        omega
      · show s.here ≤ tok.span.start + 1
        omega
  · have hcomplain : Goes cs s (complain .unclosedGenerics p.head : Parse Unit) fun _ _ => True :=
      goes_complain _ _
    exact hcomplain p hp a q hrun

theorem goes_generics {types : Parse Node} (fuel : Nat) (htypes : Nests cs types) :
    Goes cs s (generics fuel types) fun o t => Lie cs s (o.getD []) t := by
  refine (goes_skip _).bind fun _ t hst _ => .ite ?_ (.pure (.nil hst))
  refine (htypes t).bind fun first u htu hfirst => ?_
  refine (goes_loop (fun acc u => Lie cs t acc.reverse u) (fun acc u _ hacc => ?_) fuel [first] u
    le_rfl hfirst).bind fun ns v _ hns => goes_closeAngle.bind fun _ w hvw _ =>
      .pure ((hns.later hvw).earlier hst)
  refine (goes_skip _).bind fun _ v huv _ => .ite ?_ (.pure (hacc.later huv))
  exact (htypes v).bind fun n w _ hn => .pure ((hacc.later huv).collect hn)

section Nested

variable {types : Parse Node} (htypes : Nests cs types)
include htypes

theorem nests_typedIdentifier : Nests cs (typedIdentifier types) := by
  intro s
  refine (nests_identifier s).bind fun name t _ hname => ?_
  refine (goes_skip _).bind fun _ u htu _ => .ite ?_ (.pure (hname.later htu))
  refine (htypes u).bind fun ts v _ hts => ?_
  exact goes_finish_child rfl rfl ((hname.later htu).append hts)

/-- Parameters take two parentheses at least. -/
theorem goes_params (fuel : Nat) :
    Goes cs s (params fuel types) fun ns t => Lie cs s ns t ∧ s.Passed t := by
  refine (goes_expect _ _).bind fun _ t hst hopen => ?_
  refine (nests_commaList fuel _ (nests_typedIdentifier htypes) t).bind fun ns u htu hns => ?_
  refine (goes_expect _ _).bind fun _ v huv _ => .pure ⟨(hns.later huv).earlier hst, ?_⟩
  exact hopen.passed.later (htu.trans huv)

theorem nests_returnType : NestsOptional cs (returnType types) := by
  intro s
  refine (goes_accept _).bind fun o t hst ho => ?_
  cases o with
  | none => exact .pure (.nil hst)
  | some tok =>
    refine (htypes t).bind fun ts u _ hts => ?_
    exact ((ho tok rfl).finish rfl hts rfl).bind fun n v _ hn => .pure hn

theorem goes_callableType (fuel : Nat) :
    Goes cs s (callableType fuel types) fun n t => Lie cs s [n] t ∧ n.kind = "TypeSpecPart" := by
  refine goes_advance.bind fun first t _ hfirst => ?_
  refine (nests_identifier t).bind fun name u _ hname => ?_
  refine .current_bind fun callFirst _ hcallFirst => ?_
  refine (goes_params htypes fuel).bind fun ps v _ hps => ?_
  refine (nests_returnType htypes v).bind fun result w _ hresult => ?_
  refine Goes.bind (goes_finish_token rfl hcallFirst (hps.2.later hresult.le)
    (by simp [Fields.lookup_cons]) (hps.1.append hresult)) fun call x _ hcall => ?_
  refine (goes_expect _ _).bind fun _ y hxy _ => ?_
  refine (Goes.finished (hfirst.finish rfl (hname.append (hcall.later hxy)) rfl)).weaken ?_
  exact fun n z _ hn => ⟨hn.1, hn.2.1⟩

theorem nests_singleType (fuel : Nat) : Nests cs (singleType fuel types) := by
  intro s
  refine .current_bind fun first _ hfirst => goes_second.test_bind fun _ => ?_
  extract_lets nullable
  have hnullable : ∀ part t, s ≤ t → Lie cs s [part] t ∧ part.kind = "TypeSpecPart" →
      Goes cs t (nullable part) fun n u => Lie cs s [n] u := by
    rintro part t hst ⟨hpart, hkind⟩
    refine (goes_nextIs _).test_bind fun _ => goes_second.test_bind fun _ => .ite ?_ (.pure hpart)
    refine goes_advance.bind fun _ u htu _ => ?_
    refine goes_finish_token rfl hfirst (hpart.passed.later htu) ?_ (hpart.children.later htu)
    -- the mark is not among the fields that hold children
    have hkeys : part.childKeys = ["name", "generics", "callspec"] := by
      rw [Node.childKeys, hkind]
      rfl
    rw [Node.children_eq, hkeys]
    simp [Fields.lookup_insert, Node.get]
  refine .ite ((goes_callableType htypes fuel).bind hnullable) (.ite ?_ ?_)
  · exact (goes_complain _ _).bind hnullable
  · refine (nests_scopedName fuel s).bind fun name t _ hname => ?_
    refine (goes_generics fuel htypes).bind fun gs u _ hgs => ?_
    refine (Goes.finished (goes_finish_token rfl hfirst (hname.passed.later hgs.le)
      (by simp [Fields.lookup_cons]) (hname.append hgs))).bind fun n v huv hn => ?_
    exact hnullable n v ((hname.le.trans hgs.le).trans huv) ⟨hn.1, hn.2.1⟩

theorem nests_typeList (fuel : Nat) : Nests cs (typeList fuel types) := by
  intro s
  refine .current_bind fun first _ hfirst => ?_
  refine (nests_singleType htypes fuel s).bind fun part t hst hpart => ?_
  refine (goes_loop (fun acc t => Lie cs s acc.reverse t ∧ s.Passed t) (fun acc t _ hacc => ?_)
    fuel [part] t hst ⟨hpart, hpart.passed⟩).bind fun parts u _ hparts => ?_
  · refine (goes_atText _ _).test_bind fun _ => .ite ?_ (.pure hacc)
    refine goes_advance.bind fun _ u htu _ => ?_
    refine (nests_singleType htypes fuel u).bind fun n v huv hn => .pure ?_
    exact ⟨(hacc.1.later htu).collect hn, hacc.2.later (htu.trans huv)⟩
  · exact goes_finish_token rfl hfirst hparts.2 (by simp [Fields.lookup_cons]) hparts.1

end Nested

theorem nests_types (fuel : Nat) : Nests cs (types fuel) := by
  induction fuel with
  | zero => exact fun _ => goes_throw _
  | succ fuel ih => exact nests_typeList ih (fuel + 1)

/-! ## Expressions -/

theorem goes_byteSuffix : Goes cs s byteSuffix fun _ _ => True := by
  refine .current_bind fun t _ _ => .get_bind fun p _ => ?_
  split
  · exact .ite (goes_advance.bind fun _ _ _ _ => .pure trivial) (.pure trivial)
  · exact .pure trivial

theorem goes_value (kind : TokenKind) (text : String) :
    Goes cs s (Literal.value kind text : Parse Value) fun _ _ => True := by
  intro p hp v q hrun
  cases h : Literal.value kind text with
  | error e =>
    rw [h] at hrun
    cases hrun
  | ok w =>
    rw [h] at hrun
    cases hrun
    exact ⟨s, hp, le_rfl, trivial⟩

theorem goes_prefixed {op : Token} {t : Spot} (hop : Consumed cs r op t) {n : Node}
    (hn : Lie cs t [n] s) : Goes cs s (prefixed op n) fun m u => Lie cs r [m] u := by
  unfold prefixed
  split
  · exact hop.finish rfl hn rfl
  · exact hop.finish rfl hn rfl

theorem nests_logical {operand : Parse Node} (hoperand : Nests cs operand) (fuel : Nat)
    (kind : TokenKind) : Nests cs (logical fuel kind operand) := by
  intro s
  refine (hoperand s).bind fun first t hst hfirst => ?_
  refine goes_loop (fun left t => Lie cs s [left] t) (fun left t _ hleft => ?_) fuel first t hst
    hfirst
  refine (goes_accept kind).bind fun o u htu _ => ?_
  cases o with
  | none => exact .pure (hleft.later htu)
  | some op =>
    refine (hoperand u).bind fun right v _ hright => ?_
    exact Goes.bind (goes_finish_child rfl rfl ((hleft.later htu).append hright))
      fun n w _ hn => .pure hn

/-- Operators before an operand, last one first, from one spot to another. -/
inductive Prefixes (cs : List Char) (s : Spot) : List Token → Spot → Prop
  | nil : Prefixes cs s [] s
  | cons {op : Token} {ops : List Token} {t u : Spot} (h : Prefixes cs s ops t)
      (hop : Consumed cs t op u) : Prefixes cs s (op :: ops) u

theorem goes_prefixes {ops : List Token} {t u : Spot} (hops : Prefixes cs s ops t) {n : Node}
    (hn : Lie cs t [n] u) :
    Goes cs u (ops.foldlM (fun n op => prefixed op n) n) fun m v => Lie cs s [m] v := by
  induction hops generalizing n u with
  | nil => exact .pure hn
  | cons _ hop ih =>
    rw [List.foldlM_cons]
    exact (goes_prefixed hop hn).bind fun m v _ hm => ih hm

section Nested

variable {expr : Parse Node} (hexpr : Nests cs expr)
include hexpr

/-- Arguments take two parentheses at least. -/
theorem nests_arguments (fuel : Nat) : NestsAll cs (arguments fuel expr) := by
  intro s
  refine (goes_expect _ _).bind fun _ t hst _ => ?_
  refine (nests_commaList fuel _ hexpr t).bind fun ns u _ hns => ?_
  exact (goes_expect _ _).bind fun _ v huv _ => .pure ((hns.later huv).earlier hst)

theorem nests_array (fuel : Nat) : Nests cs (array fuel expr) := by
  intro s
  refine goes_advance.bind fun first t _ hfirst => ?_
  refine (nests_commaList fuel _ hexpr t).bind fun ns u _ hns => ?_
  refine (goes_expect _ _).bind fun _ v huv _ => goes_byteSuffix.bind fun byte w hvw _ => ?_
  exact hfirst.finish rfl (hns.later (huv.trans hvw)) (by simp [Fields.lookup_cons])

theorem nests_entry : Nests cs (entry expr) := by
  intro s
  refine (hexpr s).bind fun key t _ hkey => (goes_expect _ _).bind fun _ u htu _ => ?_
  refine (hexpr u).bind fun value v _ hvalue => ?_
  exact goes_finish_child rfl rfl ((hkey.later htu).append hvalue)

theorem nests_dictionary (fuel : Nat) : Nests cs (dictionary fuel expr) := by
  intro s
  refine goes_advance.bind fun first t _ hfirst => ?_
  refine (nests_commaList fuel _ (nests_entry hexpr) t).bind fun ns u _ hns => ?_
  refine (goes_expect _ _).bind fun _ v huv _ => ?_
  exact hfirst.finish rfl (hns.later huv) (by simp [Fields.lookup_cons])

theorem goes_sizedArray {first : Token} {t : Spot} (hfirst : Consumed cs r first t)
    {ts : Option Node} (hts : Lie cs t ts.toList s) :
    Goes cs s (sizedArray expr first ts) fun n u => Lie cs r [n] u := by
  refine (goes_expect _ _).bind fun _ u hsu _ => (hexpr u).bind fun size v _ hsize => ?_
  refine (goes_expect _ _).bind fun _ w hvw _ => goes_byteSuffix.bind fun byte x hwx _ => ?_
  exact hfirst.finish rfl (((hts.later hsu).append hsize).later (hvw.trans hwx))
    (by simp [Fields.lookup_cons])

theorem nests_construction (fuel : Nat) : Nests cs (construction fuel expr) := by
  intro s
  refine goes_advance.bind fun first t _ hfirst => (goes_nextIs _).test_bind fun _ => ?_
  refine .ite (goes_sizedArray hexpr hfirst (.nil le_rfl)) ?_
  refine .current_bind fun typeFirst _ htypeFirst => ?_
  refine (nests_scopedName fuel t).bind fun name u _ hname => ?_
  refine (goes_generics fuel (nests_types fuel)).bind fun gs v huv hgs => ?_
  refine .current_bind fun tok _ _ => .ite ?_ ?_
  · extract_lets call
    have hcall : ∀ x w, v ≤ w → Goes cs w (call x) fun n y => Lie cs s [n] y := by
      intro x w hvw
      refine (nests_arguments hexpr fuel w).bind fun args y _ hargs => ?_
      exact hfirst.finish rfl ((hname.later (huv.trans hvw)).append hargs)
        (by simp [Fields.lookup_cons])
    have hfail : Goes cs v (complain .genericConstructor tok : Parse PUnit) fun _ _ => True :=
      goes_complain _ _
    exact .ite (hfail.bind fun x w hvw _ => hcall x w hvw) (hcall () v le_rfl)
  · refine Goes.bind (goes_finish_token rfl htypeFirst (hname.passed.later hgs.le)
      (by simp [Fields.lookup_cons]) (hname.append hgs)) fun ts w _ hts => ?_
    exact goes_sizedArray hexpr hfirst hts

theorem nests_primary (fuel : Nat) : Nests cs (primary fuel expr) := by
  intro s
  refine .current_bind fun tok _ htok => ?_
  -- the token that was looked at is the one consumed next
  have hadvance {f : Token → Parse Node}
      (h : ∀ u t, s.Passed t → Goes cs t (f u) fun n v => Lie cs s [n] v) :
      Goes cs s (advance >>= f) fun n v => Lie cs s [n] v :=
    goes_advance.bind fun u t _ hu => h u t hu.passed
  split
  · exact nests_identifier s
  · exact hadvance fun _ t hst => goes_finish_token rfl htok hst rfl (.nil hst.le)
  · refine goes_advance.bind fun _ t hst _ => (hexpr t).bind fun n u _ hn => ?_
    exact (goes_expect _ _).bind fun _ v huv _ => .pure ((hn.later huv).earlier hst)
  · exact nests_array hexpr fuel s
  · exact nests_dictionary hexpr fuel s
  · refine hadvance fun _ t hst => (nests_identifier t).bind fun name u _ hname => ?_
    exact goes_finish_token rfl htok (hst.later hname.le) rfl (hname.earlier hst.le)
  · exact nests_construction hexpr fuel s
  · split
    · refine hadvance fun _ t hst => ?_
      exact (goes_value tok.kind tok.text).bind fun v u htu _ =>
        goes_finish_token rfl htok (hst.later htu) rfl (.nil (hst.le.trans htu))
    · exact goes_complain _ _

theorem nests_postfixed (fuel : Nat) : Nests cs (postfixed fuel expr) := by
  intro s
  refine (nests_primary hexpr fuel s).bind fun first t hst hfirst => ?_
  refine goes_loop (fun n t => Lie cs s [n] t) (fun n t _ hn => ?_) fuel first t hst hfirst
  refine .current_bind fun tok _ _ => ?_
  split
  · refine goes_advance.bind fun _ u htu _ => ?_
    refine (nests_identifier u).bind fun property v _ hproperty => ?_
    exact (goes_member ((hn.later htu).append hproperty)).bind fun _ _ _ hm => .pure hm
  · refine goes_advance.bind fun _ u htu _ => (hexpr u).bind fun property v _ hproperty => ?_
    refine (goes_expect _ _).bind fun _ w hvw _ => ?_
    exact Goes.bind (goes_finish_child rfl rfl (((hn.later htu).append hproperty).later hvw))
      fun _ _ _ hm => .pure hm
  · refine (nests_arguments hexpr fuel t).bind fun args u _ hargs => ?_
    exact Goes.bind (goes_finish_child rfl (by simp [Fields.lookup_cons]) (hn.append hargs))
      fun _ _ _ hm => .pure hm
  · refine goes_advance.bind fun _ u htu _ => ?_
    exact Goes.bind (goes_finish_child rfl rfl (hn.later htu)) fun _ _ _ hm => .pure hm
  · exact .pure hn

theorem nests_unary (fuel : Nat) : Nests cs (unary fuel expr) := by
  intro s
  refine (goes_loop (Prefixes cs s) (fun acc t _ hacc => ?_) fuel [] s le_rfl .nil).bind
    fun ops t hst hops => (nests_postfixed hexpr fuel t).bind fun n u _ hn => goes_prefixes hops hn
  refine (goes_atAny _).test_bind fun _ => .ite ?_ (.pure hacc)
  exact goes_advance.bind fun op u _ hop => .pure (.cons hacc hop)

theorem nests_binary (fuel depth : Nat) : ∀ rank, Nests cs (binary fuel expr depth rank) := by
  induction depth with
  | zero => exact fun rank _ => goes_throw _
  | succ depth ih =>
    intro rank s
    refine (nests_unary hexpr fuel s).bind fun first t hst hfirst => ?_
    refine goes_loop (fun left t => Lie cs s [left] t) (fun left t _ hleft => ?_) fuel first t hst
      hfirst
    refine Goes.test_bind (.current_bind fun _ _ _ => .pure rfl) fun op? => ?_
    split
    · exact .pure hleft
    · refine .ite (.pure hleft) (goes_advance.bind fun _ u htu _ => ?_)
      extract_lets join
      have hjoin : ∀ right v, u ≤ v → Lie cs u [right] v →
          Goes cs v (join right) fun r w => Lie cs s [r.1] w := by
        intro right v _ hright
        exact Goes.bind (goes_finish_child rfl rfl ((hleft.later htu).append hright))
          fun n w _ hn => .pure hn
      refine .ite ?_ (.ite ((nests_scopedName fuel u).bind hjoin) ((ih _ u).bind hjoin))
      exact (nests_types fuel u).bind hjoin

theorem nests_disjunction (fuel : Nat) : Nests cs (disjunction fuel expr) :=
  nests_logical (nests_logical (nests_binary hexpr fuel fuel _) fuel _) fuel _

theorem nests_conditional (fuel : Nat) : Nests cs (conditional fuel expr) := by
  intro s
  refine (nests_disjunction hexpr fuel s).bind fun test t _ htest => ?_
  refine (goes_skip _).bind fun _ u htu _ => .ite ?_ (.pure (htest.later htu))
  refine (hexpr u).bind fun consequent v _ hconsequent => (goes_expect _ _).bind fun _ w hvw _ => ?_
  refine (hexpr w).bind fun alternate x _ halternate => ?_
  exact goes_finish_child rfl rfl
    ((((htest.later htu).append hconsequent).later hvw).append halternate)

theorem nests_assignment (fuel : Nat) : Nests cs (assignment fuel expr) := by
  intro s
  refine (nests_conditional hexpr fuel s).bind fun left t _ hleft => ?_
  refine .current_bind fun op _ _ => .ite ?_ (.pure hleft)
  extract_lets assign
  have hassign : ∀ x u, t ≤ u → Goes cs u (assign x) fun n v => Lie cs s [n] v := by
    intro x u htu
    refine goes_advance.bind fun _ v huv _ => (hexpr v).bind fun right w _ hright => ?_
    exact goes_finish_child rfl rfl ((hleft.later (htu.trans huv)).append hright)
  have hfail : Goes cs t (complain .invalidTarget op : Parse PUnit) fun _ _ => True :=
    goes_complain _ _
  exact .ite (hfail.bind fun x u htu _ => hassign x u htu) (hassign () t le_rfl)

end Nested

theorem nests_expression (fuel : Nat) : Nests cs (expression fuel) := by
  induction fuel with
  | zero => exact fun _ => goes_throw _
  | succ fuel ih => exact nests_assignment ih (fuel + 1)

theorem nests_sequence (fuel : Nat) : Nests cs (sequence fuel) := by
  intro s
  refine (nests_expression fuel s).bind fun first t hst hfirst => ?_
  refine (goes_nextIs _).test_bind fun _ => .ite ?_ (.pure hfirst)
  refine (goes_loop (fun acc t => Lie cs s acc.reverse t ∧ [first] <+: acc.reverse)
    (fun acc t _ hacc => ?_) fuel [first] t hst ⟨hfirst, List.prefix_rfl⟩).bind fun ns u _ hns => ?_
  · refine (goes_skip _).bind fun _ u htu _ => .ite ?_ (.pure ⟨hacc.1.later htu, hacc.2⟩)
    refine (nests_expression fuel u).bind fun n v _ hn => .pure ⟨(hacc.1.later htu).collect hn, ?_⟩
    rw [List.reverse_cons]
    exact hacc.2.trans (List.prefix_append _ _)
  · -- the collected expressions start with the first one
    obtain ⟨more, hmore⟩ := hns.2
    have hall := hns.1
    rw [← hmore] at hall
    exact goes_finish_child rfl (by simp [Fields.lookup_cons, ← hmore]) hall

/-! ## Statements -/

theorem nests_declarator (fuel : Nat) (kind : String) : Nests cs (declarator fuel kind) := by
  intro s
  refine (nests_typedIdentifier (nests_types fuel) s).bind fun name t _ hname => ?_
  refine (goes_atText _ _).test_bind fun _ => ?_
  extract_lets done
  have hdone : ∀ init u, t ≤ u → Lie cs t init.toList u →
      Goes cs u (done init) fun n v => Lie cs s [n] v := fun init u _ hinit =>
    goes_finish_child rfl (by simp [Fields.lookup_cons]) (hname.append hinit)
  refine .ite (goes_advance.bind fun _ u htu _ => ?_) ((nests_none t).bind hdone)
  exact ((nests_expression fuel).some u).bind fun init v huv hinit =>
    hdone init v (htu.trans huv) (hinit.earlier htu)

section Attributed

variable {first : Span} (hfirst : first.Begins cs r) {attrs : Option Node}
  (hattrs : Lie cs r attrs.toList s)
include hfirst hattrs

theorem goes_variableList (fuel : Nat) :
    Goes cs s (variableList fuel first attrs) fun n t =>
      Lie cs r [n] t ∧ n.kind = "VariableDeclaration" := by
  refine goes_advance.bind fun tok t hst htok => ?_
  refine (goes_loop (fun acc u => Lie cs t acc.reverse u) (fun acc u _ hacc => ?_) fuel [] t le_rfl
    (.nil le_rfl)).bind fun ns u htu hns => ?_
  · refine (nests_declarator fuel _ u).bind fun n v _ hn => ?_
    exact (goes_skip _).bind fun _ w hvw _ => .pure ((hacc.collect hn).later hvw)
  · have hpassed := (htok.passed.later htu).earlier hattrs.le
    refine (Goes.finished (goes_finish_token rfl hfirst hpassed (by simp [Fields.lookup_cons])
      ((hattrs.later hst).append hns))).weaken fun n v _ hn => ⟨hn.1, hn.2.1⟩

theorem goes_variablesStatement (fuel : Nat) :
    Goes cs s (variablesStatement fuel first attrs) fun n t => Lie cs r [n] t := by
  refine (goes_variableList hfirst hattrs fuel).bind fun n t _ hn => ?_
  refine (goes_expect _ _).bind fun _ u htu _ => ?_
  refine goes_finish_token rfl hfirst (hn.1.passed.later htu) ?_ (hn.1.children.later htu)
  rw [Node.children_eq, Node.childKeys, hn.2]
  rfl

end Attributed

theorem nests_parenTest (fuel : Nat) : Nests cs (parenTest fuel) := by
  intro s
  refine (goes_expect _ _).bind fun _ t hst _ => (nests_expression fuel t).bind fun n u _ hn => ?_
  exact (goes_expect _ _).bind fun _ v huv _ => .pure ((hn.later huv).earlier hst)

theorem nests_caseTest (fuel : Nat) : Nests cs (caseTest fuel) := by
  intro s
  refine (goes_accept _).bind fun o t hst ho => ?_
  cases o with
  | none =>
    exact (nests_expression fuel t).weaken fun _ _ _ hn => hn.earlier hst
  | some tok =>
    refine (nests_scopedName fuel t).bind fun name u _ hname => ?_
    exact (ho tok rfl).finish rfl hname rfl

theorem nests_catchParam (fuel : Nat) : Nests cs (catchParam fuel) := by
  intro s
  refine (nests_identifier s).bind fun name t _ hname => ?_
  refine (goes_skip _).bind fun _ u htu _ => .ite ?_ (.pure (hname.later htu))
  refine (nests_scopedName fuel u).bind fun kind v _ hkind => ?_
  exact goes_finish_child rfl rfl ((hname.later htu).append hkind)

theorem nests_returnStatement (fuel : Nat) : Nests cs (returnStatement fuel) := by
  intro s
  refine goes_advance.bind fun first t _ hfirst => (goes_nextIs _).test_bind fun _ => ?_
  refine .branch (nests_none t) ((nests_expression fuel).some t) fun argument u _ hargument => ?_
  exact (goes_expect _ _).bind fun _ v huv _ =>
    hfirst.finish rfl (hargument.later huv) (by simp [Fields.lookup_cons])

theorem nests_throwStatement (fuel : Nat) : Nests cs (throwStatement fuel) := by
  intro s
  refine goes_advance.bind fun first t _ hfirst => ?_
  refine (nests_expression fuel t).bind fun argument u _ hargument => ?_
  exact (goes_expect _ _).bind fun _ v huv _ => hfirst.finish rfl (hargument.later huv) rfl

theorem nests_jump : Nests cs jump := by
  intro s
  refine goes_advance.bind fun first t _ hfirst => (goes_expect _ _).bind fun _ u htu _ => ?_
  split <;> exact hfirst.finish rfl (.nil htu) rfl

theorem nests_expressionStatement (fuel : Nat) : Nests cs (expressionStatement fuel) := by
  intro s
  refine .current_bind fun first _ hfirst => (nests_expression fuel s).bind fun n t _ hn => ?_
  exact (goes_expect _ _).bind fun _ u htu _ =>
    goes_finish_token rfl hfirst (hn.passed.later htu) rfl (hn.later htu)

/-- Several handlers lie in a node of their own, from the first to the last. -/
theorem lie_handlers {ns : List Node} {t : Spot} (h : Lie cs s ns t) :
    Lie cs s (handlers ns).toList t := by
  match ns, h with
  | [], h => exact h
  | [n], h => exact h
  | n :: m :: ns, h =>
    have hcoherent k (hk : k ∈ n :: m :: ns) := (h.placed k hk).coherent
    obtain ⟨hstart, hrest⟩ := h.apart
    have hfrom : Apart n.start (n :: m :: ns) t.edge := ⟨le_rfl, hrest⟩
    obtain ⟨hapart, hlast, hstop⟩ := hfrom.upToLast (List.cons_ne_nil n (m :: ns)) fun k hk =>
      (hcoherent k hk).order
    have hplaced : (spanning "CatchClauses" n.span ((m :: ns).getLast (by simp)).span
        [("catches", nodes (n :: m :: ns))]).Placed cs :=
      placed_spanning rfl (by simp [Fields.lookup_cons]) (hcoherent n List.mem_cons_self)
        (hcoherent _ (List.mem_cons_of_mem n (List.getLast_mem _))) hlast h.placed hapart
    exact ⟨h.le, by simpa [handlers] using hplaced, hstart, hstop, trivial⟩

section Nested

variable {stmt : Parse Node} (hstmt : Nests cs stmt)
include hstmt

theorem nests_block (fuel : Nat) : Nests cs (block fuel stmt) := by
  intro s
  refine (goes_expect _ _).bind fun first t _ hfirst => ?_
  refine (nests_bodyUntilBrace fuel hstmt t).bind fun ns u _ hns => ?_
  exact hfirst.finish rfl hns (by simp [Fields.lookup_cons])

theorem nests_ifStatement (fuel : Nat) : Nests cs (ifStatement fuel stmt) := by
  intro s
  refine goes_advance.bind fun first t _ hfirst => ?_
  refine (nests_parenTest fuel t).bind fun test u _ htest => ?_
  refine (hstmt u).bind fun consequent v _ hconsequent => (goes_skip _).bind fun _ w hvw _ => ?_
  refine .branch (hstmt.some w) (nests_none w) fun alternate x _ halternate => ?_
  exact hfirst.finish rfl (((htest.append hconsequent).later hvw).append halternate)
    (by simp [Fields.lookup_cons])

theorem nests_whileStatement (fuel : Nat) : Nests cs (whileStatement fuel stmt) := by
  intro s
  refine goes_advance.bind fun first t _ hfirst => ?_
  refine (nests_parenTest fuel t).bind fun test u _ htest => (hstmt u).bind fun body v _ hbody => ?_
  exact hfirst.finish rfl (htest.append hbody) rfl

theorem nests_doStatement (fuel : Nat) : Nests cs (doStatement fuel stmt) := by
  intro s
  refine goes_advance.bind fun first t _ hfirst => (hstmt t).bind fun body u _ hbody => ?_
  refine (goes_expect _ _).bind fun _ v huv _ => ?_
  refine (nests_parenTest fuel v).bind fun test w _ htest => ?_
  exact (goes_expect _ _).bind fun _ x hwx _ =>
    hfirst.finish rfl (((hbody.later huv).append htest).later hwx) rfl

theorem nests_forStatement (fuel : Nat) : Nests cs (forStatement fuel stmt) := by
  intro s
  refine goes_advance.bind fun first t _ hfirst => (goes_expect _ _).bind fun _ t' htt' _ => ?_
  refine .current_bind fun tok _ htok => ?_
  extract_lets rest
  have hrest : ∀ init u, t' ≤ u → Lie cs t' init.toList u →
      Goes cs u (rest init) fun n v => Lie cs s [n] v := by
    intro init u _ hinit
    refine (goes_expect _ _).bind fun _ u' huu' _ => (goes_nextIs _).test_bind fun _ => ?_
    refine .branch (nests_none u') ((nests_expression fuel).some u') fun test v _ htest => ?_
    refine (goes_expect _ _).bind fun _ v' hvv' _ => (goes_nextIs _).test_bind fun _ => ?_
    refine .branch (nests_none v') ((nests_sequence fuel).some v') fun update w _ hupdate => ?_
    refine (goes_expect _ _).bind fun _ w' hww' _ => (hstmt w').bind fun body x _ hbody => ?_
    have hheader := (((hinit.later huu').append htest).later hvv').append hupdate
    exact hfirst.finish rfl (((hheader.later hww').append hbody).earlier htt')
      (by simp [Fields.lookup_cons])
  refine .ite ?_ (.ite ((nests_none t').bind hrest) (((nests_sequence fuel).some t').bind hrest))
  have hlist : Goes cs t' (some <$> variableList fuel tok.span none) fun o u =>
      Lie cs t' o.toList u :=
    (goes_variableList htok (.nil le_rfl) fuel).map fun _ _ _ hn => hn.1
  exact hlist.bind hrest

theorem nests_switchCase (fuel : Nat) : Nests cs (switchCase fuel stmt) := by
  intro s
  refine .current_bind fun first _ hfirst => ?_
  extract_lets rest
  have hrest : ∀ test t, s.Passed t → Lie cs s test.toList t →
      Goes cs t (rest test) fun n u => Lie cs s [n] u := by
    intro test t hst htest
    refine (goes_expect _ _).bind fun _ u htu _ => ?_
    refine (nests_many fuel (fun _ => goes_atAny _) hstmt u).bind fun ns v huv hns => ?_
    exact goes_finish_token rfl hfirst (hst.later (htu.trans huv)) (by simp [Fields.lookup_cons])
      ((htest.later htu).append hns)
  split
  · refine goes_advance.bind fun _ t _ htok => ((nests_caseTest fuel).some t).bind ?_
    exact fun test u htu htest =>
      hrest test u (htok.passed.later htu) (htest.earlier htok.passed.le)
  · refine goes_advance.bind fun _ t _ htok => (nests_none t).bind ?_
    exact fun test u htu htest =>
      hrest test u (htok.passed.later htu) (htest.earlier htok.passed.le)
  · have hfail : Goes cs s (complain .expectedCase first : Parse (Option Node)) fun _ _ => False :=
      goes_complain _ _
    exact hfail.bind fun _ _ _ h => h.elim

theorem nests_switchStatement (fuel : Nat) : Nests cs (switchStatement fuel stmt) := by
  intro s
  refine goes_advance.bind fun first t _ hfirst => ?_
  refine (nests_parenTest fuel t).bind fun discriminant u _ hdiscriminant => ?_
  refine (goes_expect _ _).bind fun _ v huv _ => ?_
  refine (nests_many fuel (fun _ => goes_nextIs _) (nests_switchCase hstmt fuel) v).bind
    fun ns w _ hns => ?_
  exact (goes_expect _ _).bind fun _ x hwx _ => hfirst.finish rfl
    (((hdiscriminant.later huv).append hns).later hwx) (by simp [Fields.lookup_cons])

theorem nests_catchClause (fuel : Nat) : Nests cs (catchClause fuel stmt) := by
  intro s
  refine goes_advance.bind fun first t _ hfirst => (goes_skip _).bind fun _ u htu _ => ?_
  extract_lets rest
  have hrest : ∀ param v, u ≤ v → Lie cs u param.toList v →
      Goes cs v (rest param) fun n w => Lie cs s [n] w := by
    intro param v _ hparam
    refine (nests_block hstmt fuel v).bind fun body w _ hbody => ?_
    exact hfirst.finish rfl ((hparam.append hbody).earlier htu) (by simp [Fields.lookup_cons])
  refine .ite ?_ ((nests_none u).bind hrest)
  refine (nests_catchParam fuel u).bind fun n v huv hn => (goes_expect _ _).bind fun _ w hvw _ => ?_
  exact Goes.bind (.pure (hn.later hvw)) fun param x hwx hparam =>
    hrest param x ((huv.trans hvw).trans hwx) hparam

theorem nests_tryStatement (fuel : Nat) : Nests cs (tryStatement fuel stmt) := by
  intro s
  refine goes_advance.bind fun first t _ hfirst => ?_
  refine (nests_block hstmt fuel t).bind fun body u _ hbody => ?_
  have hstop : ∀ u, Goes cs u (do pure !(← nextIs .catchWord)) fun _ v => v = u :=
    fun u => (goes_nextIs _).test_bind fun _ => .pure rfl
  refine (nests_many fuel hstop (nests_catchClause hstmt fuel) u).bind fun ns v _ hns => ?_
  refine (goes_skip _).bind fun _ w hvw _ => ?_
  refine .branch ((nests_block hstmt fuel).some w) (nests_none w) fun finalizer x _ hfinalizer => ?_
  have hall := ((hbody.append (lie_handlers hns)).later hvw).append hfinalizer
  have hfail (tok : Token) :
      Goes cs x (complain .expectedHandler tok : Parse PUnit) fun _ _ => False := goes_complain _ _
  refine .ite (.current_bind fun tok _ _ => (hfail tok).bind fun _ _ _ h => h.elim) ?_
  exact hfirst.finish rfl hall (by simp [Fields.lookup_cons])

theorem nests_statementWith (fuel : Nat) : Nests cs (statementWith fuel stmt) := by
  intro s
  refine .current_bind fun tok _ htok => ?_
  split
  · exact nests_block hstmt fuel s
  · exact nests_ifStatement hstmt fuel s
  · exact nests_whileStatement hstmt fuel s
  · exact nests_doStatement hstmt fuel s
  · exact nests_forStatement hstmt fuel s
  · exact nests_switchStatement hstmt fuel s
  · exact nests_tryStatement hstmt fuel s
  · exact nests_returnStatement fuel s
  · exact nests_throwStatement fuel s
  · exact nests_jump s
  · exact nests_jump s
  · exact goes_variablesStatement htok (.nil le_rfl) fuel
  · exact goes_variablesStatement htok (.nil le_rfl) fuel
  · exact nests_expressionStatement fuel s

end Nested

theorem nests_statement (fuel : Nat) : Nests cs (statement fuel) := by
  induction fuel with
  | zero => exact fun _ => goes_throw _
  | succ fuel ih => exact nests_statementWith ih (fuel + 1)

/-! ## Declarations -/

theorem nests_usingDeclaration (fuel : Nat) : Nests cs (usingDeclaration fuel) := by
  intro s
  refine goes_advance.bind fun first t _ hfirst => ?_
  refine (nests_scopedName fuel t).bind fun name u _ hname => (goes_skip _).bind fun _ v huv _ => ?_
  refine .branch (nests_identifier.some v) (nests_none v) fun shortName w _ hshort => ?_
  exact (goes_expect _ _).bind fun _ x hwx _ =>
    hfirst.finish rfl (((hname.later huv).append hshort).later hwx) (by simp [Fields.lookup_cons])

theorem nests_importDeclaration (fuel : Nat) : Nests cs (importDeclaration fuel) := by
  intro s
  refine goes_advance.bind fun first t _ hfirst => ?_
  refine (nests_scopedName fuel t).bind fun name u _ hname => ?_
  exact (goes_expect _ _).bind fun _ v huv _ => hfirst.finish rfl (hname.later huv) rfl

theorem nests_attributes (fuel : Nat) : Nests cs (attributes fuel) := by
  intro s
  refine goes_advance.bind fun first t _ hfirst => ?_
  refine (nests_commaList fuel _ (nests_postfixed (nests_expression fuel) fuel) t).bind
    fun ns u _ hns => (goes_expect _ _).bind fun _ v huv _ => ?_
  exact hfirst.finish rfl (hns.later huv) (by simp [Fields.lookup_cons])

/-- Access words leave no node, but each is a token. -/
theorem goes_accessWords (fuel : Nat) :
    Goes cs s (accessWords fuel) fun ws t => ws.isEmpty = false → s.Passed t := by
  refine (goes_loop (fun (acc : List String) t => s ≤ t ∧ (acc.isEmpty = false → s.Passed t))
    (fun acc t _ hacc => ?_) fuel [] s le_rfl ⟨le_rfl, by simp⟩).bind
      fun ws t _ hws => .pure fun hne => hws.2 (by simpa using hne)
  refine (goes_accept _).bind fun o u htu ho => ?_
  cases o with
  | none => exact .pure ⟨hacc.1.trans htu, fun hne => (hacc.2 hne).later htu⟩
  | some tok =>
    exact .pure ⟨hacc.1.trans htu, fun _ => (ho tok rfl).passed.earlier hacc.1⟩

/-- Attributes start where the declaration starts. -/
theorem goes_attributeList (fuel : Nat) :
    Goes cs s (attributeList fuel) fun o t =>
      Lie cs s o.toList t ∧ ∀ n ∈ o, n.span.Begins cs s := by
  refine .current_bind fun first _ hfirst => ?_
  refine .branch ((nests_attributes fuel).some s) (nests_none s) fun attrs t _ hattrs => ?_
  refine (goes_accessWords fuel).bind fun words u htu hwords => ?_
  by_cases hempty : (attrs.isNone && words.isEmpty) = true
  · rw [if_pos hempty]
    exact .pure ⟨.nil (hattrs.le.trans htu), by simp⟩
  · rw [if_neg hempty]
    have hpassed : s.Passed u := by
      cases attrs with
      | some n => exact hattrs.passed.later htu
      | none => exact (hwords (by simpa using hempty)).earlier hattrs.le
    refine Goes.map (Goes.finished (goes_finish_token rfl hfirst hpassed
      (by simp [Fields.lookup_cons]) (hattrs.later htu))) fun n v _ hn => ⟨hn.1, ?_⟩
    rintro _ ⟨⟩
    exact ⟨(hn.1.placed n List.mem_cons_self).coherent, hn.2.2.trans hfirst.start⟩

theorem nests_enumMember (fuel : Nat) : Nests cs (enumMember fuel) := by
  intro s
  refine (nests_identifier s).bind fun name t _ hname => ?_
  refine (goes_atText _ _).test_bind fun _ => .ite ?_ (.pure hname)
  refine goes_advance.bind fun _ u htu _ => (nests_expression fuel u).bind fun init v _ hinit => ?_
  exact goes_finish_child rfl rfl ((hname.later htu).append hinit)

section Attributed

variable {first : Span} (hfirst : first.Begins cs r) {attrs : Option Node}
  (hattrs : Lie cs r attrs.toList s)
include hfirst hattrs

theorem goes_moduleDeclaration {item : Parse Node} (hitem : Nests cs item) (fuel : Nat) :
    Goes cs s (moduleDeclaration fuel item first attrs) fun n t => Lie cs r [n] t := by
  refine goes_advance.bind fun _ t hst htok => (nests_identifier t).bind fun name u _ hname => ?_
  refine (goes_expect _ _).bind fun opening v _ hopening => ?_
  refine (nests_bodyUntilBrace fuel hitem v).bind fun ns w _ hns => ?_
  refine Goes.bind (hopening.finish rfl hns (by simp [Fields.lookup_cons])) fun body x _ hbody => ?_
  have hpassed := htok.passed.later (hname.le.trans hbody.le)
  exact goes_finish_token rfl hfirst (hpassed.earlier hattrs.le) (by simp [Fields.lookup_cons])
    (((hattrs.later hst).append hname).append hbody)

theorem goes_classDeclaration {item : Parse Node} (hitem : Nests cs item) (fuel : Nat) :
    Goes cs s (classDeclaration fuel item first attrs) fun n t => Lie cs r [n] t := by
  refine goes_advance.bind fun _ t hst htok => (nests_identifier t).bind fun name u _ hname => ?_
  refine (goes_skip _).bind fun _ u' huu' _ => ?_
  refine .branch ((nests_scopedName fuel).some u') (nests_none u') fun base v _ hbase => ?_
  refine (goes_expect _ _).bind fun opening w _ hopening => ?_
  refine (nests_bodyUntilBrace fuel hitem w).bind fun ns x _ hns => ?_
  refine Goes.bind (hopening.finish rfl hns (by simp [Fields.lookup_cons])) fun body y _ hbody => ?_
  have hall := ((hname.later huu').append hbase).append hbody
  exact goes_finish_token rfl hfirst ((htok.passed.later hall.le).earlier hattrs.le)
    (by simp [Fields.lookup_cons]) ((hattrs.later hst).append hall)

theorem goes_functionDeclaration (fuel : Nat) :
    Goes cs s (functionDeclaration fuel first attrs) fun n t => Lie cs r [n] t := by
  refine goes_advance.bind fun _ t hst htok => (nests_identifier t).bind fun name u _ hname => ?_
  refine (goes_params (nests_types fuel) fuel).bind fun ps v _ hps => ?_
  refine (nests_returnType (nests_types fuel) v).bind fun result w _ hresult => ?_
  refine (goes_skip _).bind fun _ w' hww' _ => ?_
  refine .branch (nests_none w') ((nests_block (nests_statement fuel) fuel).some w')
    fun body x _ hbody => ?_
  have hall := (((hname.append hps.1).append hresult).later hww').append hbody
  exact goes_finish_token rfl hfirst ((htok.passed.later hall.le).earlier hattrs.le)
    (by simp [Fields.lookup_cons]) ((hattrs.later hst).append hall)

theorem goes_enumDeclaration (fuel : Nat) :
    Goes cs s (enumDeclaration fuel first attrs) fun n t => Lie cs r [n] t := by
  refine goes_advance.bind fun _ t hst htok => (goes_nextIs _).test_bind fun _ => ?_
  refine .branch (nests_identifier.some t) (nests_none t) fun name u _ hname => ?_
  refine (goes_expect _ _).bind fun opening v _ hopening => ?_
  refine (nests_commaList fuel _ (nests_enumMember fuel) v).bind fun ns w _ hns => ?_
  refine (goes_expect _ _).bind fun _ x hwx _ => ?_
  refine Goes.bind (hopening.finish rfl (hns.later hwx) (by simp [Fields.lookup_cons]))
    fun body y _ hbody => ?_
  have hall := hname.append hbody
  refine Goes.bind (goes_finish_token rfl hfirst ((htok.passed.later hall.le).earlier hattrs.le)
    (by simp [Fields.lookup_cons]) ((hattrs.later hst).append hall)) fun n z _ hn => ?_
  exact (goes_skip _).bind fun _ z' hzz' _ => .pure (hn.later hzz')

theorem goes_typedefDeclaration (fuel : Nat) :
    Goes cs s (typedefDeclaration fuel first attrs) fun n t => Lie cs r [n] t := by
  refine goes_advance.bind fun _ t hst htok => (nests_identifier t).bind fun name u _ hname => ?_
  refine (nests_returnType (nests_types fuel) u).bind fun o v _ ho => ?_
  cases o with
  | none => exact .current_bind fun _ _ _ => goes_complain _ _
  | some ts =>
    refine (goes_expect _ _).bind fun _ w hvw _ => ?_
    have hall := (hname.append ho).later hvw
    exact goes_finish_token rfl hfirst ((htok.passed.later hall.le).earlier hattrs.le)
      (by simp [Fields.lookup_cons]) ((hattrs.later hst).append hall)

end Attributed

theorem nests_classElementOf {item : Parse Node} (hitem : Nests cs item) :
    Nests cs (classElementOf item) := by
  intro s
  refine (hitem s).bind fun n t _ hn => .pure ?_
  obtain ⟨hstart, hstop, -⟩ := hn.apart
  have hcoherent := (hn.placed n List.mem_cons_self).coherent
  have hplaced : (spanning "ClassElement" n.span n.span [("item", .node n)]).Placed cs :=
    placed_spanning rfl rfl hcoherent hcoherent hcoherent.order hn.placed ⟨le_rfl, le_rfl, trivial⟩
  exact ⟨hn.le, by simpa using hplaced, hstart, hstop, trivial⟩

theorem nests_declarations (fuel : Nat) :
    (∀ allowModule, Nests cs (declaration allowModule fuel)) ∧ Nests cs (topLevel fuel) := by
  induction fuel with
  | zero =>
    constructor
    · intro allowModule s
      rw [declaration]
      exact goes_throw _
    · intro s
      rw [topLevel]
      exact goes_throw _
  | succ fuel ih =>
    constructor
    · intro allowModule s
      rw [declaration]
      refine (goes_attributeList _).bind fun attrs t _ hattrs => ?_
      refine .current_bind fun tok _ htok => ?_
      -- the declaration starts with its attributes if it has some
      have hstart : ∃ r, s ≤ r ∧ ((attrs.map Node.span).getD tok.span).Begins cs r ∧
          Lie cs r attrs.toList t := by
        cases attrs with
        | none => exact ⟨t, hattrs.1.le, htok, .nil le_rfl⟩
        | some n => exact ⟨s, le_rfl, hattrs.2 n rfl, hattrs.1⟩
      obtain ⟨r, hsr, hfirst, hlie⟩ := hstart
      extract_lets first
      refine Goes.weaken ?_ fun n u _ (hn : Lie cs r [n] u) => hn.earlier hsr
      split
      · exact goes_classDeclaration hfirst hlie (nests_classElementOf (ih.1 false)) _
      · exact goes_functionDeclaration hfirst hlie _
      · exact goes_variablesStatement hfirst hlie _
      · exact goes_variablesStatement hfirst hlie _
      · exact goes_enumDeclaration hfirst hlie _
      · exact goes_typedefDeclaration hfirst hlie _
      · exact .ite (goes_moduleDeclaration hfirst hlie ih.2 _) (goes_complain _ _)
    · intro s
      rw [topLevel]
      refine .current_bind fun tok _ _ => ?_
      split
      · exact nests_usingDeclaration _ s
      · exact nests_importDeclaration _ s
      · exact ih.1 true s

/-! ## Whole sources -/

/-- The root covers the whole text. -/
theorem goes_programOf {body : List Node} (hbody : Lie cs r body s) :
    Goes cs s (programOf body) fun n _ => n.Placed cs := by
  refine .get_bind fun p hp => .pure ?_
  obtain ⟨hplaced, hbegins⟩ := hp.head
  have hsize : p.source.length = cs.length := by rw [← hp.source, String.length_toList]
  have hstop := hplaced.coherent.within
  have horder := hplaced.coherent.order
  have hmax : max (p.source.length : Int) p.head.span.stop = cs.length := by omega
  have hedge : s.edge ≤ cs.length := by
    have := s.order
    have := hbegins.start
    omega
  have hapart : Apart 0 body cs.length := by
    have hall := hbody.apart.mono le_rfl hedge
    cases body with
    | nil => trivial
    | cons n ns => exact ⟨(hbody.placed n List.mem_cons_self).coherent.nonneg, hall.2⟩
  have hchildren : (Node.mk "Program" ⟨0, max p.source.length p.head.span.stop, 1, 1,
      (p.source.splitOn "\n").length, ((p.source.splitOn "\n").getLastD "").length + 1⟩
        [("body", nodes body)]).children = body := by
    rw [children_of_known rfl]
    simp
  have hend : (⟨(p.source.splitOn "\n").length, ((p.source.splitOn "\n").getLastD "").length + 1,
      cs.length⟩ : Place) = .ofOffset cs cs.length := by
    rw [← hsize, ← hp.source]
    exact Place.ofOffset_length p.source
  rw [hmax] at hchildren ⊢
  refine .intro _ ⟨le_rfl, by simp, le_rfl, rfl, ?_⟩ ?_ ?_
  · rw [Int.toNat_natCast]
    exact hend
  · rwa [hchildren]
  · rw [hchildren]
    exact hbody.placed

theorem goes_fueled {production : Nat → Parse Node} {post : Node → Spot → Prop}
    (h : ∀ fuel, Goes cs s (production fuel) post) : Goes cs s (fueled production) post :=
  .get_bind fun _ _ => h _

theorem goes_startRule (o : Options) : Goes cs s (startRule o) fun n _ => n.Placed cs := by
  unfold startRule
  split
  · refine goes_fueled fun fuel => ?_
    exact (nests_many fuel (fun _ => goes_nextIs _) (nests_declarations _).2 s).bind
      fun ns t _ hns => goes_programOf hns
  · refine goes_fueled fun fuel => (nests_expression fuel s).bind fun n t _ hn => ?_
    exact (goes_expect _ _).bind fun _ _ _ _ => .pure (hn.placed n List.mem_cons_self)
  · refine goes_fueled fun fuel => .ite ?_ (.ite ?_ (goes_throw _))
    · exact (nests_many fuel (fun _ => goes_nextIs _)
        (nests_classElementOf ((nests_declarations _).1 false)) s).bind
          fun ns t _ hns => goes_programOf hns
    · exact (nests_many fuel (fun _ => goes_nextIs _) (nests_statement fuel) s).bind
        fun ns t _ hns => goes_programOf hns

end Productions

end Parse

/-! ## From the text to the tree -/

/-- The place behind the first character of a token is the next one on its line, unless the
character is a line feed. -/
theorem Span.Coherent.next {cs : List Char} {span : Span} (h : span.Coherent cs) {c : Char}
    {more : List Char} (htext : span.textIn cs = c :: more) (hc : c ≠ '\n') :
    span.start + 1 ≤ span.stop ∧
      (⟨span.line, span.col + 1, span.start + 1⟩ : Place) =
        .ofOffset cs (span.start + 1).toNat := by
  obtain ⟨n, hn⟩ := Int.eq_ofNat_of_zero_le h.nonneg
  have hwithin := h.within
  have horder := h.order
  have hfirst := h.first
  have hlength := congrArg List.length htext
  rw [Span.textIn, List.length_take, List.length_cons] at hlength
  -- the character stands right behind the first `n` ones
  have hsplit : cs.drop n = c :: (cs.drop n).tail := by
    rw [Span.textIn, hn, Int.toNat_natCast] at htext
    cases hdrop : cs.drop n with
    | nil => simp [hdrop] at htext
    | cons d ds =>
      rw [hdrop, List.take_cons (by omega)] at htext
      rw [(List.cons.inj htext).1]
      rfl
  have hplace := Place.ofOffset_succ (cs.take n) (cs.drop n).tail c
  rw [← hsplit, List.take_append_drop, List.length_take_of_le (by omega)] at hplace
  refine ⟨by omega, ?_⟩
  rw [hn, Int.toNat_natCast] at hfirst
  rw [hn, show ((n : Int) + 1).toNat = n + 1 from rfl, hplace, ← hfirst, Place.next, if_neg hc,
    Span.first, hn]

/-- The tokens of a source are where the parser needs them. -/
theorem tokenize_placed {source : String} {origin : Option String} {tokens : List Token}
    {comments : List Comment} (h : tokenize source origin = .ok (tokens, comments)) :
    (∀ t ∈ tokens, t.Placed source.toList) ∧
      (tokens.Pairwise fun t u => t.span.stop ≤ u.span.start) ∧
        ∃ front last, tokens = front ++ [last] ∧ last.kind = .endOfInput := by
  obtain ⟨lx, hlexes, rfl⟩ := tokenize_eq_ok.1 h
  obtain ⟨tiles, htiles⟩ := Lexer.tiling_tokensWith hlexes
  have hgood := (tokenize_good h).1
  obtain ⟨last, rfl, hkind, hstart, hstop, hlast⟩ := htiles.tokens
  have hmem (t : Token) (ht : t ∈ tiles.filterMap Tile.token?) : Tile.token t ∈ tiles := by
    obtain ⟨tile, htile, heq⟩ := List.mem_filterMap.1 ht
    cases tile with
    | token u =>
      cases heq
      exact htile
    | comment c => cases heq
  refine ⟨fun t ht => ?_, ?_, _, last, rfl, hkind⟩
  · rcases List.mem_append.1 ht with ht' | ht'
    · have hcoherent := htiles.coherent _ (hmem t ht')
      have htext (hangle : t.kind = .shiftRight) :
          t.span.textIn source.toList = '>' :: ['>'] := by
        have htile : t.text.toList = t.span.textIn source.toList := htiles.texts _ (hmem t ht')
        rw [← htile, (hgood t ht).double hangle]
        rfl
      have hnext (hangle : t.kind = .shiftRight) := hcoherent.next (htext hangle) (by decide)
      exact ⟨hcoherent, fun hangle => (hnext hangle).1, fun hangle => (hnext hangle).2,
        fun hend => absurd hend (htiles.kinds t ht')⟩
    · rw [List.mem_singleton.1 ht']
      refine ⟨hlast, fun hangle => ?_, fun hangle => ?_, fun _ => by omega⟩
      · rw [hkind] at hangle
        cases hangle
      · rw [hkind] at hangle
        cases hangle
  · refine List.pairwise_append.2 ⟨?_, List.pairwise_singleton _ _, fun t ht u hu => ?_⟩
    · refine htiles.ordered.filterMap _ fun a b hab t ht u hu => ?_
      cases a <;> cases ht
      cases b <;> cases hu
      exact hab
    · rw [List.mem_singleton.1 hu, hstart, ← String.length_toList]
      exact (htiles.coherent _ (hmem t ht)).within

/-- A parsed tree stands in its source. -/
theorem placed_of_parse {source : String} {o : Options} {root : Node} {comments : List Comment}
    (h : parse source o = .ok (root, comments)) : root.Placed source.toList := by
  obtain ⟨tokens, q, htokens, hroot⟩ := parse_eq_ok h
  obtain ⟨hplaced, hordered, front, last, hends, hlast⟩ := tokenize_placed htokens
  have hhead : (Parser.start tokens source o.origin).head ∈ tokens := by
    rw [Parser.head, Parser.start, hends]
    cases front <;> simp
  have hnonneg := (hplaced _ hhead).coherent.nonneg
  have hstart : (Parser.start tokens source o.origin).At source.toList
      ⟨-1, (Parser.start tokens source o.origin).head.span.start, by omega⟩ :=
    ⟨hplaced, hordered, ⟨front, last, hends, hlast⟩, by simp [Parser.start], rfl, rfl, rfl⟩
  obtain ⟨_, _, _, hn⟩ := Parse.goes_startRule o _ hstart _ _ hroot
  exact hn

/-- A parsed tree passes the check of the spans, and every node met on the walk has the lines and
columns of its offsets. -/
theorem parse_placed {source : String} {o : Options} {root : Node} {comments : List Comment}
    (h : parse source o = .ok (root, comments)) :
    root.checkSpans = .ok () ∧ ∀ n ∈ root.walk, n.span.Coherent source.toList :=
  ⟨(placed_of_parse h).checkSpans, fun m hm => ((placed_of_parse h).walk m hm).coherent⟩

/-- Nested generic types, whose closing angles the lexer reads as one token. -/
theorem parse_placed_generics :
    ∃ root comments, parse "a as\nb<c<d>>" { rule := .expression } = .ok (root, comments) ∧
      root.checkSpans = .ok () ∧
        ∀ n ∈ root.walk, n.span.Coherent "a as\nb<c<d>>".toList := by
  have hparses : (parse "a as\nb<c<d>>" { rule := .expression }).toBool = true := by
    decide +kernel
  cases h : parse "a as\nb<c<d>>" { rule := .expression } with
  | error fault =>
    rw [h] at hparses
    cases hparses
  | ok parsed =>
    obtain ⟨root, comments⟩ := parsed
    exact ⟨root, comments, rfl, parse_placed h⟩

end MonkeyFormat
