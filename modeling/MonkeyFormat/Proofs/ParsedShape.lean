import MonkeyFormat.Grammar.Program
import MonkeyFormat.Proofs.Effects
import MonkeyFormat.Proofs.Shape

set_option autoImplicit false

/-! # The shapes of parsed trees

Every production gives a node with the fields of its kind, whose edges are edges of tokens. What is
shown of a production is what it gives when it succeeds, from any state whose tokens are good. -/

namespace MonkeyFormat

/-- What the shape of a tree takes from a token: its edges may be those of nodes, and its text does
not start like a comment. -/
structure Token.Good (edge : Int → Prop) (t : Token) : Prop where
  start : edge t.span.start
  stop : edge t.span.stop
  /-- Two closing angles may be taken one by one. -/
  middle : t.kind = .shiftRight → edge (t.span.start + 1)
  double : t.kind = .shiftRight → t.text = ">>"
  text : Text.opensComment t.text = false
  solid : t.kind ∈ [TokenKind.number, .float, .literal, .access] → '/' ∉ t.text.toList
  nonempty : t.kind ∈ [TokenKind.number, .float, .string, .char, .literal] → t.text ≠ ""

theorem Token.good_default {edge : Int → Prop} (h : edge 0) : (default : Token).Good edge where
  start := h
  stop := h
  middle := fun hkind => absurd hkind (by decide)
  double := fun hkind => absurd hkind (by decide)
  text := rfl
  solid := fun hkind => absurd hkind (by decide)
  nonempty := fun hkind => absurd hkind (by decide)

theorem Token.Good.bounded {edge : Int → Prop} {t : Token} (h : t.Good edge) :
    t.span.Bounded edge := ⟨h.start, h.stop⟩

theorem Token.good_angle {edge : Int → Prop} {span : Span} (h : span.Bounded edge) :
    Token.Good edge ⟨.greater, ">", span⟩ where
  start := h.1
  stop := h.2
  middle := nofun
  double := nofun
  text := show Text.opensComment ">" = false by decide
  solid := fun _ => show '/' ∉ ">".toList by decide
  nonempty := fun _ => show ">" ≠ "" by decide

/-- The tokens of a state are good, and so are the edges of the whole source. -/
structure Parser.Good (edge : Int → Prop) (p : Parser) : Prop where
  rest : ∀ t ∈ p.rest, t.Good edge
  last : ∀ t ∈ p.last, t.Good edge
  first : edge 0
  whole : edge p.source.length

theorem Parser.Good.head {edge : Int → Prop} {p : Parser} (h : p.Good edge) :
    p.head.Good edge := by
  unfold Parser.head
  cases hrest : p.rest with
  | nil => exact Token.good_default h.first
  | cons t ts => exact h.rest t (by simp [hrest])

namespace Parse

/-- From good states the production ends in good ones, with results that `post` holds of. -/
def Yields {α : Type} (edge : Int → Prop) (m : Parse α) (post : α → Prop) : Prop :=
  ∀ p : Parser, p.Good edge → ∀ a q, m.run.run p = (.ok a, q) → q.Good edge ∧ post a

section Rules

variable {edge : Int → Prop} {α β : Type} {m m' : Parse α} {f : α → Parse β} {post : α → Prop}
  {goal : β → Prop}

theorem Yields.bind (hm : Yields edge m post) (hf : ∀ a, post a → Yields edge (f a) goal) :
    Yields edge (m >>= f) goal := by
  intro p hp b q hrun
  obtain ⟨a, r, ha, hb⟩ := run_bind_eq_ok hrun
  obtain ⟨hr, hpost⟩ := hm p hp a r ha
  exact hf a hpost r hr b q hb

theorem Yields.pure {a : α} (h : post a) : Yields edge (Pure.pure a) post := by
  intro p hp b q hrun
  cases hrun
  exact ⟨hp, h⟩

theorem Yields.map {f : α → β} (hm : Yields edge m post) (hf : ∀ a, post a → goal (f a)) :
    Yields edge (f <$> m) goal := by
  intro p hp b q hrun
  obtain ⟨a, ha, rfl⟩ := run_map_eq_ok hrun
  obtain ⟨hq, hpost⟩ := hm p hp a q ha
  exact ⟨hq, hf a hpost⟩

theorem Yields.weaken {post' : α → Prop} (hm : Yields edge m post) (h : ∀ a, post a → post' a) :
    Yields edge m post' := by
  intro p hp a q hrun
  obtain ⟨hq, hpost⟩ := hm p hp a q hrun
  exact ⟨hq, h a hpost⟩

theorem Yields.ite {c : Prop} [Decidable c] (hm : Yields edge m post)
    (hm' : Yields edge m' post) : Yields edge (if c then m else m') post := by
  split
  · exact hm
  · exact hm'

/-- Two branches that go on in the same way. -/
theorem Yields.branch {c : Prop} [Decidable c] (hm : Yields edge m post)
    (hm' : Yields edge m' post) (hf : ∀ a, post a → Yields edge (f a) goal) :
    Yields edge (if c then m >>= f else m' >>= f) goal := .ite (hm.bind hf) (hm'.bind hf)

theorem yields_throw (e : Fault) : Yields edge (throw e : Parse α) post := by
  intro p _ a q hrun
  cases hrun

theorem yields_get : Yields edge (get : Parse Parser) (Parser.Good edge) := by
  intro p hp a q hrun
  cases hrun
  exact ⟨hp, hp⟩

theorem yields_complain (c : Complaint) (t : Token) :
    Yields edge (complain c t : Parse α) post := yields_get.bind fun _ _ => yields_throw _

theorem yields_current : Yields edge current (Token.Good edge) :=
  yields_get.bind fun _ hp => .pure hp.head

theorem yields_second : Yields edge second fun _ => True := by
  refine yields_get.bind fun p _ => ?_
  split <;> exact .pure trivial

/-- Consuming a token gives the one that comes next. -/
theorem run_advance {p : Parser} (hp : p.Good edge) :
    ∃ q : Parser, advance.run.run p = (.ok p.head, q) ∧ q.Good edge := by
  unfold advance
  rw [run_bind_ok _ (show (get : Parse Parser).run.run p = (.ok p, p) from rfl)]
  have hhead := hp.head
  unfold Parser.head at hhead ⊢
  cases hrest : p.rest with
  | nil => exact ⟨p, rfl, hp⟩
  | cons t ts =>
    rw [hrest] at hhead
    have hlast : ∀ u ∈ some t, u.Good edge := by
      rintro u ⟨⟩
      exact hhead
    by_cases hkind : t.kind = .endOfInput
    · simp only [hkind]
      refine ⟨_, rfl, fun u hu => hp.rest u ?_, hlast, hp.first, hp.whole⟩
      rwa [hrest]
    · simp only [hkind]
      refine ⟨_, rfl, fun u hu => hp.rest u ?_, hlast, hp.first, hp.whole⟩
      rw [hrest]
      exact List.mem_cons_of_mem _ hu

theorem yields_advance : Yields edge advance (Token.Good edge) := by
  intro p hp a q hrun
  obtain ⟨r, hr, hgood⟩ := run_advance hp
  rw [hr] at hrun
  cases hrun
  exact ⟨hgood, hp.head⟩

theorem yields_nextIs (kind : TokenKind) : Yields edge (nextIs kind) fun _ => True :=
  yields_current.bind fun _ _ => .pure trivial

theorem yields_atAny (kinds : List TokenKind) : Yields edge (atAny kinds) fun _ => True :=
  yields_current.bind fun _ _ => .pure trivial

theorem yields_atText (kind : TokenKind) (text : String) :
    Yields edge (atText kind text) fun _ => True :=
  yields_current.bind fun _ _ => .pure trivial

theorem yields_accept (kind : TokenKind) :
    Yields edge (accept kind) fun o => ∀ t ∈ o, t.Good edge ∧ t.kind = kind := by
  intro p hp a q hrun
  unfold accept nextIs at hrun
  simp only [bind_assoc, pure_bind] at hrun
  rw [run_bind_ok _ (show current.run.run p = (.ok p.head, p) from rfl)] at hrun
  split at hrun
  · next hkind =>
    obtain ⟨r, hr, hgood⟩ := run_advance hp
    rw [run_map_ok some hr] at hrun
    cases hrun
    refine ⟨hgood, ?_⟩
    rintro t ⟨⟩
    exact ⟨hp.head, of_decide_eq_true hkind⟩
  · cases hrun
    exact ⟨hp, by simp⟩

theorem yields_skip (kind : TokenKind) : Yields edge (skip kind) fun _ => True :=
  (yields_accept kind).bind fun _ _ => .pure trivial

theorem yields_expect (kind : TokenKind) (what : String) :
    Yields edge (expect kind what) (Token.Good edge) :=
  yields_current.bind fun _ _ => .ite yields_advance (yields_complain _ _)

/-! ## Nodes -/

/-- A node that ends where the token consumed last ends. -/
theorem yields_node {kind : String} {first : Span} {fields : Fields} {post : Node → Prop}
    (hfirst : first.Bounded edge)
    (h : ∀ span, Span.Bounded edge span → post ⟨kind, span, fields⟩) :
    Yields edge (finish kind first fields) post := by
  refine yields_get.bind fun p hp => .pure (h _ ⟨hfirst.1, ?_⟩)
  cases hlast : p.last with
  | none => exact hfirst.2
  | some t => exact (hp.last t hlast).stop

theorem yields_finish {kind : String} {first : Span} {fields : Fields}
    {types : List (String × FieldType)} (known : fieldTypes? kind = some types)
    (hfirst : first.Bounded edge) (fits : Fields.Fit (fun m => m.span.Bounded edge) fields types)
    (number : ((fields.lookup "value").getD .null).isNumber = false) :
    Yields edge (finish kind first fields) (Node.Edged edge) :=
  yields_node hfirst fun _ hspan => .of_fit known hspan fits number

theorem fits_optional {n : Option Node} (h : ∀ m ∈ n, m.Edged edge) :
    Value.Suits edge .optional (optional n) := by
  cases n with
  | none => exact .none
  | some n => exact .some (h n rfl)

theorem fits_nodes {ns : List Node} (h : ∀ n ∈ ns, n.Edged edge) :
    Value.Suits edge .nodes (nodes ns) := .nodes h

/-- A production that is tried only under a condition. -/
theorem Yields.some {m : Parse Node} (hm : Yields edge m (Node.Edged edge)) :
    Yields edge (Option.some <$> m) fun o => ∀ n ∈ o, n.Edged edge := by
  refine hm.map fun n hn => ?_
  rintro _ ⟨⟩
  exact hn

theorem Yields.none : Yields edge (Pure.pure Option.none : Parse (Option Node)) fun o => ∀ n ∈ o,
    n.Edged edge := .pure (by simp)

/-! ## Repetition -/

theorem yields_loop {σ : Type} {step : σ → Parse (σ × Bool)} (inv : σ → Prop)
    (hstep : ∀ s, inv s → Yields edge (step s) fun r => inv r.1) (fuel : Nat) :
    ∀ s, inv s → Yields edge (loop step fuel s) inv := by
  induction fuel with
  | zero => exact fun s _ => yields_throw _
  | succ fuel ih =>
    intro s hs
    refine (hstep s hs).bind ?_
    rintro ⟨s', more⟩ hs'
    exact .ite (ih s' hs') (.pure hs')

/-- Nodes that are collected, last one first. -/
abbrev AllShaped (edge : Int → Prop) (ns : List Node) : Prop := ∀ n ∈ ns, n.Edged edge

theorem AllShaped.nil : AllShaped edge [] := by simp [AllShaped]

theorem AllShaped.cons {n : Node} {ns : List Node} (hn : n.Edged edge) (h : AllShaped edge ns) :
    AllShaped edge (n :: ns) := by
  intro m hm
  rcases List.mem_cons.1 hm with rfl | hm
  · exact hn
  · exact h m hm

theorem AllShaped.reverse {ns : List Node} (h : AllShaped edge ns) :
    AllShaped edge ns.reverse := fun n hn => h n (List.mem_reverse.1 hn)

theorem yields_many {stop : Parse Bool} {item : Parse Node} (fuel : Nat)
    (hstop : Yields edge stop fun _ => True) (hitem : Yields edge item (Node.Edged edge)) :
    Yields edge (many fuel stop item) (AllShaped edge) := by
  refine (yields_loop (AllShaped edge) (fun acc hacc => ?_) fuel [] .nil).bind
    fun ns hns => .pure hns.reverse
  refine hstop.bind fun _ _ => .ite (.pure hacc) ?_
  exact hitem.bind fun n hn => .pure (hacc.cons hn)

theorem yields_commaList {item : Parse Node} (fuel : Nat) (close : TokenKind)
    (hitem : Yields edge item (Node.Edged edge)) :
    Yields edge (commaList fuel close item) (AllShaped edge) := by
  refine (yields_loop (AllShaped edge) (fun acc hacc => ?_) fuel [] .nil).bind
    fun ns hns => .pure hns.reverse
  refine (yields_nextIs close).bind fun _ _ => .ite (.pure hacc) ?_
  refine hitem.bind fun n hn => (yields_skip .comma).bind fun _ _ => .pure (hacc.cons hn)

theorem yields_bodyUntilBrace {item : Parse Node} (fuel : Nat)
    (hitem : Yields edge item (Node.Edged edge)) :
    Yields edge (bodyUntilBrace fuel item) (AllShaped edge) := by
  refine (yields_many fuel (yields_nextIs _) ?_).bind fun ns hns =>
    yields_advance.bind fun _ _ => .pure hns
  exact yields_current.bind fun _ _ => .ite (yields_complain _ _) hitem

end Rules

section Productions

variable {edge : Int → Prop}

/-! ## Names and types -/

theorem yields_identifier : Yields edge identifier (Node.Edged edge) :=
  (yields_expect _ _).bind fun _ ht =>
    yields_finish rfl ht.bounded ⟨.text ht.text, .absent, trivial⟩ rfl

theorem yields_member {object property : Node} (hobject : object.Edged edge)
    (hproperty : property.Edged edge) :
    Yields edge (member object property) (Node.Edged edge) :=
  yields_finish rfl hobject.here ⟨.node hobject, .node hproperty, trivial⟩ rfl

theorem yields_scopedName (fuel : Nat) : Yields edge (scopedName fuel) (Node.Edged edge) := by
  refine yields_identifier.bind (yields_loop _ (fun name hname => ?_) fuel)
  refine (yields_skip _).bind fun _ _ => .ite ?_ (.pure hname)
  refine yields_identifier.bind fun property hproperty => ?_
  exact (yields_member hname hproperty).bind fun _ hn => .pure hn

theorem yields_closeAngle : Yields edge closeAngle fun _ => True := by
  intro p hp a q hrun
  unfold closeAngle at hrun
  rw [run_bind_ok _ (show current.run.run p = (.ok p.head, p) from rfl)] at hrun
  split at hrun
  · have hadvance : Yields edge (advance >>= fun _ => Pure.pure ()) fun _ => True :=
      yields_advance.bind fun _ _ => .pure trivial
    exact hadvance p hp a q hrun
  · next hkind =>
    cases hrun
    have hmiddle := hp.head.middle hkind
    refine ⟨⟨fun t ht => ?_, ?_, hp.first, hp.whole⟩, trivial⟩
    · rcases List.mem_cons.1 ht with rfl | ht
      · exact Token.good_angle ⟨hmiddle, hp.head.stop⟩
      · exact hp.rest t (List.mem_of_mem_drop ht)
    · rintro t ⟨⟩
      exact Token.good_angle ⟨hp.head.start, hmiddle⟩
  · have hcomplain : Yields edge (complain .unclosedGenerics p.head : Parse Unit) fun _ => True :=
      yields_complain _ _
    exact hcomplain p hp a q hrun

/-- Type specifications: lists of alternatives. -/
def ShapedTypes (edge : Int → Prop) (n : Node) : Prop := n.Edged edge ∧ n.kind = "TypeSpecList"

/-- Alternatives of types. -/
def ShapedPart (edge : Int → Prop) (n : Node) : Prop := n.Edged edge ∧ n.kind = "TypeSpecPart"

theorem yields_generics {types : Parse Node} (fuel : Nat)
    (htypes : Yields edge types (ShapedTypes edge)) :
    Yields edge (generics fuel types) fun o => ∀ ns ∈ o, ∀ n ∈ ns, ShapedTypes edge n := by
  refine (yields_skip _).bind fun _ _ => .ite ?_ (.pure (by simp))
  refine htypes.bind fun first hfirst => ?_
  refine (yields_loop (fun ns => ∀ n ∈ ns, ShapedTypes edge n) (fun acc hacc => ?_) fuel [first]
    (by simpa using hfirst)).bind fun ns hns => yields_closeAngle.bind fun _ _ => .pure ?_
  · refine (yields_skip _).bind fun _ _ => .ite ?_ (.pure hacc)
    refine htypes.bind fun n hn => .pure ?_
    simpa using And.intro hn hacc
  · simpa using hns

theorem fits_generics {o : Option (List Node)} (h : ∀ ns ∈ o, ∀ n ∈ ns, ShapedTypes edge n) :
    Value.Suits edge .types (genericsField o) := by
  cases o with
  | none => exact .noTypes
  | some ns => exact .types (fun n hn => (h ns rfl n hn).1) fun n hn => (h ns rfl n hn).2

section Nested

variable {types : Parse Node} (htypes : Yields edge types (ShapedTypes edge))
include htypes

theorem yields_typedIdentifier : Yields edge (typedIdentifier types) (Node.Edged edge) := by
  refine yields_identifier.bind fun name hname => ?_
  refine (yields_skip _).bind fun _ _ => .ite ?_ (.pure hname)
  exact htypes.bind fun ts hts => yields_finish rfl hname.here
    ⟨.text rfl, .node hname, .node hts.1, trivial⟩ rfl

theorem yields_params (fuel : Nat) : Yields edge (params fuel types) (AllShaped edge) := by
  refine (yields_expect _ _).bind fun _ _ => ?_
  refine (yields_commaList fuel _ (yields_typedIdentifier htypes)).bind fun ns hns => ?_
  exact (yields_expect _ _).bind fun _ _ => .pure hns

theorem yields_returnType :
    Yields edge (returnType types) fun o => ∀ n ∈ o, n.Edged edge := by
  refine (yields_accept _).bind fun o ho => ?_
  cases o with
  | none => exact .none
  | some t =>
    refine htypes.bind fun ts hts => ?_
    refine Yields.bind (yields_finish rfl (ho t rfl).1.bounded ⟨.text rfl, .node hts.1, trivial⟩
      rfl) fun n hn => .pure ?_
    rintro _ ⟨⟩
    exact hn

theorem yields_callableType (fuel : Nat) :
    Yields edge (callableType fuel types) (ShapedPart edge) := by
  refine yields_advance.bind fun first hfirst => ?_
  refine yields_identifier.bind fun name hname => ?_
  refine yields_current.bind fun callFirst hcallFirst => ?_
  refine (yields_params htypes fuel).bind fun ps hps => ?_
  refine (yields_returnType htypes).bind fun result hresult => ?_
  refine Yields.bind (yields_finish rfl hcallFirst.bounded
    ⟨.text rfl, fits_nodes hps, fits_optional hresult, trivial⟩ rfl) fun call hcall => ?_
  refine (yields_expect _ _).bind fun _ _ => yields_node hfirst.bounded fun span hspan => ⟨?_, rfl⟩
  exact .of_fit rfl hspan ⟨.node hname, .noTypes, .some hcall, trivial⟩ rfl

theorem yields_singleType (fuel : Nat) :
    Yields edge (singleType fuel types) (Node.Edged edge) := by
  refine yields_current.bind fun first hfirst => ?_
  refine yields_second.bind fun _ _ => ?_
  extract_lets nullable
  have hnullable :
      ∀ part, ShapedPart edge part → Yields edge (nullable part) (Node.Edged edge) := by
    intro part hpart
    refine (yields_nextIs _).bind fun _ _ => yields_second.bind fun _ _ => .ite ?_ (.pure hpart.1)
    refine yields_advance.bind fun _ _ => yields_node hfirst.bounded fun span hspan => ?_
    have hset := hpart.1.set (by rw [hpart.2]; rfl) "nullable" (v := .bool true) (by simp)
      (by decide) hpart.1.here
    have hspanned := hset.respan hspan
    rw [Node.set, hpart.2] at hspanned
    exact hspanned
  refine .ite ((yields_callableType htypes fuel).bind hnullable) (.ite ?_ ?_)
  · exact (yields_complain _ _).bind hnullable
  · refine (yields_scopedName fuel).bind fun name hname => ?_
    refine (yields_generics fuel htypes).bind fun gs hgs => ?_
    refine Yields.bind (yields_node hfirst.bounded fun span hspan => ⟨?_, rfl⟩) hnullable
    exact .of_fit rfl hspan ⟨.node hname, fits_generics hgs, .none, trivial⟩ rfl

theorem yields_typeList (fuel : Nat) : Yields edge (typeList fuel types) (ShapedTypes edge) := by
  refine yields_current.bind fun first hfirst => ?_
  refine (yields_singleType htypes fuel).bind fun part hpart => ?_
  refine (yields_loop (AllShaped edge) (fun acc hacc => ?_) fuel [part] (.cons hpart .nil)).bind
    fun parts hparts => ?_
  · refine (yields_atText _ _).bind fun _ _ => .ite ?_ (.pure hacc)
    refine yields_advance.bind fun _ _ => ?_
    exact (yields_singleType htypes fuel).bind fun n hn => .pure (hacc.cons hn)
  · refine yields_node hfirst.bounded fun span hspan => ⟨?_, rfl⟩
    exact .of_fit rfl hspan ⟨fits_nodes hparts.reverse, trivial⟩ rfl

end Nested

theorem yields_types (fuel : Nat) : Yields edge (types fuel) (ShapedTypes edge) := by
  induction fuel with
  | zero => exact yields_throw _
  | succ fuel ih => exact yields_typeList ih (fuel + 1)

/-! ## Expressions -/

theorem yields_byteSuffix :
    Yields edge byteSuffix fun o => ∀ s ∈ o, Text.opensComment s = false := by
  refine yields_current.bind fun t _ => yields_get.bind fun p _ => ?_
  split
  · refine .ite (yields_advance.bind fun _ _ => .pure ?_) (.pure (by simp))
    rintro _ ⟨⟩
    decide
  · exact .pure (by simp)

theorem fits_byte {o : Option String} (h : ∀ s ∈ o, Text.opensComment s = false) :
    Value.Suits edge .suffix (byteField o) := by
  cases o with
  | none => exact .noSuffix
  | some s => exact .suffix (h s rfl)

/-- A literal holds a number only if its text is that of one. -/
theorem not_mem_of_isNumber {t : Token} (ht : t.Good edge) {v : Value}
    (h : Literal.value t.kind t.text = .ok v) (hv : v.isNumber = true) :
    '/' ∉ t.text.toList := by
  unfold Literal.value at h
  split at h
  · next hkind => exact ht.solid (by simp [hkind])
  · next hkind => exact ht.solid (by simp [hkind])
  · cases h
    cases hv
  · cases h
    cases hv
  · split at h
    · cases h
      cases hv
    · cases h
      cases hv
    · cases h
      cases hv
    · next htext =>
      rw [htext]
      decide
    · cases h

theorem yields_literal {t : Token} (ht : t.Good edge)
    (hkind : t.kind ∈ [TokenKind.number, .float, .string, .char, .literal]) :
    Yields edge (do
      let v ← Literal.value t.kind t.text
      finish "Literal" t.span [("value", v), ("raw", .str t.text)]) (Node.Edged edge) := by
  have hvalue : Yields edge (Literal.value t.kind t.text : Parse Value)
      fun v => Literal.value t.kind t.text = .ok v := by
    intro p hp v q hrun
    cases h : Literal.value t.kind t.text with
    | error e =>
      rw [h] at hrun
      cases hrun
    | ok v =>
      rw [h] at hrun
      cases hrun
      exact ⟨hp, rfl⟩
  refine hvalue.bind fun v hv => yields_node ht.bounded fun span hspan => ?_
  refine .intro _ _ rfl hspan (by simpa using .raw ht.text (ht.nonempty hkind)) fun hnumber => ?_
  exact ⟨t.text, rfl, not_mem_of_isNumber ht hv hnumber⟩

theorem yields_prefixed {op : Token} (hop : op.Good edge) {n : Node} (hn : n.Edged edge) :
    Yields edge (prefixed op n) (Node.Edged edge) := by
  unfold prefixed
  split <;> exact yields_finish rfl hop.bounded ⟨.text hop.text, .node hn, trivial⟩ rfl

theorem yields_binaryOperator :
    Yields edge binaryOperator fun o => ∀ s ∈ o, Text.opensComment s = false := by
  refine yields_current.bind fun t ht => .pure ?_
  split
  · rintro _ ⟨⟩
    exact ht.text
  · simp

theorem yields_logical {operand : Parse Node} (hoperand : Yields edge operand (Node.Edged edge))
    (fuel : Nat) (kind : TokenKind) :
    Yields edge (logical fuel kind operand) (Node.Edged edge) := by
  refine hoperand.bind (yields_loop _ (fun left hleft => ?_) fuel)
  refine (yields_accept kind).bind fun o ho => ?_
  cases o with
  | none => exact .pure hleft
  | some op =>
    refine hoperand.bind fun right hright => ?_
    exact Yields.bind (yields_finish rfl hleft.here
      ⟨.text (ho op rfl).1.text, .node hleft, .node hright, trivial⟩ rfl) fun n hn => .pure hn

section Nested

variable {expr : Parse Node} (hexpr : Yields edge expr (Node.Edged edge))
include hexpr

theorem yields_arguments (fuel : Nat) : Yields edge (arguments fuel expr) (AllShaped edge) := by
  refine (yields_expect _ _).bind fun _ _ => ?_
  refine (yields_commaList fuel _ hexpr).bind fun ns hns => ?_
  exact (yields_expect _ _).bind fun _ _ => .pure hns

theorem yields_array (fuel : Nat) : Yields edge (array fuel expr) (Node.Edged edge) := by
  refine yields_advance.bind fun first hfirst => ?_
  refine (yields_commaList fuel _ hexpr).bind fun ns hns => ?_
  refine (yields_expect _ _).bind fun _ _ => yields_byteSuffix.bind fun byte hbyte => ?_
  exact yields_finish rfl hfirst.bounded ⟨fits_nodes hns, fits_byte hbyte, trivial⟩ rfl

theorem yields_entry : Yields edge (entry expr) (Node.Edged edge) := by
  refine hexpr.bind fun key hkey => (yields_expect _ _).bind fun _ _ => ?_
  refine hexpr.bind fun value hvalue => ?_
  exact yields_finish rfl hkey.here ⟨.node hkey, .node hvalue, trivial⟩ rfl

theorem yields_dictionary (fuel : Nat) :
    Yields edge (dictionary fuel expr) (Node.Edged edge) := by
  refine yields_advance.bind fun first hfirst => ?_
  refine (yields_commaList fuel _ (yields_entry hexpr)).bind fun ns hns => ?_
  refine (yields_expect _ _).bind fun _ _ => ?_
  exact yields_finish rfl hfirst.bounded ⟨fits_nodes hns, trivial⟩ rfl

theorem yields_sizedArray {first : Token} (hfirst : first.Good edge) {ts : Option Node}
    (hts : ∀ n ∈ ts, n.Edged edge) :
    Yields edge (sizedArray expr first ts) (Node.Edged edge) := by
  refine (yields_expect _ _).bind fun _ _ => hexpr.bind fun size hsize => ?_
  refine (yields_expect _ _).bind fun _ _ => yields_byteSuffix.bind fun byte hbyte => ?_
  exact yields_finish rfl hfirst.bounded
    ⟨fits_optional hts, .node hsize, fits_byte hbyte, trivial⟩ rfl

theorem yields_construction (fuel : Nat) :
    Yields edge (construction fuel expr) (Node.Edged edge) := by
  refine yields_advance.bind fun first hfirst => (yields_nextIs _).bind fun _ _ => ?_
  refine .ite (yields_sizedArray hexpr hfirst (by simp)) ?_
  refine yields_current.bind fun typeFirst htypeFirst => ?_
  refine (yields_scopedName fuel).bind fun name hname => ?_
  refine (yields_generics fuel (yields_types fuel)).bind fun gs hgs => ?_
  refine yields_current.bind fun t _ => .ite ?_ ?_
  · extract_lets call
    have hcall : ∀ r, Yields edge (call r) (Node.Edged edge) := by
      intro r
      refine (yields_arguments hexpr fuel).bind fun args hargs => ?_
      exact yields_finish rfl hfirst.bounded ⟨.node hname, fits_nodes hargs, trivial⟩ rfl
    have hfail : Yields edge (complain .genericConstructor t : Parse PUnit) fun _ => True :=
      yields_complain _ _
    exact .ite (hfail.bind fun r _ => hcall r) (hcall ())
  · refine Yields.bind (yields_finish rfl htypeFirst.bounded
      ⟨.node hname, fits_generics hgs, .none, trivial⟩ rfl) fun ts hts => ?_
    exact yields_sizedArray hexpr hfirst (by simpa using hts)

theorem yields_primary (fuel : Nat) : Yields edge (primary fuel expr) (Node.Edged edge) := by
  refine yields_current.bind fun t ht => ?_
  split
  · exact yields_identifier
  · refine yields_advance.bind fun _ _ => ?_
    exact yields_finish rfl ht.bounded ⟨.text ht.text, trivial⟩ rfl
  · refine yields_advance.bind fun _ _ => hexpr.bind fun n hn => ?_
    exact (yields_expect _ _).bind fun _ _ => .pure hn
  · exact yields_array hexpr fuel
  · exact yields_dictionary hexpr fuel
  · refine yields_advance.bind fun _ _ => yields_identifier.bind fun name hname => ?_
    exact yields_finish rfl ht.bounded ⟨.text rfl, .node hname, trivial⟩ rfl
  · exact yields_construction hexpr fuel
  · split
    · next h => exact yields_advance.bind fun _ _ => yields_literal ht (by simpa using h)
    · exact yields_complain _ _

theorem yields_postfixed (fuel : Nat) : Yields edge (postfixed fuel expr) (Node.Edged edge) := by
  refine (yields_primary hexpr fuel).bind (yields_loop _ (fun n hn => ?_) fuel)
  refine yields_current.bind fun t ht => ?_
  split
  · refine yields_advance.bind fun _ _ => yields_identifier.bind fun property hproperty => ?_
    exact (yields_member hn hproperty).bind fun _ hm => .pure hm
  · refine yields_advance.bind fun _ _ => hexpr.bind fun property hproperty => ?_
    refine (yields_expect _ _).bind fun _ _ => ?_
    exact Yields.bind (yields_finish rfl hn.here ⟨.node hn, .node hproperty, trivial⟩ rfl)
      fun _ hm => .pure hm
  · refine (yields_arguments hexpr fuel).bind fun args hargs => ?_
    exact Yields.bind (yields_finish rfl hn.here ⟨.node hn, fits_nodes hargs, trivial⟩ rfl)
      fun _ hm => .pure hm
  · refine yields_advance.bind fun _ _ => ?_
    exact Yields.bind (yields_finish rfl hn.here ⟨.text ht.text, .node hn, trivial⟩ rfl)
      fun _ hm => .pure hm
  · exact .pure hn

theorem yields_unary (fuel : Nat) : Yields edge (unary fuel expr) (Node.Edged edge) := by
  refine (yields_loop (fun ops => ∀ op ∈ ops, op.Good edge) (fun acc hacc => ?_) fuel []
    (by simp)).bind fun ops hops => (yields_postfixed hexpr fuel).bind ?_
  · refine (yields_atAny _).bind fun _ _ => .ite ?_ (.pure hacc)
    refine yields_advance.bind fun op hop => .pure ?_
    simpa using And.intro hop hacc
  · induction ops with
    | nil => exact fun n hn => .pure hn
    | cons op ops ih =>
      intro n hn
      rw [List.foldlM_cons]
      refine (yields_prefixed (hops op List.mem_cons_self) hn).bind ?_
      exact ih fun o ho => hops o (List.mem_cons_of_mem _ ho)

theorem yields_binary (fuel : Nat) (depth : Nat) :
    ∀ rank, Yields edge (binary fuel expr depth rank) (Node.Edged edge) := by
  induction depth with
  | zero => exact fun rank => yields_throw _
  | succ depth ih =>
    intro rank
    refine (yields_unary hexpr fuel).bind (yields_loop _ (fun left hleft => ?_) fuel)
    refine yields_binaryOperator.bind fun op? hop? => ?_
    split
    · exact .pure hleft
    · next op r hop =>
      have htext : Text.opensComment op = false := by
        obtain ⟨o, ho, hr⟩ := Option.bind_eq_some_iff.1 hop
        obtain ⟨_, _, heq⟩ := Option.map_eq_some_iff.1 hr
        cases heq
        exact hop? _ ho
      refine .ite (.pure hleft) (yields_advance.bind fun _ _ => ?_)
      extract_lets join
      have hjoin : ∀ right, right.Edged edge →
          Yields edge (join right) fun r => r.1.Edged edge := by
        intro right hright
        exact Yields.bind (yields_finish rfl hleft.here
          ⟨.text htext, .node hleft, .node hright, trivial⟩ rfl) fun n hn => .pure hn
      refine .ite ?_ (.ite ((yields_scopedName fuel).bind hjoin) ((ih _).bind hjoin))
      exact (yields_types fuel).bind fun ts hts => hjoin ts hts.1

theorem yields_disjunction (fuel : Nat) :
    Yields edge (disjunction fuel expr) (Node.Edged edge) :=
  yields_logical (yields_logical (yields_binary hexpr fuel fuel _) fuel _) fuel _

theorem yields_conditional (fuel : Nat) :
    Yields edge (conditional fuel expr) (Node.Edged edge) := by
  refine (yields_disjunction hexpr fuel).bind fun test htest => ?_
  refine (yields_skip _).bind fun _ _ => .ite ?_ (.pure htest)
  refine hexpr.bind fun consequent hconsequent => (yields_expect _ _).bind fun _ _ => ?_
  refine hexpr.bind fun alternate halternate => ?_
  exact yields_finish rfl htest.here
    ⟨.node htest, .node hconsequent, .node halternate, trivial⟩ rfl

theorem yields_assignment (fuel : Nat) :
    Yields edge (assignment fuel expr) (Node.Edged edge) := by
  refine (yields_conditional hexpr fuel).bind fun left hleft => ?_
  refine yields_current.bind fun op hop => .ite ?_ (.pure hleft)
  extract_lets assign
  have hassign : ∀ r, Yields edge (assign r) (Node.Edged edge) := by
    intro r
    refine yields_advance.bind fun _ _ => hexpr.bind fun right hright => ?_
    exact yields_finish rfl hleft.here
      ⟨.text hop.text, .node hleft, .node hright, trivial⟩ rfl
  have hfail : Yields edge (complain .invalidTarget op : Parse PUnit) fun _ => True :=
    yields_complain _ _
  exact .ite (hfail.bind fun r _ => hassign r) (hassign ())

end Nested

theorem yields_expression (fuel : Nat) : Yields edge (expression fuel) (Node.Edged edge) := by
  induction fuel with
  | zero => exact yields_throw _
  | succ fuel ih => exact yields_assignment ih (fuel + 1)

theorem yields_sequence (fuel : Nat) : Yields edge (sequence fuel) (Node.Edged edge) := by
  refine (yields_expression fuel).bind fun first hfirst => ?_
  refine (yields_nextIs _).bind fun _ _ => .ite ?_ (.pure hfirst)
  refine (yields_loop (AllShaped edge) (fun acc hacc => ?_) fuel [first] (.cons hfirst .nil)).bind
    fun ns hns => ?_
  · refine (yields_skip _).bind fun _ _ => .ite ?_ (.pure hacc)
    exact (yields_expression fuel).bind fun n hn => .pure (hacc.cons hn)
  · exact yields_finish rfl hfirst.here ⟨fits_nodes hns.reverse, trivial⟩ rfl

/-! ## Statements -/

theorem yields_declarator (fuel : Nat) {kind : String} :
    Yields edge (declarator fuel kind) (Node.Edged edge) := by
  refine (yields_typedIdentifier (yields_types fuel)).bind fun name hname => ?_
  refine (yields_atText _ _).bind fun _ _ => ?_
  extract_lets done
  have hdone : ∀ init, (∀ n ∈ init, n.Edged edge) → Yields edge (done init) (Node.Edged edge) :=
    fun init hinit =>
      yields_finish rfl hname.here ⟨.node hname, fits_optional hinit, trivial⟩ rfl
  refine .ite (yields_advance.bind fun _ _ => ?_) (Yields.none.bind hdone)
  exact (yields_expression fuel).some.bind hdone

theorem yields_variableList (fuel : Nat) {first : Span} (hfirst : first.Bounded edge)
    {attrs : Option Node} (hattrs : ∀ n ∈ attrs, n.Edged edge) :
    Yields edge (variableList fuel first attrs) fun n =>
      n.Edged edge ∧ n.kind = "VariableDeclaration" := by
  refine yields_advance.bind fun t ht => ?_
  refine (yields_loop (AllShaped edge) (fun acc hacc => ?_) fuel [] .nil).bind fun ns hns => ?_
  · refine (yields_declarator fuel).bind fun n hn => ?_
    exact (yields_skip _).bind fun _ _ => .pure (hacc.cons hn)
  · refine yields_node hfirst fun span hspan => ⟨?_, rfl⟩
    exact .of_fit rfl hspan
      ⟨fits_optional hattrs, fits_nodes hns.reverse, .text ht.text, trivial⟩ rfl

theorem yields_variablesStatement (fuel : Nat) {first : Span} (hfirst : first.Bounded edge)
    {attrs : Option Node} (hattrs : ∀ n ∈ attrs, n.Edged edge) :
    Yields edge (variablesStatement fuel first attrs) (Node.Edged edge) := by
  refine (yields_variableList fuel hfirst hattrs).bind fun n hn => ?_
  refine (yields_expect _ _).bind fun _ _ => yields_node hfirst fun span hspan => ?_
  have hspanned := hn.1.respan hspan
  rwa [hn.2] at hspanned

theorem yields_parenTest (fuel : Nat) : Yields edge (parenTest fuel) (Node.Edged edge) := by
  refine (yields_expect _ _).bind fun _ _ => (yields_expression fuel).bind fun n hn => ?_
  exact (yields_expect _ _).bind fun _ _ => .pure hn

theorem yields_caseTest (fuel : Nat) : Yields edge (caseTest fuel) (Node.Edged edge) := by
  refine (yields_accept _).bind fun o ho => ?_
  cases o with
  | none => exact yields_expression fuel
  | some t =>
    refine (yields_scopedName fuel).bind fun name hname => ?_
    exact yields_finish rfl (ho t rfl).1.bounded ⟨.node hname, trivial⟩ rfl

theorem yields_catchParam (fuel : Nat) : Yields edge (catchParam fuel) (Node.Edged edge) := by
  refine yields_identifier.bind fun name hname => ?_
  refine (yields_skip _).bind fun _ _ => .ite ?_ (.pure hname)
  refine (yields_scopedName fuel).bind fun kind hkind => ?_
  exact yields_finish rfl hname.here ⟨.text rfl, .node hname, .node hkind, trivial⟩ rfl

theorem yields_returnStatement (fuel : Nat) :
    Yields edge (returnStatement fuel) (Node.Edged edge) := by
  refine yields_advance.bind fun first hfirst => (yields_nextIs _).bind fun _ _ => ?_
  refine .branch .none (yields_expression fuel).some fun argument hargument => ?_
  exact (yields_expect _ _).bind fun _ _ =>
    yields_finish rfl hfirst.bounded ⟨fits_optional hargument, trivial⟩ rfl

theorem yields_throwStatement (fuel : Nat) :
    Yields edge (throwStatement fuel) (Node.Edged edge) := by
  refine yields_advance.bind fun first hfirst => ?_
  refine (yields_expression fuel).bind fun argument hargument => ?_
  exact (yields_expect _ _).bind fun _ _ =>
    yields_finish rfl hfirst.bounded ⟨.node hargument, trivial⟩ rfl

theorem yields_jump : Yields edge jump (Node.Edged edge) := by
  refine yields_advance.bind fun first hfirst => (yields_expect _ _).bind fun _ _ => ?_
  split <;> exact yields_finish rfl hfirst.bounded trivial rfl

theorem yields_expressionStatement (fuel : Nat) :
    Yields edge (expressionStatement fuel) (Node.Edged edge) := by
  refine yields_current.bind fun first hfirst => (yields_expression fuel).bind fun n hn => ?_
  exact (yields_expect _ _).bind fun _ _ =>
    yields_finish rfl hfirst.bounded ⟨.node hn, trivial⟩ rfl

theorem shaped_handlers {ns : List Node} (h : AllShaped edge ns) :
    ∀ n ∈ handlers ns, n.Edged edge := by
  match ns, h with
  | [], _ => simp [handlers]
  | [n], h => simpa [handlers] using h n
  | n :: m :: ns, h =>
    rintro _ ⟨⟩
    have hlast := h ((m :: ns).getLast (by simp)) (List.mem_cons_of_mem _ (List.getLast_mem _))
    exact .of_fit rfl ⟨(h n (by simp)).here.1, hlast.here.2⟩ ⟨fits_nodes h, trivial⟩ rfl

section Nested

variable {stmt : Parse Node} (hstmt : Yields edge stmt (Node.Edged edge))
include hstmt

theorem yields_block (fuel : Nat) : Yields edge (block fuel stmt) (Node.Edged edge) := by
  refine (yields_expect _ _).bind fun first hfirst => ?_
  refine (yields_bodyUntilBrace fuel hstmt).bind fun ns hns => ?_
  exact yields_finish rfl hfirst.bounded ⟨fits_nodes hns, trivial⟩ rfl

theorem yields_ifStatement (fuel : Nat) :
    Yields edge (ifStatement fuel stmt) (Node.Edged edge) := by
  refine yields_advance.bind fun first hfirst => ?_
  refine (yields_parenTest fuel).bind fun test htest => hstmt.bind fun consequent hconsequent => ?_
  refine (yields_skip _).bind fun _ _ => .branch hstmt.some .none fun alternate halternate => ?_
  exact yields_finish rfl hfirst.bounded
    ⟨.node htest, .node hconsequent, fits_optional halternate, trivial⟩ rfl

theorem yields_whileStatement (fuel : Nat) :
    Yields edge (whileStatement fuel stmt) (Node.Edged edge) := by
  refine yields_advance.bind fun first hfirst => ?_
  refine (yields_parenTest fuel).bind fun test htest => hstmt.bind fun body hbody => ?_
  exact yields_finish rfl hfirst.bounded ⟨.node htest, .node hbody, trivial⟩ rfl

theorem yields_doStatement (fuel : Nat) :
    Yields edge (doStatement fuel stmt) (Node.Edged edge) := by
  refine yields_advance.bind fun first hfirst => hstmt.bind fun body hbody => ?_
  refine (yields_expect _ _).bind fun _ _ => (yields_parenTest fuel).bind fun test htest => ?_
  exact (yields_expect _ _).bind fun _ _ =>
    yields_finish rfl hfirst.bounded ⟨.node hbody, .node htest, trivial⟩ rfl

theorem yields_forStatement (fuel : Nat) :
    Yields edge (forStatement fuel stmt) (Node.Edged edge) := by
  refine yields_advance.bind fun first hfirst => (yields_expect _ _).bind fun _ _ => ?_
  refine yields_current.bind fun t ht => ?_
  extract_lets rest
  have hrest : ∀ init, (∀ n ∈ init, n.Edged edge) → Yields edge (rest init) (Node.Edged edge) := by
    intro init hinit
    refine (yields_expect _ _).bind fun _ _ => (yields_nextIs _).bind fun _ _ => ?_
    refine .branch .none (yields_expression fuel).some fun test htest => ?_
    refine (yields_expect _ _).bind fun _ _ => (yields_nextIs _).bind fun _ _ => ?_
    refine .branch .none (yields_sequence fuel).some fun update hupdate => ?_
    refine (yields_expect _ _).bind fun _ _ => hstmt.bind fun body hbody => ?_
    exact yields_finish rfl hfirst.bounded
      ⟨fits_optional hinit, fits_optional htest, fits_optional hupdate, .node hbody, trivial⟩ rfl
  refine .ite ?_ (.ite (Yields.none.bind hrest) ((yields_sequence fuel).some.bind hrest))
  have hlist : Yields edge (variableList fuel t.span none) (Node.Edged edge) :=
    (yields_variableList fuel ht.bounded (by simp)).weaken fun n hn => hn.1
  exact hlist.some.bind hrest

theorem yields_switchCase (fuel : Nat) :
    Yields edge (switchCase fuel stmt) (Node.Edged edge) := by
  refine yields_current.bind fun first hfirst => ?_
  extract_lets rest
  have hrest : ∀ test, (∀ n ∈ test, n.Edged edge) → Yields edge (rest test) (Node.Edged edge) := by
    intro test htest
    refine (yields_expect _ _).bind fun _ _ => ?_
    refine (yields_many fuel (yields_atAny _) hstmt).bind fun ns hns => ?_
    exact yields_finish rfl hfirst.bounded ⟨fits_optional htest, fits_nodes hns, trivial⟩ rfl
  split
  · exact yields_advance.bind fun _ _ => (yields_caseTest fuel).some.bind hrest
  · exact yields_advance.bind fun _ _ => Yields.none.bind hrest
  · exact (yields_complain _ _).bind hrest

theorem yields_switchStatement (fuel : Nat) :
    Yields edge (switchStatement fuel stmt) (Node.Edged edge) := by
  refine yields_advance.bind fun first hfirst => ?_
  refine (yields_parenTest fuel).bind fun discriminant hdiscriminant => ?_
  refine (yields_expect _ _).bind fun _ _ => ?_
  refine (yields_many fuel (yields_nextIs _) (yields_switchCase hstmt fuel)).bind fun ns hns => ?_
  exact (yields_expect _ _).bind fun _ _ =>
    yields_finish rfl hfirst.bounded ⟨.node hdiscriminant, fits_nodes hns, trivial⟩ rfl

theorem yields_catchClause (fuel : Nat) :
    Yields edge (catchClause fuel stmt) (Node.Edged edge) := by
  refine yields_advance.bind fun first hfirst => (yields_skip _).bind fun _ _ => ?_
  extract_lets rest
  have hrest : ∀ param, (∀ n ∈ param, n.Edged edge) →
      Yields edge (rest param) (Node.Edged edge) := by
    intro param hparam
    refine (yields_block hstmt fuel).bind fun body hbody => ?_
    exact yields_finish rfl hfirst.bounded ⟨fits_optional hparam, .node hbody, trivial⟩ rfl
  refine .ite ?_ (Yields.none.bind hrest)
  refine (yields_catchParam fuel).bind fun n hn => (yields_expect _ _).bind fun _ _ => ?_
  exact Yields.bind (.pure (by simpa using hn)) hrest

theorem yields_tryStatement (fuel : Nat) :
    Yields edge (tryStatement fuel stmt) (Node.Edged edge) := by
  refine yields_advance.bind fun first hfirst => ?_
  refine (yields_block hstmt fuel).bind fun body hbody => ?_
  have hstop : Yields edge (do pure !(← nextIs .catchWord)) fun _ => True :=
    (yields_nextIs _).bind fun _ _ => .pure trivial
  refine (yields_many fuel hstop (yields_catchClause hstmt fuel)).bind fun ns hns => ?_
  refine (yields_skip _).bind fun _ _ => ?_
  refine .branch (yields_block hstmt fuel).some .none fun finalizer hfinalizer => ?_
  have hfail (t : Token) : Yields edge (complain .expectedHandler t : Parse PUnit) fun _ => True :=
    yields_complain _ _
  refine .ite (yields_current.bind fun t _ => (hfail t).bind fun r _ => ?_) ?_
  all_goals
    exact yields_finish rfl hfirst.bounded
      ⟨.node hbody, fits_optional (shaped_handlers hns), fits_optional hfinalizer, trivial⟩ rfl

theorem yields_statementWith (fuel : Nat) :
    Yields edge (statementWith fuel stmt) (Node.Edged edge) := by
  refine yields_current.bind fun t ht => ?_
  split
  · exact yields_block hstmt fuel
  · exact yields_ifStatement hstmt fuel
  · exact yields_whileStatement hstmt fuel
  · exact yields_doStatement hstmt fuel
  · exact yields_forStatement hstmt fuel
  · exact yields_switchStatement hstmt fuel
  · exact yields_tryStatement hstmt fuel
  · exact yields_returnStatement fuel
  · exact yields_throwStatement fuel
  · exact yields_jump
  · exact yields_jump
  · exact yields_variablesStatement fuel ht.bounded (by simp)
  · exact yields_variablesStatement fuel ht.bounded (by simp)
  · exact yields_expressionStatement fuel

end Nested

theorem yields_statement (fuel : Nat) : Yields edge (statement fuel) (Node.Edged edge) := by
  induction fuel with
  | zero => exact yields_throw _
  | succ fuel ih => exact yields_statementWith ih (fuel + 1)

/-! ## Declarations -/

theorem yields_usingDeclaration (fuel : Nat) :
    Yields edge (usingDeclaration fuel) (Node.Edged edge) := by
  refine yields_advance.bind fun first hfirst => ?_
  refine (yields_scopedName fuel).bind fun name hname => (yields_skip _).bind fun _ _ => ?_
  refine .branch yields_identifier.some .none fun shortName hshort => ?_
  exact (yields_expect _ _).bind fun _ _ =>
    yields_finish rfl hfirst.bounded ⟨.node hname, fits_optional hshort, trivial⟩ rfl

theorem yields_importDeclaration (fuel : Nat) :
    Yields edge (importDeclaration fuel) (Node.Edged edge) := by
  refine yields_advance.bind fun first hfirst => ?_
  refine (yields_scopedName fuel).bind fun name hname => ?_
  exact (yields_expect _ _).bind fun _ _ =>
    yields_finish rfl hfirst.bounded ⟨.node hname, trivial⟩ rfl

theorem yields_attributes (fuel : Nat) : Yields edge (attributes fuel) (Node.Edged edge) := by
  refine yields_advance.bind fun first hfirst => ?_
  refine (yields_commaList fuel _ (yields_postfixed (yields_expression fuel) fuel)).bind
    fun ns hns => (yields_expect _ _).bind fun _ _ => ?_
  exact yields_finish rfl hfirst.bounded ⟨fits_nodes hns, trivial⟩ rfl

theorem yields_accessWords (fuel : Nat) :
    Yields edge (accessWords fuel) fun ws => ∀ w ∈ ws, '/' ∉ w.toList := by
  refine (yields_loop (fun ws => ∀ w ∈ ws, '/' ∉ w.toList) (fun acc hacc => ?_) fuel []
    (by simp)).bind fun ws hws => .pure (by simpa using hws)
  refine (yields_accept _).bind fun o ho => ?_
  cases o with
  | none => exact .pure hacc
  | some t =>
    obtain ⟨ht, hkind⟩ := ho t rfl
    have htext := ht.solid (by simp [hkind])
    exact .pure (by simpa using And.intro htext hacc)

theorem yields_attributeList (fuel : Nat) :
    Yields edge (attributeList fuel) fun o => ∀ n ∈ o, n.Edged edge := by
  refine yields_current.bind fun first hfirst => ?_
  refine .branch (yields_attributes fuel).some .none fun attrs hattrs => ?_
  refine (yields_accessWords fuel).bind fun words hwords => .ite .none ?_
  refine Yields.some (yields_finish rfl hfirst.bounded ⟨fits_optional hattrs, ?_, trivial⟩ rfl)
  change Value.Suits edge .words (if words.isEmpty then .null else .list (words.map .str))
  split
  · exact .noWords
  · exact .words hwords

section Attributed

variable {first : Span} (hfirst : first.Bounded edge) {attrs : Option Node}
  (hattrs : ∀ n ∈ attrs, n.Edged edge)
include hfirst hattrs

theorem yields_moduleDeclaration {item : Parse Node} (hitem : Yields edge item (Node.Edged edge))
    (fuel : Nat) : Yields edge (moduleDeclaration fuel item first attrs) (Node.Edged edge) := by
  refine yields_advance.bind fun _ _ => yields_identifier.bind fun name hname => ?_
  refine (yields_expect _ _).bind fun opening hopening => ?_
  refine (yields_bodyUntilBrace fuel hitem).bind fun ns hns => ?_
  refine Yields.bind (yields_finish rfl hopening.bounded ⟨fits_nodes hns, trivial⟩ rfl)
    fun body hbody => ?_
  exact yields_finish rfl hfirst
    ⟨fits_optional hattrs, .node hname, .node hbody, trivial⟩ rfl

theorem yields_classDeclaration {item : Parse Node} (hitem : Yields edge item (Node.Edged edge))
    (fuel : Nat) : Yields edge (classDeclaration fuel item first attrs) (Node.Edged edge) := by
  refine yields_advance.bind fun _ _ => yields_identifier.bind fun name hname => ?_
  refine (yields_skip _).bind fun _ _ => ?_
  refine .branch (yields_scopedName fuel).some .none fun base hbase => ?_
  refine (yields_expect _ _).bind fun opening hopening => ?_
  refine (yields_bodyUntilBrace fuel hitem).bind fun ns hns => ?_
  refine Yields.bind (yields_finish rfl hopening.bounded ⟨fits_nodes hns, trivial⟩ rfl)
    fun body hbody => ?_
  exact yields_finish rfl hfirst
    ⟨fits_optional hattrs, .node hname, fits_optional hbase, .node hbody, trivial⟩ rfl

theorem yields_functionDeclaration (fuel : Nat) :
    Yields edge (functionDeclaration fuel first attrs) (Node.Edged edge) := by
  refine yields_advance.bind fun _ _ => yields_identifier.bind fun name hname => ?_
  refine (yields_params (yields_types fuel) fuel).bind fun ps hps => ?_
  refine (yields_returnType (yields_types fuel)).bind fun result hresult => ?_
  refine (yields_skip _).bind fun _ _ => ?_
  refine .branch .none (yields_block (yields_statement fuel) fuel).some fun body hbody => ?_
  exact yields_finish rfl hfirst ⟨fits_optional hattrs, .node hname, fits_nodes hps,
    fits_optional hresult, fits_optional hbody, trivial⟩ rfl

theorem yields_enumDeclaration (fuel : Nat) :
    Yields edge (enumDeclaration fuel first attrs) (Node.Edged edge) := by
  have hmember : Yields edge (enumMember fuel) (Node.Edged edge) := by
    refine yields_identifier.bind fun name hname => ?_
    refine (yields_atText _ _).bind fun _ _ => .ite ?_ (.pure hname)
    refine yields_advance.bind fun _ _ => (yields_expression fuel).bind fun init hinit => ?_
    exact yields_finish rfl hname.here ⟨.node hname, .node hinit, trivial⟩ rfl
  refine yields_advance.bind fun _ _ => (yields_nextIs _).bind fun _ _ => ?_
  refine .branch yields_identifier.some .none fun name hname => ?_
  refine (yields_expect _ _).bind fun opening hopening => ?_
  refine (yields_commaList fuel _ hmember).bind fun ns hns => (yields_expect _ _).bind fun _ _ => ?_
  refine Yields.bind (yields_finish rfl hopening.bounded ⟨fits_nodes hns, trivial⟩ rfl)
    fun body hbody => ?_
  refine Yields.bind (yields_finish rfl hfirst
    ⟨fits_optional hattrs, fits_optional hname, .node hbody, trivial⟩ rfl) fun n hn => ?_
  exact (yields_skip _).bind fun _ _ => .pure hn

theorem yields_typedefDeclaration (fuel : Nat) :
    Yields edge (typedefDeclaration fuel first attrs) (Node.Edged edge) := by
  refine yields_advance.bind fun _ _ => yields_identifier.bind fun name hname => ?_
  refine (yields_returnType (yields_types fuel)).bind fun o ho => ?_
  cases o with
  | none => exact yields_current.bind fun _ _ => yields_complain _ _
  | some ts =>
    exact (yields_expect _ _).bind fun _ _ => yields_finish rfl hfirst
      ⟨fits_optional hattrs, .node hname, .node (ho ts rfl), trivial⟩ rfl

end Attributed

theorem yields_classElementOf {item : Parse Node} (hitem : Yields edge item (Node.Edged edge)) :
    Yields edge (classElementOf item) (Node.Edged edge) :=
  hitem.bind fun _ hn => .pure (.of_fit rfl hn.here ⟨.node hn, trivial⟩ rfl)

theorem yields_declarations (fuel : Nat) :
    (∀ allowModule, Yields edge (declaration allowModule fuel) (Node.Edged edge)) ∧
      Yields edge (topLevel fuel) (Node.Edged edge) := by
  induction fuel with
  | zero =>
    constructor
    · intro allowModule
      rw [declaration]
      exact yields_throw _
    · rw [topLevel]
      exact yields_throw _
  | succ fuel ih =>
    constructor
    · intro allowModule
      rw [declaration]
      refine (yields_attributeList _).bind fun attrs hattrs => yields_current.bind fun t ht => ?_
      have hfirst : ((attrs.map Node.span).getD t.span).Bounded edge := by
        cases attrs with
        | none => exact ht.bounded
        | some n => exact (hattrs n rfl).here
      extract_lets first
      split
      · exact yields_classDeclaration hfirst hattrs (yields_classElementOf (ih.1 false)) _
      · exact yields_functionDeclaration hfirst hattrs _
      · exact yields_variablesStatement _ hfirst hattrs
      · exact yields_variablesStatement _ hfirst hattrs
      · exact yields_enumDeclaration hfirst hattrs _
      · exact yields_typedefDeclaration hfirst hattrs _
      · exact .ite (yields_moduleDeclaration hfirst hattrs ih.2 _) (yields_complain _ _)
    · rw [topLevel]
      refine yields_current.bind fun t _ => ?_
      split
      · exact yields_usingDeclaration _
      · exact yields_importDeclaration _
      · exact ih.1 true

/-! ## Whole sources -/

theorem yields_programOf {body : List Node} (h : AllShaped edge body) :
    Yields edge (programOf body) (Node.Edged edge) := by
  refine yields_get.bind fun p hp => .pure (.of_fit rfl ⟨hp.first, ?_⟩ ⟨fits_nodes h, trivial⟩ rfl)
  rw [Int.max_def]
  split
  · exact hp.head.stop
  · exact hp.whole

theorem yields_fueled {production : Nat → Parse Node}
    (h : ∀ fuel, Yields edge (production fuel) (Node.Edged edge)) :
    Yields edge (fueled production) (Node.Edged edge) := yields_get.bind fun _ _ => h _

theorem yields_startRule (o : Options) : Yields edge (startRule o) (Node.Edged edge) := by
  unfold startRule
  split
  · refine yields_fueled fun fuel => ?_
    exact (yields_many fuel (yields_nextIs _) (yields_declarations _).2).bind fun ns hns =>
      yields_programOf hns
  · refine yields_fueled fun fuel => (yields_expression fuel).bind fun n hn => ?_
    exact (yields_expect _ _).bind fun _ _ => .pure hn
  · refine yields_fueled fun fuel => ?_
    refine .ite ?_ (.ite ?_ (yields_throw _))
    · exact (yields_many fuel (yields_nextIs _)
        (yields_classElementOf ((yields_declarations _).1 false))).bind fun ns hns =>
          yields_programOf hns
    · exact (yields_many fuel (yields_nextIs _) (yields_statement fuel)).bind fun ns hns =>
        yields_programOf hns

end Productions

end Parse

/-- What is parsed is what the start rule reads from the tokens of the source. -/
theorem parse_eq_ok {source : String} {o : Options} {root : Node} {comments : List Comment}
    (h : parse source o = .ok (root, comments)) :
    ∃ tokens q, tokenize source o.origin = .ok (tokens, comments) ∧
      (Parse.startRule o).run.run (Parser.start tokens source o.origin) = (.ok root, q) := by
  unfold parse at h
  cases htokens : tokenize source o.origin with
  | error e =>
    rw [htokens] at h
    cases h
  | ok r =>
    obtain ⟨tokens, cs⟩ := r
    simp only [htokens, bind, Except.bind] at h
    split at h
    · cases h
    cases hroot : (Parse.startRule o).run.run (Parser.start tokens source o.origin) with
    | mk result q =>
      rw [hroot] at h
      cases result with
      | error e => cases h
      | ok n =>
        cases h
        exact ⟨tokens, q, rfl, hroot⟩

/-- A source is read as a tree of shaped nodes whose edges are edges of its tokens. -/
theorem parse_shaped {source : String} {o : Options} {comments : List Comment} {root : Node}
    (h : parse source o = .ok (root, comments)) :
    ∃ tokens, tokenize source o.origin = .ok (tokens, comments) ∧
      ∀ edge : Int → Prop, (∀ t ∈ tokens, t.Good edge) → edge 0 → edge source.length →
        root.Edged edge := by
  obtain ⟨tokens, q, htokens, hroot⟩ := parse_eq_ok h
  refine ⟨tokens, htokens, fun edge hgood hfirst hwhole => ?_⟩
  have hstart : (Parser.start tokens source o.origin).Good edge :=
    ⟨hgood, by simp [Parser.start], hfirst, hwhole⟩
  exact (Parse.yields_startRule o _ hstart _ _ hroot).2

end MonkeyFormat
