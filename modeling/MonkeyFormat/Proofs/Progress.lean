import MonkeyFormat.Proofs.ClosingAngles
import MonkeyFormat.Proofs.Outcomes
import MonkeyFormat.Proofs.ParsedSpans
import MonkeyFormat.Proofs.Traces

set_option autoImplicit false

/-! # How productions get on

A production that succeeds has consumed tokens, and the nodes it gives keep the traces of the
operands among them. One that fails complains about the token that comes next, or about a literal's
value. Either way the end token is still to come. Loops and nested productions have enough fuel
because the weight of the tokens to come goes down from round to round. -/

namespace MonkeyFormat

/-! ## Tokens that may be complained about -/

/-- The faults that a token may cause are allowed. -/
structure Token.Reports (allowed : Fault → Prop) (origin : Option String) (t : Token) : Prop where
  complaint : ∀ c, allowed (.malformed c t.place origin)
  /-- Of two closing angles the first one may be consumed alone. -/
  half : t.kind = .shiftRight →
    ∀ c, allowed (.malformed c ⟨t.span.line, t.span.col + 1, t.span.start + 1⟩ origin)
  value : [TokenKind.number, .float, .string, .char, .literal].contains t.kind = true →
    ∀ e, Literal.value t.kind t.text = .error e → allowed e

/-- Is a token of this kind neither an operand nor the end token? -/
def TokenKind.isPlain (kind : TokenKind) : Bool := kind ≠ .endOfInput && !kind.isOperand

theorem TokenKind.ne_end_of_isPlain {kind : TokenKind} (h : kind.isPlain = true) :
    kind ≠ .endOfInput := by
  rintro rfl
  cases h

theorem TokenKind.isOperand_of_isPlain {kind : TokenKind} (h : kind.isPlain = true) :
    kind.isOperand = false := by
  rw [isPlain, Bool.and_eq_true, Bool.not_eq_true'] at h
  exact h.2

theorem Token.weight_pos (t : Token) : 1 ≤ t.weight := by
  unfold weight
  split <;> decide

namespace Parser

variable {allowed : Fault → Prop} {p : Parser}

/-- The tokens to come end with the only end token among them, and their faults are allowed. -/
structure Ready (allowed : Fault → Prop) (p : Parser) : Prop where
  reports : ∀ t ∈ p.rest, t.Reports allowed p.origin
  ends : ∃ front last, p.rest = front ++ [last] ∧ last.kind = .endOfInput ∧
    ∀ t ∈ front, t.kind ≠ .endOfInput

/-- The operands to come. -/
def operands (p : Parser) : List Token := p.rest.filter fun t => t.kind.isOperand

/-- The parser behind the token that comes next. -/
def behind (p : Parser) : Parser :=
  { p with seen := p.head :: p.seen, rest := p.rest.drop 1, last := some p.head }

/-- The token that comes next is neither an operand nor the end token. -/
abbrev Plain (p : Parser) : Prop := p.head.kind.isPlain = true

theorem Plain.of {kind : TokenKind} (h : p.head.kind = kind) (hkind : kind.isPlain = true) :
    p.Plain := by rwa [Plain, h]

namespace Ready

/-- Behind all tokens but the end token there is a token that is not the last one. -/
theorem rest_eq (h : p.Ready allowed) (hend : p.head.kind ≠ .endOfInput) :
    p.rest = p.head :: p.behind.rest := by
  obtain ⟨front, last, hrest, hlast, -⟩ := h.ends
  cases front with
  | nil =>
    have hhead : p.head = last := by rw [Parser.head, hrest]; rfl
    exact absurd (hhead ▸ hlast) hend
  | cons t front =>
    have hhead : p.head = t := by rw [Parser.head, hrest]; rfl
    have hbehind : p.behind.rest = front ++ [last] := by rw [Parser.behind, hrest]; rfl
    rw [hrest, hhead, hbehind]
    rfl

theorem head_mem (h : p.Ready allowed) : p.head ∈ p.rest := by
  obtain ⟨front, last, hrest, -⟩ := h.ends
  rw [head, hrest]
  cases front <;> simp

theorem head (h : p.Ready allowed) : p.head.Reports allowed p.origin := h.reports _ h.head_mem

theorem behind (h : p.Ready allowed) (hend : p.head.kind ≠ .endOfInput) :
    p.behind.Ready allowed := by
  have heq := h.rest_eq hend
  refine ⟨fun t ht => h.reports t ?_, ?_⟩
  · rw [heq]
    exact List.mem_cons_of_mem _ ht
  · obtain ⟨front, last, hrest, hlast, hfront⟩ := h.ends
    rw [heq] at hrest
    cases front with
    | nil =>
      rw [(List.cons.inj hrest).1] at hend
      exact absurd hlast hend
    | cons t front =>
      exact ⟨front, last, (List.cons.inj hrest).2, hlast,
        fun u hu => hfront u (List.mem_cons_of_mem t hu)⟩

theorem weight_eq (h : p.Ready allowed) (hend : p.head.kind ≠ .endOfInput) :
    p.weight = p.head.weight + p.behind.weight := by
  rw [weight, h.rest_eq hend]
  rfl

theorem operands_eq (h : p.Ready allowed) (hend : p.head.kind ≠ .endOfInput) :
    p.operands = (if p.head.kind.isOperand then [p.head] else []) ++ p.behind.operands := by
  rw [operands, h.rest_eq hend, List.filter_cons, operands]
  split <;> rfl

/-- Where the end token comes next, no operands are to come. -/
theorem operands_eq_nil (h : p.Ready allowed) (hend : p.head.kind = .endOfInput) :
    p.operands = [] := by
  obtain ⟨front, last, hrest, hlast, hfront⟩ := h.ends
  rw [Parser.head, hrest] at hend
  cases front with
  | nil =>
    rw [operands, hrest, List.nil_append, List.filter_cons, hlast]
    rfl
  | cons t front => exact absurd hend (hfront t List.mem_cons_self)

end Ready

end Parser

namespace Settles

variable {β : Type} {fault : Fault → Parser → Prop} {p : Parser} {goal : β → Parser → Prop}

theorem get_bind {f : Parser → Parse β} (hf : Settles fault p (f p) goal) :
    Settles fault p (get >>= f) goal := .run_bind (Parse.run_get p) hf

theorem current_bind {f : Token → Parse β} (hf : Settles fault p (f p.head) goal) :
    Settles fault p (Parse.current >>= f) goal := .run_bind (Parse.run_current p) hf

theorem second_bind {f : Token → Parse β} (hf : ∀ t, Settles fault p (f t) goal) :
    Settles fault p (Parse.second >>= f) goal :=
  have ⟨t, ht⟩ := Parse.run_second p
  .run_bind ht (hf t)

end Settles

namespace Parse

variable {α β σ : Type} {allowed : Fault → Prop}

theorem run_advance_behind {p : Parser} (h : p.Ready allowed) (hend : p.head.kind ≠ .endOfInput) :
    advance.run.run p = (.ok p.head, p.behind) :=
  run_advance_cons (h.rest_eq hend) hend

/-! ## From one state to a later one -/

/-- On the way from one state to another at least the given weight was consumed, and the nodes keep
the traces of the operands consumed. -/
structure Passes (allowed : Fault → Prop) (k : Nat) (p q : Parser) (ns : List Node) : Prop where
  ready : q.Ready allowed
  weight : q.weight + k ≤ p.weight
  traces : ∃ ts, p.operands = ts ++ q.operands ∧
    List.Forall₂ Token.Leaves ts (ns.flatMap Node.traces)

namespace Passes

variable {j k bound : Nat} {p q r : Parser} {ns ms : List Node}

theorem refl (hp : p.Ready allowed) : Passes allowed 0 p p [] := ⟨hp, le_rfl, [], rfl, .nil⟩

theorem trans (h : Passes allowed j p q ns) (h' : Passes allowed k q r ms) :
    Passes allowed (j + k) p r (ns ++ ms) := by
  obtain ⟨ts, hts, hleaves⟩ := h.traces
  obtain ⟨us, hus, hleaves'⟩ := h'.traces
  have hweight := h.weight
  have hweight' := h'.weight
  refine ⟨h'.ready, by omega, ts ++ us, by rw [hts, hus, List.append_assoc], ?_⟩
  rw [List.flatMap_append]
  exact List.rel_append hleaves hleaves'

theorem weaken (h : Passes allowed k p q ns) (hk : j ≤ k) : Passes allowed j p q ns :=
  ⟨h.ready, by have := h.weight; omega, h.traces⟩

theorem append (h : Passes allowed j p q ns) (h' : Passes allowed k q r ms) :
    Passes allowed j p r (ns ++ ms) := (h.trans h').weaken (Nat.le_add_right j k)

/-- Other nodes with the same traces. -/
theorem congr (h : Passes allowed k p q ns)
    (htraces : ms.flatMap Node.traces = ns.flatMap Node.traces) : Passes allowed k p q ms :=
  ⟨h.ready, h.weight, by rw [htraces]; exact h.traces⟩

theorem below (h : Passes allowed 1 p q ns) (hp : p.weight < bound + 1) : q.weight < bound := by
  have := h.weight
  omega

theorem within (h : Passes allowed k p q ns) (hp : p.weight < bound) : q.weight < bound := by
  have := h.weight
  omega

theorem lt (h : Passes allowed 1 p q ns) : q.weight < p.weight := h.weight

/-- A token that is no operand leaves no trace. -/
theorem behind (h : Passes allowed j p q ns) (hplain : q.Plain) :
    Passes allowed (j + 1) p q.behind ns := by
  have hend := TokenKind.ne_end_of_isPlain hplain
  obtain ⟨ts, hts, hleaves⟩ := h.traces
  have hweight := h.weight
  have hbehind := h.ready.weight_eq hend
  have hpos := q.head.weight_pos
  refine ⟨h.ready.behind hend, by omega, ts, ?_, hleaves⟩
  rw [hts, h.ready.operands_eq hend, TokenKind.isOperand_of_isPlain hplain]
  rfl

/-- An operand leaves its trace. -/
theorem leaf {n : Node} (hp : p.Ready allowed) (hend : p.head.kind ≠ .endOfInput)
    (hoperand : p.head.kind.isOperand = true)
    (hn : n.traces = [.operand (p.head.text, p.head.span)]) : Passes allowed 1 p p.behind [n] := by
  have hbehind := hp.weight_eq hend
  have hpos := p.head.weight_pos
  refine ⟨hp.behind hend, by omega, [p.head], ?_, ?_⟩
  · rw [hp.operands_eq hend, if_pos hoperand]
  · rw [List.flatMap_singleton, hn]
    exact .cons (.operand p.head) .nil

end Passes

/-! ## Outcomes -/

/-- From the state the production ends as `post` says, or fails with an allowed fault while the end
token is still to come. -/
abbrev Meets (allowed : Fault → Prop) (p : Parser) (m : Parse α) (post : α → Parser → Prop) :
    Prop :=
  Settles (fun e q => allowed e ∧ q.Ready allowed) p m post

section Rules

variable {p : Parser} {m : Parse α} {f : α → Parse β} {post : α → Parser → Prop}
  {goal : β → Parser → Prop}

theorem run_nextIs (kind : TokenKind) (p : Parser) :
    (nextIs kind).run.run p = (.ok (decide (p.head.kind = kind)), p) := rfl

theorem run_atAny (kinds : List TokenKind) (p : Parser) :
    (atAny kinds).run.run p = (.ok (kinds.contains p.head.kind), p) := rfl

theorem run_atText (kind : TokenKind) (text : String) (p : Parser) :
    (atText kind text).run.run p = (.ok (p.head.kind = kind && p.head.text = text), p) := rfl

theorem meets_complain (hp : p.Ready allowed) (c : Complaint) :
    Meets allowed p (complain c p.head : Parse α) post := ⟨hp.head.complaint c, hp⟩

theorem meets_complain_bind (hp : p.Ready allowed) (c : Complaint) :
    Meets allowed p (complain c p.head >>= f) goal :=
  have hfail : Meets allowed p (complain c p.head : Parse α) fun _ _ => False := meets_complain hp c
  hfail.bind fun _ _ h => h.elim

/-- The value of a literal that comes next, or has just been consumed. -/
theorem meets_value {q : Parser} (hp : p.Ready allowed) (hq : q.Ready allowed)
    (hkind : [TokenKind.number, .float, .string, .char, .literal].contains p.head.kind = true) :
    Meets allowed q (Literal.value p.head.kind p.head.text : Parse Value) fun _ r => r = q := by
  cases h : Literal.value p.head.kind p.head.text with
  | error e => exact ⟨hp.head.value hkind e h, hq⟩
  | ok v => exact .of_run rfl rfl

end Rules

/-! ## Tokens -/

section Tokens

variable {j : Nat} {p q : Parser} {ns : List Node} {kind : TokenKind} {goal : β → Parser → Prop}

theorem meets_advance (h : Passes allowed j p q ns) (hplain : q.Plain) :
    Meets allowed q advance fun _ r => Passes allowed 1 p r ns :=
  .of_run (run_advance_behind h.ready (TokenKind.ne_end_of_isPlain hplain))
    ((h.behind hplain).weaken (by omega))

/-- A token of a known kind is consumed, or its lack is complained about. -/
theorem meets_expect_bind {f : Token → Parse β} {what : String} (hq : q.Ready allowed)
    (hend : kind ≠ .endOfInput)
    (hf : q.head.kind = kind → Meets allowed q.behind (f q.head) goal) :
    Meets allowed q (expect kind what >>= f) goal := by
  unfold expect
  rw [bind_assoc]
  refine .current_bind ?_
  split
  · next hkind => exact .run_bind (run_advance_behind hq (by rwa [hkind])) (hf hkind)
  · exact meets_complain_bind hq _

theorem meets_expect (h : Passes allowed j p q ns) (what : String) (hkind : kind.isPlain = true) :
    Meets allowed q (expect kind what) fun _ r => Passes allowed 1 p r ns :=
  .current_bind (.ite (fun heq => meets_advance h (by rwa [Parser.Plain, heq]))
    fun _ => meets_complain h.ready _)

theorem meets_accept (h : Passes allowed j p q ns) (hkind : kind.isPlain = true) :
    Meets allowed q (accept kind) fun o r => Passes allowed j p r ns ∧
      (o = none → r = q) ∧ (o.isSome = true → Passes allowed 1 p r ns) := by
  refine .run_bind (run_nextIs kind q)
    (.ite (fun heq => ?_) fun _ => .pure ⟨h, fun _ => rfl, nofun⟩)
  have hplain : q.Plain := by rwa [Parser.Plain, of_decide_eq_true heq]
  have hbehind := h.behind hplain
  refine .of_run (run_map_ok some
    (run_advance_behind h.ready (TokenKind.ne_end_of_isPlain hplain))) ?_
  exact ⟨hbehind.weaken (by omega), nofun, fun _ => hbehind.weaken (by omega)⟩

theorem meets_skip (h : Passes allowed j p q ns) (hkind : kind.isPlain = true) :
    Meets allowed q (skip kind) fun b r =>
      Passes allowed j p r ns ∧ (b = true → Passes allowed 1 p r ns) :=
  (meets_accept h hkind).bind fun _ _ hr => .pure ⟨hr.1, hr.2.2⟩

end Tokens

/-! ## Nodes -/

section Nodes

variable {j : Nat} {p q : Parser} {ns : List Node} {kind : String} {first : Span} {fields : Fields}
  {names : List String}

theorem run_finish (kind : String) (first : Span) (fields : Fields) (p : Parser) :
    (finish kind first fields).run.run p =
      (.ok (spanning kind first ((p.last.map Token.span).getD first) fields), p) := by
  unfold finish
  rw [run_bind_ok _ (run_get p)]
  cases p.last <;> rfl

/-- The traces of a node of a known kind, read off its fields. -/
theorem traces_of_known {span : Span} (hinner : Node.isInner kind = true)
    (known : childFields? kind = some names)
    (hchildren : (names.flatMap fun name => ((fields.lookup name).getD .null).held) = ns) :
    (Node.mk kind span fields).traces = ns.flatMap Node.traces := by
  rw [Node.traces_of_inner hinner, children_of_known known, hchildren]

/-- A finished node stands for its children. -/
theorem Passes.finish_bind {f : Node → Parse β} {goal : β → Parser → Prop}
    (h : Passes allowed j p q ns) (hinner : Node.isInner kind = true)
    (known : childFields? kind = some names)
    (hchildren : (names.flatMap fun name => ((fields.lookup name).getD .null).held) = ns)
    (hf : ∀ n, Passes allowed j p q [n] → n.kind = kind → Meets allowed q (f n) goal) :
    Meets allowed q (Parse.finish kind first fields >>= f) goal := by
  refine .run_bind (run_finish kind first fields q) (hf _ (h.congr ?_) rfl)
  rw [List.flatMap_singleton]
  exact traces_of_known hinner known hchildren

theorem Passes.finish_kind (h : Passes allowed j p q ns) (hinner : Node.isInner kind = true)
    (known : childFields? kind = some names)
    (hchildren : (names.flatMap fun name => ((fields.lookup name).getD .null).held) = ns) :
    Meets allowed q (Parse.finish kind first fields) fun n r =>
      Passes allowed j p r [n] ∧ n.kind = kind := by
  rw [← bind_pure (Parse.finish kind first fields)]
  exact h.finish_bind hinner known hchildren fun n hn hkind => .pure ⟨hn, hkind⟩

theorem Passes.finish (h : Passes allowed j p q ns) (hinner : Node.isInner kind = true)
    (known : childFields? kind = some names)
    (hchildren : (names.flatMap fun name => ((fields.lookup name).getD .null).held) = ns) :
    Meets allowed q (Parse.finish kind first fields) fun n r => Passes allowed j p r [n] :=
  (h.finish_kind hinner known hchildren).weaken fun _ _ hn => hn.1

/-- An operand is finished right behind its token. -/
theorem meets_leaf {field : String} (hp : p.Ready allowed) (hend : p.head.kind ≠ .endOfInput)
    (hoperand : p.head.kind.isOperand = true) (hfield : Node.operandField? kind = some field)
    (htext : fields.lookup field = some (.str p.head.text))
    (harray : Node.isArrayKind kind = false) (known : childFields? kind = some []) :
    Meets allowed p.behind (finish kind p.head.span fields) fun n r =>
      Passes allowed 1 p r [n] := by
  refine .of_run (run_finish kind p.head.span fields p.behind) (.leaf hp hend hoperand ?_)
  refine Node.traces_of_leaf hfield ?_ harray (children_of_known known)
  rw [Node.get, spanning, htext]
  rfl

end Nodes

/-! ## Repetition -/

/-- How a round of a loop ends: with something consumed, or as the loop may end. -/
inductive Round (inv done : σ → Parser → Prop) (weight : Nat) : σ × Bool → Parser → Prop
  | more {x : σ} {q : Parser} (h : inv x q) (hlt : q.weight < weight) :
    Round inv done weight (x, true) q
  | last {x : σ} {q : Parser} (h : done x q) : Round inv done weight (x, false) q

theorem meets_loop {step : σ → Parse (σ × Bool)} (inv done : σ → Parser → Prop)
    (hstep : ∀ x q, inv x q → Meets allowed q (step x) (Round inv done q.weight)) (fuel : Nat) :
    ∀ x q, inv x q → q.weight < fuel → Meets allowed q (loop step fuel x) done := by
  induction fuel with
  | zero => exact fun _ _ _ hfuel => absurd hfuel (Nat.not_lt_zero _)
  | succ fuel ih =>
    intro x q hx hfuel
    refine (hstep x q hx).bind ?_
    rintro ⟨y, more⟩ r hround
    cases hround with
    | more h hlt => exact ih y r h (by omega)
    | last h => exact .pure h

/-- A loop that may end after any of its rounds. -/
theorem meets_repeat {step : σ → Parse (σ × Bool)} (inv : σ → Parser → Prop)
    (hstep : ∀ x q, inv x q → Meets allowed q (step x) (Round inv inv q.weight)) (fuel : Nat)
    {x : σ} {q : Parser} (h : inv x q) (hw : q.weight < fuel) :
    Meets allowed q (loop step fuel x) inv := meets_loop inv inv hstep fuel x q h hw

/-- With enough fuel, the production consumes something and gives a node. -/
abbrev Consumes (allowed : Fault → Prop) (bound : Nat) (m : Parse Node) : Prop :=
  ∀ q : Parser, q.Ready allowed → q.weight < bound →
    Meets allowed q m fun n r => Passes allowed 1 q r [n]

/-- The same where neither an operand nor the end token comes next. -/
abbrev Opens (allowed : Fault → Prop) (bound : Nat) (m : Parse Node) : Prop :=
  ∀ q : Parser, q.Ready allowed → q.Plain → q.weight < bound →
    Meets allowed q m fun n r => Passes allowed 1 q r [n]

/-- With enough fuel, the production consumes at least the given weight and gives nodes. -/
abbrev Collects (allowed : Fault → Prop) (bound k : Nat) (m : Parse (List Node)) : Prop :=
  ∀ q : Parser, q.Ready allowed → q.weight < bound →
    Meets allowed q m fun ns r => Passes allowed k q r ns

/-- With enough fuel, the production gives a node or none. -/
abbrev Offers (allowed : Fault → Prop) (bound : Nat) (m : Parse (Option Node)) : Prop :=
  ∀ q : Parser, q.Ready allowed → q.weight < bound →
    Meets allowed q m fun o r => Passes allowed 0 q r o.toList

section Lists

variable {bound fuel j k : Nat} {p q : Parser} {ns : List Node} {m item : Parse Node}

theorem Consumes.mono {bound' : Nat} (hm : Consumes allowed bound m) (h : bound' ≤ bound) :
    Consumes allowed bound' m := fun q hq hw => hm q hq (by omega)

theorem Consumes.after (hm : Consumes allowed bound m) (h : Passes allowed j p q ns)
    (hw : q.weight < bound) :
    Meets allowed q m fun n r => Passes allowed 1 p r (ns ++ [n]) :=
  (hm q h.ready hw).weaken fun _ _ hr => (h.trans hr).weaken (by omega)

theorem Opens.after (hm : Opens allowed bound m) (h : Passes allowed j p q ns) (hplain : q.Plain)
    (hw : q.weight < bound) :
    Meets allowed q m fun n r => Passes allowed 1 p r (ns ++ [n]) :=
  (hm q h.ready hplain hw).weaken fun _ _ hr => (h.trans hr).weaken (by omega)

theorem Collects.after {m : Parse (List Node)} (hm : Collects allowed bound k m)
    (h : Passes allowed j p q ns) (hw : q.weight < bound) :
    Meets allowed q m fun ms r => Passes allowed j p r (ns ++ ms) :=
  (hm q h.ready hw).weaken fun _ _ hr => h.append hr

theorem Offers.after {m : Parse (Option Node)} (hm : Offers allowed bound m)
    (h : Passes allowed j p q ns) (hw : q.weight < bound) :
    Meets allowed q m fun o r => Passes allowed j p r (ns ++ o.toList) :=
  (hm q h.ready hw).weaken fun _ _ hr => h.append hr

theorem Consumes.some (hm : Consumes allowed bound m) :
    Offers allowed bound (Option.some <$> m) := fun q hq hw =>
  (hm q hq hw).map fun _ _ hr => hr.weaken (by omega)

theorem offers_none : Offers allowed bound (Pure.pure none) := fun _ hq _ => .pure (.refl hq)

/-- Items up to where a test on the state holds. -/
theorem meets_many {stop : Parse Bool} {test : Parser → Bool}
    (hstop : ∀ q, stop.run.run q = (.ok (test q), q))
    (hitem : ∀ q : Parser, q.Ready allowed → test q = false → q.weight < bound →
      Meets allowed q item fun n r => Passes allowed 1 q r [n])
    (hfuel : bound ≤ fuel) (h : q.Ready allowed) (hw : q.weight < bound) :
    Meets allowed q (many fuel stop item) fun ns r =>
      Passes allowed 0 q r ns ∧ test r = true := by
  refine (meets_loop (fun acc r => Passes allowed 0 q r acc.reverse)
    (fun acc r => Passes allowed 0 q r acc.reverse ∧ test r = true) (fun acc r hacc => ?_) fuel [] q
      (.refl h) (by omega)).bind fun _ _ hns => .pure hns
  refine .run_bind (hstop r) (.ite (fun htest => .pure (.last ⟨hacc, htest⟩)) fun htest => ?_)
  refine (hitem r hacc.ready (by simpa using htest) (hacc.within hw)).bind fun n s hn => ?_
  refine .pure (.more ?_ hn.lt)
  rw [List.reverse_cons]
  exact hacc.append hn

theorem collects_commaList (hitem : Consumes allowed bound item) (hfuel : bound ≤ fuel)
    (close : TokenKind) : Collects allowed bound 0 (commaList fuel close item) := by
  intro q h hw
  refine (meets_repeat (fun acc r => Passes allowed 0 q r acc.reverse) (fun acc r hacc => ?_) fuel
    (.refl h) (by omega)).bind fun _ _ hns => .pure hns
  refine .run_bind (run_nextIs close r) (.ite (fun _ => .pure (.last hacc)) fun _ => ?_)
  refine (hitem r hacc.ready (hacc.within hw)).bind fun n s hn => ?_
  refine (meets_skip hn rfl).bind fun b t ht => .pure ?_
  have hnext : Passes allowed 0 q t (n :: acc).reverse := by
    rw [List.reverse_cons]
    exact hacc.append ht.1
  cases b with
  | false => exact .last hnext
  | true => exact .more hnext ht.1.lt

theorem collects_bodyUntilBrace (hitem : Consumes allowed bound item) (hfuel : bound ≤ fuel) :
    Collects allowed bound 1 (bodyUntilBrace fuel item) := by
  intro q h hw
  refine Settles.bind (meets_many (run_nextIs .rightBrace) (fun r hr _ hwr => ?_) hfuel h hw) ?_
  · exact .current_bind (.ite (fun _ => meets_complain hr _) fun _ => hitem r hr hwr)
  · rintro ns r ⟨hns, hbrace⟩
    have hplain : r.Plain := by rw [Parser.Plain, of_decide_eq_true hbrace]; rfl
    exact (meets_advance hns hplain).bind fun _ _ hs => .pure hs

end Lists

end Parse

end MonkeyFormat
