import MonkeyFormat.Proofs.Consumption
import MonkeyFormat.Proofs.Onward
import MonkeyFormat.Proofs.RegroupedTrees

set_option autoImplicit false

/-! # Parsing comes to an end

The measure that goes down is the weight of the tokens to come, where a double angle counts twice:
the position alone would not do, since the first half of a double angle is taken without it moving.

Productions that look at the next token first are known to consume it. Others start with whatever
token comes next, perhaps the end token, which stays; they ask for another token later on, so the
weight goes down from every state that they start from. -/

namespace MonkeyFormat

/-- No literal's value is a matter of fuel. -/
theorem Literal.value_ne_exhausted (kind : TokenKind) (raw : String) :
    value kind raw ≠ .error .exhausted := by
  have hdigits {α : Type} (p : Char → Bool) (read : String → Option α) (f : α → Value) :
      (do let digits ← dropSuffix p raw; let a ← readable (read digits); pure (f a)) ≠
        Except.error Fault.exhausted := by
    unfold dropSuffix
    split
    · exact nofun
    · next c cs _ =>
      show (do let a ← readable (read _); pure (f a)) ≠ _
      cases read (if p c then String.ofList cs.reverse else raw) with
      | none => exact nofun
      | some a => exact nofun
  unfold value
  split
  · exact hdigits _ _ _
  · exact hdigits _ _ _
  · exact nofun
  · exact nofun
  · split <;> exact nofun

namespace Parse

variable {α β : Type} {bound fuel j k : Nat} {p : Parser}

/-- The faults that say something about the source. -/
abbrev Genuine (e : Fault) : Prop := e ≠ .exhausted

theorem ready_of_endsOnce (h : EndsOnce p.rest) : p.Ready Genuine where
  reports t _ := by
    constructor
    · exact fun _ => nofun
    · exact fun _ _ => nofun
    · intro _ e he hexhausted
      rw [hexhausted] at he
      exact Literal.value_ne_exhausted t.kind t.text he
  ends := h

/-- With enough fuel the production gives an answer, and at least the given weight is gone if it
succeeds. -/
def Spends (bound k : Nat) (m : Parse α) : Prop :=
  ∀ p : Parser, EndsOnce p.rest → p.weight < bound →
    Settles (fun e _ => Genuine e) p m fun _ q => q.weight + k ≤ p.weight

/-! ## What is known of productions -/

section Known

variable {m : Parse α}

theorem spends_of_meets
    (h : ∀ p : Parser, p.Ready Genuine → p.weight < bound →
      Meets Genuine p m fun _ q => q.weight + k ≤ p.weight) : Spends bound k m :=
  fun p hp hw => (h p (ready_of_endsOnce hp) hw).weaken_fault fun _ _ he => he.1

theorem Consumes.spends {m : Parse Node} (h : Consumes Genuine bound m) : Spends bound 1 m :=
  spends_of_meets fun p hp hw => (h p hp hw).weaken fun _ _ hq => hq.weight

theorem Collects.spends {m : Parse (List Node)} (h : Collects Genuine bound k m) :
    Spends bound k m :=
  spends_of_meets fun p hp hw => (h p hp hw).weaken fun _ _ hq => hq.weight

theorem Offers.spends {m : Parse (Option Node)} (h : Offers Genuine bound m) : Spends bound 0 m :=
  spends_of_meets fun p hp hw => (h p hp hw).weaken fun _ _ hq => hq.weight

/-- Without fuel there are no states to speak of. -/
theorem spends_zero : Spends 0 k m := fun _ _ hw => absurd hw (Nat.not_lt_zero _)

end Known

/-! ## Steps of a production -/

section Rules

variable {m m' : Parse α} {f : α → Parse β}

/-- Both parts of a production spend their share. -/
theorem Spends.seq [Onward m] (hm : Spends bound j m) (hf : ∀ a, Spends bound k (f a)) :
    Spends bound (j + k) (m >>= f) := by
  intro p hp hw
  have hpart : Settles (fun e _ => Genuine e) p m fun _ q =>
      EndsOnce q.rest ∧ q.weight + j ≤ p.weight := by
    refine (hm p hp hw).and_ok fun a q hrun hq => ⟨?_, hq⟩
    have hreaches : p.Reaches (m.run.run p).2 := Onward.reaches p
    rw [hrun] at hreaches
    exact hreaches.later.ends hp
  refine hpart.bind fun a q hq => (hf a q hq.1 (by omega)).weaken fun b r hr => ?_
  omega

/-- What the first part spends is spent. -/
theorem Spends.bind [Onward m] (hm : Spends bound k m) (hf : ∀ a, Spends bound 0 (f a)) :
    Spends bound k (m >>= f) := fun p hp hw =>
  (hm.seq hf p hp hw).weaken fun _ _ hq => by omega

/-- What the second part spends is spent. -/
theorem Spends.next [Onward m] (hm : Spends bound j m) (hf : ∀ a, Spends bound k (f a)) :
    Spends bound k (m >>= f) := fun p hp hw =>
  (hm.seq hf p hp hw).weaken fun _ _ hq => by omega

theorem Spends.pure (a : α) : Spends bound 0 (Pure.pure a : Parse α) := fun _ _ _ =>
  Settles.pure le_rfl

theorem Spends.map {g : α → β} (hm : Spends bound k m) : Spends bound k (g <$> m) :=
  fun p hp hw => (hm p hp hw).map fun _ _ hq => hq

theorem Spends.ite {c : Prop} [Decidable c] (hm : Spends bound k m) (hm' : Spends bound k m') :
    Spends bound k (if c then m else m') := fun p hp hw =>
  .ite (fun _ => hm p hp hw) fun _ => hm' p hp hw

/-- Either of two parts, and what follows both. -/
theorem Spends.branch {i : Nat} {c : Prop} [Decidable c] [Onward m] [Onward m']
    (hm : Spends bound i m) (hm' : Spends bound j m') (hf : ∀ a, Spends bound k (f a)) :
    Spends bound k (if c then m >>= f else m' >>= f) := .ite (hm.next hf) (hm'.next hf)

theorem spends_complain (c : Complaint) (t : Token) :
    Spends bound k (complain c t : Parse α) := fun _ _ _ => .of_throw rfl nofun

theorem spends_current : Spends bound 0 current := fun _ _ _ => .of_run rfl le_rfl

theorem spends_nextIs (kind : TokenKind) : Spends bound 0 (nextIs kind) := fun _ _ _ =>
  .of_run rfl le_rfl

/-- The end token may come next, and then nothing is spent. -/
theorem spends_advance : Spends bound 0 advance := by
  intro p hp _
  have hready := ready_of_endsOnce hp
  by_cases hend : p.head.kind = .endOfInput
  · exact .of_run (run_advance_end hready hend) le_rfl
  · have hweight := hready.weight_eq hend
    refine .of_run (run_advance_behind hready hend) ?_
    omega

theorem spends_expect (kind : TokenKind) (what : String) (hkind : kind.isPlain = true) :
    Spends bound 1 (expect kind what) :=
  spends_of_meets fun _ hp _ => (meets_expect (.refl hp) what hkind).weaken fun _ _ hq => hq.weight

theorem spends_skip (kind : TokenKind) (hkind : kind.isPlain = true) :
    Spends bound 0 (skip kind) :=
  spends_of_meets fun _ hp _ => (meets_skip (.refl hp) hkind).weaken fun _ _ hq => hq.1.weight

theorem spends_finish (kind : String) (first : Span) (fields : Fields) :
    Spends bound 0 (finish kind first fields) := fun p _ _ =>
  .of_run (run_finish kind first fields p) le_rfl

end Rules

/-! ## Productions that start with any token -/

section Nested

variable (fuel : Nat)

theorem spends_generics : Spends fuel 0 (generics fuel (types fuel)) := by
  cases fuel with
  | zero => exact spends_zero
  | succ n =>
    have htypes : Consumes Genuine n (types n.succ) := (consumes_types _).mono n.le_succ
    exact spends_of_meets fun p hp hw =>
      (meets_generics htypes n.lt_succ_self hp hw).weaken fun _ _ hq => hq.weight

theorem spends_params : Spends fuel 1 (params fuel (types fuel)) := by
  cases fuel with
  | zero => exact spends_zero
  | succ n => exact (collects_params ((consumes_types n.succ).mono n.le_succ) n.lt_succ_self).spends

theorem spends_returnType : Spends fuel 0 (returnType (types fuel)) :=
  Offers.spends fun q hq hw => offers_returnType (consumes_types fuel) q hq (by omega)

theorem spends_arguments : Spends fuel 1 (arguments fuel (expression fuel)) := by
  cases fuel with
  | zero => exact spends_zero
  | succ n =>
    exact (collects_arguments ((consumes_expression n.succ).mono n.le_succ) n.lt_succ_self).spends

theorem consumes_blockStatement : Consumes Genuine fuel (block fuel (statement fuel)) := by
  cases fuel with
  | zero => exact fun _ _ hw => absurd hw (Nat.not_lt_zero _)
  | succ n => exact consumes_block ((consumes_statement n.succ).mono n.le_succ) n.lt_succ_self

theorem spends_byteSuffix : Spends fuel 0 byteSuffix := by
  refine spends_of_meets fun p hp _ => (meets_byteSuffix hp).weaken ?_
  rintro _ _ (⟨-, rfl⟩ | ⟨⟨hkind, -⟩, -, rfl⟩)
  · exact le_rfl
  · rw [hp.weight_eq (by simp [hkind])]
    exact Nat.le_add_left _ _

theorem spends_array : Spends fuel 1 (array fuel (expression fuel)) := by
  refine .next spends_advance fun first => ?_
  refine .next (collects_commaList (consumes_expression fuel) le_rfl _).spends fun ns => ?_
  refine .bind (spends_expect .rightBracket _ rfl) fun _ => ?_
  exact .next (spends_byteSuffix fuel) fun byte => spends_finish _ _ _

theorem spends_dictionary : Spends fuel 1 (dictionary fuel (expression fuel)) := by
  have hentry : Consumes Genuine fuel (entry (expression fuel)) :=
    consumes_entry (consumes_expression fuel)
  refine .next spends_advance fun first => ?_
  refine .next (collects_commaList hentry le_rfl _).spends fun ns => ?_
  exact .bind (spends_expect .rightBrace _ rfl) fun _ => spends_finish _ _ _

theorem spends_sizedArray (first : Token) (ts : Option Node) :
    Spends fuel 1 (sizedArray (expression fuel) first ts) := by
  refine .bind (spends_expect .leftBracket _ rfl) fun _ => ?_
  refine .next (consumes_expression fuel).spends fun size => ?_
  refine .next (spends_expect .rightBracket _ rfl) fun _ => ?_
  exact .next (spends_byteSuffix fuel) fun byte => spends_finish _ _ _

theorem spends_construction : Spends fuel 1 (construction fuel (expression fuel)) := by
  refine .next spends_advance fun first => .next (spends_nextIs .leftBracket) fun isArray => ?_
  refine .ite (spends_sizedArray fuel first none) (.next spends_current fun typeFirst => ?_)
  refine .next (consumes_scopedName fuel).spends fun name => ?_
  refine .next (spends_generics fuel) fun gs => .next spends_current fun t => ?_
  refine .ite ?_ (.next (spends_finish _ _ _) fun ts => spends_sizedArray fuel first (some ts))
  extract_lets call
  have hcall (x : PUnit) : Spends fuel 1 (call x) :=
    .bind (spends_arguments fuel) fun args => spends_finish _ _ _
  exact .ite (.next (spends_complain (k := 0) _ t) hcall) (hcall ())

theorem spends_returnStatement : Spends fuel 1 (returnStatement fuel) := by
  refine .next spends_advance fun first => .next (spends_nextIs .semicolon) fun isBare => ?_
  refine .branch (.pure none) (consumes_expression fuel).some.spends fun argument => ?_
  exact .bind (spends_expect .semicolon _ rfl) fun _ => spends_finish _ _ _

theorem spends_throwStatement : Spends fuel 1 (throwStatement fuel) := by
  refine .next spends_advance fun first => ?_
  refine .next (consumes_expression fuel).spends fun argument => ?_
  exact .bind (spends_expect .semicolon _ rfl) fun _ => spends_finish _ _ _

theorem spends_jump : Spends fuel 1 jump := by
  refine .next spends_advance fun first => ?_
  exact .bind (spends_expect .semicolon _ rfl) fun _ => spends_finish _ _ _

theorem spends_ifStatement : Spends fuel 1 (ifStatement fuel (statement fuel)) := by
  refine .next spends_advance fun first => ?_
  refine .bind (consumes_parenTest fuel).spends fun test => ?_
  refine .next (consumes_statement fuel).spends fun consequent => ?_
  refine .next (spends_skip .elseWord rfl) fun hasElse => ?_
  exact .branch (consumes_statement fuel).some.spends (.pure none) fun _ => spends_finish _ _ _

theorem spends_whileStatement : Spends fuel 1 (whileStatement fuel (statement fuel)) := by
  refine .next spends_advance fun first => ?_
  refine .bind (consumes_parenTest fuel).spends fun test => ?_
  exact .next (consumes_statement fuel).spends fun body => spends_finish _ _ _

theorem spends_doStatement : Spends fuel 1 (doStatement fuel (statement fuel)) := by
  refine .next spends_advance fun first => ?_
  refine .bind (consumes_statement fuel).spends fun body => ?_
  refine .next (spends_expect .whileWord _ rfl) fun _ => ?_
  refine .next (consumes_parenTest fuel).spends fun test => ?_
  exact .next (spends_expect .semicolon _ rfl) fun _ => spends_finish _ _ _

theorem spends_variableList (first : Span) (attrs : Option Node) :
    Spends fuel 1 (variableList fuel first attrs) := by
  refine .next spends_advance fun tok => .bind ?_ fun ns => spends_finish _ _ _
  exact spends_of_meets fun p hp hw =>
    (meets_declarators tok.text hp hw).weaken fun _ _ hq => hq.weight

/-- The parenthesis behind the first token is what a header cannot do without. -/
theorem spends_forStatement : Spends fuel 1 (forStatement fuel (statement fuel)) := by
  refine .next spends_advance fun first => .bind (spends_expect .leftParen _ rfl) fun _ => ?_
  refine .next spends_current fun t => ?_
  -- what the header starts with is read in one of three ways, and each goes on like this
  extract_lets header
  have hheader (init : Option Node) : Spends fuel 0 (header init) := by
    refine .next (spends_expect .semicolon _ rfl) fun _ => ?_
    refine .next (spends_nextIs .semicolon) fun _ => ?_
    refine .branch (.pure none) (consumes_expression fuel).some.spends fun test => ?_
    refine .next (spends_expect .semicolon _ rfl) fun _ => ?_
    refine .next (spends_nextIs .rightParen) fun _ => ?_
    refine .branch (.pure none) (consumes_sequence fuel).some.spends fun update => ?_
    refine .next (spends_expect .rightParen _ rfl) fun _ => ?_
    exact .next (consumes_statement fuel).spends fun body => spends_finish _ _ _
  refine .ite (.next (spends_variableList fuel t.span none).map hheader) ?_
  exact .branch (.pure none) (consumes_sequence fuel).some.spends hheader

theorem consumes_case : Consumes Genuine fuel (switchCase fuel (statement fuel)) := by
  cases fuel with
  | zero => exact fun _ _ hw => absurd hw (Nat.not_lt_zero _)
  | succ n => exact consumes_switchCase ((consumes_statement n.succ).mono n.le_succ) n.lt_succ_self

theorem spends_switchStatement : Spends fuel 1 (switchStatement fuel (statement fuel)) := by
  refine .next spends_advance fun first => .bind (consumes_parenTest fuel).spends fun test => ?_
  refine .next (spends_expect .leftBrace _ rfl) fun _ => .next (j := 0) ?_ fun cases => ?_
  · exact spends_of_meets fun p hp hw => (meets_many (run_nextIs .rightBrace)
      (fun q hq _ hwq => consumes_case fuel q hq hwq) le_rfl hp hw).weaken fun _ _ hq => hq.1.weight
  · exact .next (spends_expect .rightBrace _ rfl) fun _ => spends_finish _ _ _

/-- Handlers as long as the word for one comes next. -/
theorem spends_catchClauses : Spends fuel 0 (many fuel (do pure !(← nextIs .catchWord))
    (catchClause fuel (statement fuel))) := by
  cases fuel with
  | zero => exact spends_zero
  | succ n =>
    have hstmt : Consumes Genuine n (statement n.succ) := (consumes_statement _).mono n.le_succ
    have hstop (p : Parser) : (do pure !(← nextIs .catchWord) : Parse Bool).run.run p =
        (.ok !decide (p.head.kind = .catchWord), p) := rfl
    refine spends_of_meets fun p hp hw => (meets_many hstop (fun q hq hcatch hwq => ?_) le_rfl
      hp hw).weaken fun _ _ hq => hq.1.weight
    have hkind : q.head.kind = .catchWord := by simpa using hcatch
    exact opens_catchClause hstmt n.lt_succ_self q hq (.of hkind rfl) hwq

theorem spends_tryStatement : Spends fuel 1 (tryStatement fuel (statement fuel)) := by
  refine .next spends_advance fun first => ?_
  refine .bind (consumes_blockStatement fuel).spends fun body => ?_
  refine .next (spends_catchClauses fuel) fun catches => ?_
  refine .next (spends_skip .finallyWord rfl) fun hasFinally => ?_
  refine .branch (consumes_blockStatement fuel).some.spends (.pure none) fun finalizer => ?_
  refine .ite (.next spends_current fun t => ?_) (spends_finish _ _ _)
  exact .next (spends_complain (k := 0) _ t) fun _ => spends_finish _ _ _

theorem spends_usingDeclaration : Spends fuel 1 (usingDeclaration fuel) := by
  refine .next spends_advance fun first => .bind (consumes_scopedName fuel).spends fun name => ?_
  refine .next (spends_skip .asWord rfl) fun renames => ?_
  refine .branch (consumes_identifier fuel).some.spends (.pure none) fun shortName => ?_
  exact .next (spends_expect .semicolon _ rfl) fun _ => spends_finish _ _ _

theorem spends_importDeclaration : Spends fuel 1 (importDeclaration fuel) := by
  refine .next spends_advance fun first => .bind (consumes_scopedName fuel).spends fun name => ?_
  exact .next (spends_expect .semicolon _ rfl) fun _ => spends_finish _ _ _

section Attributed

variable (first : Span) (attrs : Option Node)

theorem spends_moduleDeclaration :
    Spends fuel 1 (moduleDeclaration fuel (topLevel (fuel + 1)) first attrs) := by
  have hitem : Consumes Genuine fuel (topLevel (fuel + 1)) := (consumes_declarations (fuel + 1)).2
  refine .next spends_advance fun _ => .bind (consumes_identifier fuel).spends fun name => ?_
  refine .next (spends_expect .leftBrace _ rfl) fun opening => ?_
  refine .next (collects_bodyUntilBrace hitem le_rfl).spends fun ns => ?_
  exact .next (spends_finish _ _ _) fun body => spends_finish _ _ _

theorem spends_classDeclaration :
    Spends fuel 1 (classDeclaration fuel (classElement fuel) first attrs) := by
  have hitem : Consumes Genuine fuel (classElement fuel) :=
    consumes_classElementOf ((consumes_declarations fuel).1 false)
  refine .next spends_advance fun _ => .bind (consumes_identifier fuel).spends fun name => ?_
  refine .next (spends_skip .extendsWord rfl) fun extends' => ?_
  refine .branch (consumes_scopedName fuel).some.spends (.pure none) fun base => ?_
  refine .next (spends_expect .leftBrace _ rfl) fun opening => ?_
  refine .next (collects_bodyUntilBrace hitem le_rfl).spends fun ns => ?_
  exact .next (spends_finish _ _ _) fun body => spends_finish _ _ _

theorem spends_functionDeclaration : Spends fuel 1 (functionDeclaration fuel first attrs) := by
  refine .next spends_advance fun _ => .bind (consumes_identifier fuel).spends fun name => ?_
  refine .next (spends_params fuel) fun ps => .next (spends_returnType fuel) fun result => ?_
  refine .next (spends_skip .semicolon rfl) fun isDeclared => ?_
  exact .branch (.pure none) (consumes_blockStatement fuel).some.spends fun _ => spends_finish _ _ _

theorem spends_enumDeclaration : Spends fuel 1 (enumDeclaration fuel first attrs) := by
  refine .next spends_advance fun _ => .next (spends_nextIs .ident) fun isNamed => ?_
  refine .branch (consumes_identifier fuel).some.spends (.pure none) fun name => ?_
  refine .bind (spends_expect .leftBrace _ rfl) fun opening => ?_
  refine .next (collects_commaList (consumes_enumMember fuel) le_rfl _).spends fun ns => ?_
  refine .next (spends_expect .rightBrace _ rfl) fun _ => ?_
  refine .next (spends_finish _ _ _) fun body => .next (spends_finish _ _ _) fun n => ?_
  exact .next (spends_skip .semicolon rfl) fun _ => .pure n

theorem spends_typedefDeclaration : Spends fuel 1 (typedefDeclaration fuel first attrs) := by
  refine .next spends_advance fun _ => .bind (consumes_identifier fuel).spends fun name => ?_
  refine .next (spends_returnType fuel) fun o => ?_
  cases o with
  | none => exact .next spends_current fun t => spends_complain _ t
  | some ts => exact .next (spends_expect .semicolon _ rfl) fun _ => spends_finish _ _ _

end Attributed

end Nested

/-! ## All productions -/

/-- The productions for constructs that have to be there. What they nest is read with the same
fuel. -/
inductive Obligatory (fuel : Nat) : (α : Type) → Parse α → Prop
  | topLevel : Obligatory fuel Node (topLevel (fuel + 1))
  | usingDeclaration : Obligatory fuel Node (usingDeclaration fuel)
  | importDeclaration : Obligatory fuel Node (importDeclaration fuel)
  | declaration (allowModule : Bool) : Obligatory fuel Node (declaration allowModule fuel)
  | moduleDeclaration (first : Span) (attrs : Option Node) :
    Obligatory fuel Node (moduleDeclaration fuel (topLevel (fuel + 1)) first attrs)
  | classDeclaration (first : Span) (attrs : Option Node) :
    Obligatory fuel Node (classDeclaration fuel (classElement fuel) first attrs)
  | classElement : Obligatory fuel Node (classElement fuel)
  | functionDeclaration (first : Span) (attrs : Option Node) :
    Obligatory fuel Node (functionDeclaration fuel first attrs)
  | params : Obligatory fuel (List Node) (params fuel (types fuel))
  | typedIdentifier : Obligatory fuel Node (typedIdentifier (types fuel))
  | variableList (first : Span) (attrs : Option Node) :
    Obligatory fuel Node (variableList fuel first attrs)
  | enumDeclaration (first : Span) (attrs : Option Node) :
    Obligatory fuel Node (enumDeclaration fuel first attrs)
  | typedefDeclaration (first : Span) (attrs : Option Node) :
    Obligatory fuel Node (typedefDeclaration fuel first attrs)
  | types : Obligatory fuel Node (types fuel)
  | singleType : Obligatory fuel Node (singleType fuel (types fuel))
  | block : Obligatory fuel Node (block fuel (statement fuel))
  | statement : Obligatory fuel Node (statement fuel)
  | parenTest : Obligatory fuel Node (parenTest fuel)
  | ifStatement : Obligatory fuel Node (ifStatement fuel (statement fuel))
  | whileStatement : Obligatory fuel Node (whileStatement fuel (statement fuel))
  | doStatement : Obligatory fuel Node (doStatement fuel (statement fuel))
  | forStatement : Obligatory fuel Node (forStatement fuel (statement fuel))
  | switchStatement : Obligatory fuel Node (switchStatement fuel (statement fuel))
  | tryStatement : Obligatory fuel Node (tryStatement fuel (statement fuel))
  | returnStatement : Obligatory fuel Node (returnStatement fuel)
  | throwStatement : Obligatory fuel Node (throwStatement fuel)
  | jump : Obligatory fuel Node jump
  | sequence : Obligatory fuel Node (sequence fuel)
  | expression : Obligatory fuel Node (expression fuel)
  | assignment : Obligatory fuel Node (assignment fuel (expression fuel))
  | conditional : Obligatory fuel Node (conditional fuel (expression fuel))
  | disjunction : Obligatory fuel Node (disjunction fuel (expression fuel))
  | conjunction : Obligatory fuel Node (conjunction fuel (expression fuel))
  | binary (maxRank : Int) : Obligatory fuel Node (binary fuel (expression fuel) fuel maxRank)
  | unary : Obligatory fuel Node (unary fuel (expression fuel))
  | postfixed : Obligatory fuel Node (postfixed fuel (expression fuel))
  | arguments : Obligatory fuel (List Node) (arguments fuel (expression fuel))
  | primary : Obligatory fuel Node (primary fuel (expression fuel))
  | array : Obligatory fuel Node (array fuel (expression fuel))
  | dictionary : Obligatory fuel Node (dictionary fuel (expression fuel))
  | construction : Obligatory fuel Node (construction fuel (expression fuel))
  | identifier : Obligatory fuel Node identifier
  | scopedName : Obligatory fuel Node (scopedName fuel)

/-- The productions for constructs that may be absent. -/
inductive Optional (fuel : Nat) : (α : Type) → Parse α → Prop
  | attributeList : Optional fuel (Option Node) (attributeList fuel)
  | returnType : Optional fuel (Option Node) (returnType (types fuel))
  | generics : Optional fuel (Option (List Node)) (generics fuel (types fuel))
  | byteSuffix : Optional fuel (Option String) byteSuffix

variable {m : Parse α}

theorem Obligatory.onward (h : Obligatory fuel α m) : Onward m := by
  cases h <;> infer_instance

theorem Optional.onward (h : Optional fuel α m) : Onward m := by
  cases h <;> infer_instance

theorem Obligatory.spends (h : Obligatory fuel α m) : Spends fuel 1 m := by
  cases fuel with
  | zero => exact spends_zero
  | succ n =>
    -- what is nested is read with the fuel of the whole, of which less would do
    have htypes : Consumes Genuine n (Parse.types (n + 1)) := (consumes_types _).mono n.le_succ
    have hexpr : Consumes Genuine n (Parse.expression (n + 1)) :=
      (consumes_expression _).mono n.le_succ
    have hbinary (maxRank : Int) : Consumes Genuine (n + 1)
        (Parse.binary (n + 1) (Parse.expression (n + 1)) (n + 1) maxRank) :=
      (consumes_binary hexpr n.lt_succ_self (n + 1) maxRank).mono (by omega)
    cases h with
    | topLevel => exact (consumes_declarations (n + 2)).2.spends
    | usingDeclaration => exact spends_usingDeclaration _
    | importDeclaration => exact spends_importDeclaration _
    | declaration allowModule => exact ((consumes_declarations _).1 allowModule).spends
    | moduleDeclaration first attrs => exact spends_moduleDeclaration _ first attrs
    | classDeclaration first attrs => exact spends_classDeclaration _ first attrs
    | classElement =>
      exact (consumes_classElementOf ((consumes_declarations _).1 false)).spends
    | functionDeclaration first attrs => exact spends_functionDeclaration _ first attrs
    | params => exact spends_params _
    | typedIdentifier => exact (consumes_typedIdentifier htypes).spends
    | variableList first attrs => exact spends_variableList _ first attrs
    | enumDeclaration first attrs => exact spends_enumDeclaration _ first attrs
    | typedefDeclaration first attrs => exact spends_typedefDeclaration _ first attrs
    | types => exact (consumes_types _).spends
    | singleType => exact (consumes_singleType htypes n.lt_succ_self).spends
    | block => exact (consumes_blockStatement _).spends
    | statement => exact (consumes_statement _).spends
    | parenTest => exact (consumes_parenTest _).spends
    | ifStatement => exact spends_ifStatement _
    | whileStatement => exact spends_whileStatement _
    | doStatement => exact spends_doStatement _
    | forStatement => exact spends_forStatement _
    | switchStatement => exact spends_switchStatement _
    | tryStatement => exact spends_tryStatement _
    | returnStatement => exact spends_returnStatement _
    | throwStatement => exact spends_throwStatement _
    | jump => exact spends_jump _
    | sequence => exact (consumes_sequence _).spends
    | expression => exact (consumes_expression _).spends
    | assignment => exact (consumes_assignment hexpr n.lt_succ_self).spends
    | conditional => exact (consumes_conditional hexpr n.lt_succ_self).spends
    | disjunction => exact (consumes_disjunction hexpr n.lt_succ_self).spends
    | conjunction => exact (consumes_logical (hbinary loosestRank) le_rfl rfl).spends
    | binary maxRank => exact (hbinary maxRank).spends
    | unary => exact (consumes_unary hexpr n.lt_succ_self).spends
    | postfixed => exact (consumes_postfixed hexpr n.lt_succ_self).spends
    | arguments => exact spends_arguments _
    | primary => exact (consumes_primary hexpr n.lt_succ_self).spends
    | array => exact spends_array _
    | dictionary => exact spends_dictionary _
    | construction => exact spends_construction _
    | identifier => exact (consumes_identifier _).spends
    | scopedName => exact (consumes_scopedName _).spends

theorem Optional.spends (h : Optional fuel α m) : Spends fuel 0 m := by
  cases fuel with
  | zero => exact spends_zero
  | succ n =>
    cases h with
    | attributeList => exact (offers_attributeList n).spends
    | returnType => exact spends_returnType _
    | generics => exact spends_generics _
    | byteSuffix => exact spends_byteSuffix _

/-- From the state the production gives an answer, and gets to it step by step without passing the
end token. -/
structure Halts (p : Parser) (m : Parse α) : Prop where
  answers : (m.run.run p).1 ≠ .error .exhausted
  reaches : p.Reaches (m.run.run p).2
  /-- The position of the end token is the last one that steps lead to. -/
  within : ∀ q, p.Reaches q → EndsOnce q.rest ∧ q.position < p.position + p.rest.length

theorem Spends.halts [Onward m] (hm : Spends bound k m) (hp : EndsOnce p.rest)
    (hw : p.weight < bound) : Halts p m where
  answers := by
    intro hexhausted
    rcases hrun : m.run.run p with ⟨r, q⟩
    rw [hrun] at hexhausted
    subst hexhausted
    exact (hm p hp hw).error hrun rfl
  reaches := Onward.reaches p
  within _ hq := ⟨hq.later.ends hp, hq.position_lt hp⟩

/-- Start rules take as much fuel as the tokens to come can need. -/
theorem halts_startRule (o : Options) (hp : EndsOnce p.rest) : Halts p (startRule o) := by
  have hspends : Spends (p.weight + 1) 0 (startRule o) := spends_of_meets fun _ hq _ =>
    (meets_startRule (fun _ => .inr fun _ => nofun) hq).weaken fun _ _ hr => hr.1.weight
  exact hspends.halts hp (Nat.lt_succ_self _)

/-- From every list of tokens that ends with its only end token, whole sources, expressions and
fragments are read to an answer, and the end token is never passed. In between, every production for
a construct that has to be there makes the weight of the tokens to come go down when it succeeds,
and the others never make it grow. -/
theorem parsing_ends :
    (∀ (tokens : List Token) (source : String) (origin name : Option String), EndsOnce tokens →
      ∀ entry ∈ [fueled program, fueled singleExpression, fueled (fragment name)],
        Halts (.start tokens source origin) entry) ∧
    ∀ (fuel : Nat) (p : Parser), EndsOnce p.rest → p.weight < fuel → ∀ (α : Type) (m : Parse α),
      (Obligatory fuel α m →
        Halts p m ∧ ∀ a q, m.run.run p = (.ok a, q) → q.weight < p.weight) ∧
      (Optional fuel α m → Halts p m ∧ (m.run.run p).2.weight ≤ p.weight) := by
  constructor
  · intro tokens source origin name hends entry hentry
    have hrule (o : Options) : Halts (.start tokens source origin) (startRule o) :=
      halts_startRule o hends
    simp only [List.mem_cons, List.not_mem_nil, or_false] at hentry
    rcases hentry with rfl | rfl | rfl
    · exact hrule { rule := .program }
    · exact hrule { rule := .expression }
    · exact hrule { rule := .fragment, fragment := name }
  · intro fuel p hends hw α m
    constructor
    · intro h
      have := h.onward
      exact ⟨h.spends.halts hends hw, fun a q hrun => (h.spends p hends hw).ok hrun⟩
    · intro h
      have := h.onward
      exact ⟨h.spends.halts hends hw, (Onward.reaches p).later.weight⟩

/-- Two generic types that one double angle closes. -/
theorem parsing_ends_nestedGenerics :
    ∃ p : Parser, p = .start (nestedGenerics [⟨.shiftRight, ">>", ⟨10, 12, 1, 11, 1, 13⟩⟩])
        "a as b<c<d>>" none ∧
      EndsOnce p.rest ∧ p.weight < 11 ∧ Halts p (fueled singleExpression) ∧
      (∃ n q, (expression 11).run.run p = (.ok n, q) ∧ q.weight < p.weight) ∧
      ((attributeList 11).run.run p).2.weight ≤ p.weight := by
  let p : Parser := .start (nestedGenerics [⟨.shiftRight, ">>", ⟨10, 12, 1, 11, 1, 13⟩⟩])
    "a as b<c<d>>" none
  have hends : EndsOnce p.rest := ⟨_, _, rfl, rfl, by decide⟩
  have hw : p.weight < 11 := by decide
  have hparses : ((expression 11).run.run p).1.toBool = true := by decide +kernel
  obtain ⟨hentries, hproductions⟩ := parsing_ends
  obtain ⟨hobligatory, -⟩ := hproductions 11 p hends hw Node (expression 11)
  obtain ⟨-, hoptional⟩ := hproductions 11 p hends hw (Option Node) (attributeList 11)
  have hentry : Halts p (fueled singleExpression) := hentries _ _ _ none hends _ (by simp)
  refine ⟨p, rfl, hends, hw, hentry, ?_, (hoptional .attributeList).2⟩
  rcases hrun : (expression 11).run.run p with ⟨e | n, q⟩
  · rw [hrun] at hparses
    cases hparses
  · exact ⟨n, q, rfl, (hobligatory .expression).2 n q hrun⟩

-- Over the first half of a double angle the position stands still.
example :
    let p : Parser := .start [⟨.shiftRight, ">>", ⟨0, 2, 1, 1, 1, 3⟩⟩,
      ⟨.endOfInput, "", ⟨2, 2, 1, 3, 1, 3⟩⟩] ">>" none
    (closeAngle.run.run p).2.position = p.position ∧ p.weight = 3 ∧
      (closeAngle.run.run p).2.weight = 2 := by decide

end Parse

end MonkeyFormat
