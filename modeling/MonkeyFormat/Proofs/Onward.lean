import MonkeyFormat.Grammar.Program
import MonkeyFormat.Proofs.ClosingAngles

set_option autoImplicit false

/-! # How the parser's state moves

Whatever a production does, it moves the parser by three kinds of steps only: it passes a token
other than the end token, it notes which token it consumed last, or it takes the first half of a
double angle. So the position never decreases, the end token is never passed, and the weight of the
tokens to come never grows, however the production ends and whatever fuel it was given. -/

namespace MonkeyFormat

/-- The last of the tokens is the only end token among them. -/
def EndsOnce (tokens : List Token) : Prop :=
  ∃ front last, tokens = front ++ [last] ∧ last.kind = .endOfInput ∧
    ∀ t ∈ front, t.kind ≠ .endOfInput

theorem EndsOnce.ne_nil {tokens : List Token} (h : EndsOnce tokens) : tokens ≠ [] := by
  obtain ⟨front, last, rfl, -⟩ := h
  simp

/-- The end token is not among the tokens that leave from the front. -/
theorem EndsOnce.tail {t : Token} {ts : List Token} (h : EndsOnce (t :: ts))
    (ht : t.kind ≠ .endOfInput) : EndsOnce ts := by
  obtain ⟨front, last, hfront, hlast, hothers⟩ := h
  cases front with
  | nil =>
    cases hfront
    exact absurd hlast ht
  | cons u front =>
    cases hfront
    exact ⟨front, last, rfl, hlast, fun v hv => hothers v (List.mem_cons_of_mem t hv)⟩

theorem EndsOnce.cons {t : Token} {ts : List Token} (h : EndsOnce ts)
    (ht : t.kind ≠ .endOfInput) : EndsOnce (t :: ts) := by
  obtain ⟨front, last, rfl, hlast, hothers⟩ := h
  exact ⟨t :: front, last, rfl, hlast, List.forall_mem_cons.2 ⟨ht, hothers⟩⟩

namespace Parser

/-- What may happen to the parser's state at once. -/
inductive Step (p : Parser) : Parser → Prop
  /-- A token other than the end token is passed. -/
  | pass {t : Token} {ts : List Token} (hrest : p.rest = t :: ts) (ht : t.kind ≠ .endOfInput) :
    Step p { p with seen := t :: p.seen, rest := ts, last := some t }
  /-- The end token counts as consumed last, and stays. -/
  | stay {t : Token} {ts : List Token} (hrest : p.rest = t :: ts) (ht : t.kind = .endOfInput) :
    Step p { p with last := some t }
  /-- Of a double angle the second half is left. -/
  | halve {t : Token} {ts : List Token} (hrest : p.rest = t :: ts) (ht : t.kind = .shiftRight)
    (first : Token) {second : Token} (hsecond : second.kind = .greater) :
    Step p { p with rest := second :: ts, last := some first }

/-- The parser gets from one state to the other by steps. -/
abbrev Reaches (p q : Parser) : Prop := Relation.ReflTransGen Step p q

/-- What holds between a state and those that steps lead to from it. -/
structure Later (p q : Parser) : Prop where
  position : p.position ≤ q.position
  total : q.position + q.rest.length = p.position + p.rest.length
  weight : q.weight ≤ p.weight
  ends : EndsOnce p.rest → EndsOnce q.rest

theorem weight_cons {p : Parser} {t : Token} {ts : List Token} (h : p.rest = t :: ts) :
    p.weight = t.weight + ts.foldr (fun t n => t.weight + n) 0 := by
  rw [weight, h]
  rfl

variable {p q : Parser}

theorem Step.later (h : p.Step q) : p.Later q := by
  cases h with
  | pass hrest ht =>
    refine ⟨Nat.le_succ _, ?_, ?_, fun hends => (hrest ▸ hends).tail ht⟩
    · rw [hrest, List.length_cons, ← Nat.succ_add_eq_add_succ]
      rfl
    · rw [weight_cons hrest]
      exact Nat.le_add_left _ _
  | stay hrest ht => exact ⟨le_rfl, rfl, le_rfl, id⟩
  | halve hrest ht first hsecond =>
    refine ⟨le_rfl, ?_, ?_, fun hends => ?_⟩
    · rw [hrest]
      rfl
    · -- half of the pair weighs less than the pair
      rw [weight_cons hrest, Token.weight, ht, if_pos rfl, weight_cons rfl, Token.weight, hsecond]
      exact Nat.add_le_add_right (by decide) _
    · exact ((hrest ▸ hends).tail (by simp [ht])).cons (by simp [hsecond])

/-- What each step keeps, any number of them keep. -/
theorem Reaches.later (h : p.Reaches q) : p.Later q := by
  induction h with
  | refl => exact ⟨le_rfl, rfl, le_rfl, id⟩
  | tail _ hstep ih =>
    have hlater := hstep.later
    exact ⟨ih.position.trans hlater.position, hlater.total.trans ih.total,
      hlater.weight.trans ih.weight, fun hends => hlater.ends (ih.ends hends)⟩

/-- The token at the position is the end token at the latest. -/
theorem Reaches.position_lt (h : p.Reaches q) (hends : EndsOnce p.rest) :
    q.position < p.position + p.rest.length := by
  have hpos := List.length_pos_iff.2 (h.later.ends hends).ne_nil
  have htotal := h.later.total
  omega

end Parser

namespace Parse

variable {α β σ : Type}

/-- The production moves the parser by steps. -/
class Onward (m : Parse α) : Prop where
  reaches : ∀ p : Parser, p.Reaches (m.run.run p).2

section Rules

variable {m m' : Parse α} {f : α → Parse β}

theorem Onward.bind (hm : Onward m) (hf : ∀ a, Onward (f a)) : Onward (m >>= f) := by
  constructor
  intro p
  have hfirst := hm.reaches p
  rw [run_bind]
  rcases hrun : m.run.run p with ⟨e | a, q⟩
  · rw [hrun] at hfirst
    exact hfirst
  · rw [hrun] at hfirst
    exact hfirst.trans ((hf a).reaches q)

instance [Onward m] [∀ a, Onward (f a)] : Onward (m >>= f) := .bind ‹_› ‹_›

instance (a : α) : Onward (pure a : Parse α) := ⟨fun _ => .refl⟩

instance (e : Fault) : Onward (throw e : Parse α) := ⟨fun _ => .refl⟩

instance (r : Except Fault α) : Onward (liftM r : Parse α) := by
  constructor
  intro p
  cases r <;> exact .refl

instance {g : α → β} [Onward m] : Onward (g <$> m) := by
  rw [← bind_pure_comp]
  infer_instance

theorem Onward.ite {c : Prop} [Decidable c] (hm : Onward m) (hm' : Onward m') :
    Onward (if c then m else m') := by
  split
  · exact hm
  · exact hm'

instance {c : Prop} [Decidable c] [Onward m] [Onward m'] : Onward (if c then m else m') :=
  .ite ‹_› ‹_›

instance : Onward get := ⟨fun _ => .refl⟩

end Rules

/-! ## Tokens -/

instance : Onward current := by
  unfold current
  infer_instance

instance : Onward second := by
  unfold second
  refine .bind inferInstance fun p => ?_
  split <;> infer_instance

instance : Onward advance := by
  constructor
  intro p
  unfold advance
  rw [run_bind_ok _ (run_get p)]
  cases hrest : p.rest with
  | nil => exact .refl
  | cons t ts =>
    by_cases ht : t.kind = .endOfInput
    · simp only [if_pos ht]
      exact .single (hrest ▸ .stay hrest ht)
    · simp only [if_neg ht]
      exact .single (.pass hrest ht)

instance (kind : TokenKind) : Onward (nextIs kind) := by
  unfold nextIs
  infer_instance

instance (kinds : List TokenKind) : Onward (atAny kinds) := by
  unfold atAny
  infer_instance

instance (kind : TokenKind) (text : String) : Onward (atText kind text) := by
  unfold atText
  infer_instance

instance (c : Complaint) (t : Token) : Onward (complain c t : Parse α) := by
  unfold complain
  infer_instance

instance (kind : TokenKind) : Onward (accept kind) := by
  unfold accept
  infer_instance

instance (kind : TokenKind) : Onward (skip kind) := by
  unfold skip
  infer_instance

instance (kind : TokenKind) (what : String) : Onward (expect kind what) := by
  unfold expect
  infer_instance

instance (kind : String) (first : Span) (fields : Fields) : Onward (finish kind first fields) := by
  unfold finish
  infer_instance

/-! ## Repetition -/

section Repetition

variable {item : Parse Node} [Onward item]

theorem Onward.loop {step : σ → Parse (σ × Bool)} (hstep : ∀ x, Onward (step x)) (fuel : Nat)
    (x : σ) : Onward (loop step fuel x) := by
  induction fuel generalizing x with
  | zero =>
    unfold Parse.loop
    infer_instance
  | succ fuel ih =>
    unfold Parse.loop
    infer_instance

instance {step : σ → Parse (σ × Bool)} [∀ x, Onward (step x)] (fuel : Nat) (x : σ) :
    Onward (loop step fuel x) := .loop ‹_› fuel x

instance {stop : Parse Bool} [Onward stop] (fuel : Nat) : Onward (many fuel stop item) := by
  unfold many
  infer_instance

instance (fuel : Nat) (close : TokenKind) : Onward (commaList fuel close item) := by
  unfold commaList
  infer_instance

instance (fuel : Nat) : Onward (bodyUntilBrace fuel item) := by
  unfold bodyUntilBrace
  infer_instance

instance {production : Nat → Parse α} [∀ fuel, Onward (production fuel)] :
    Onward (fueled production) := by
  unfold fueled
  infer_instance

end Repetition

/-! ## Names and types -/

instance : Onward identifier := by
  unfold identifier
  infer_instance

instance (object property : Node) : Onward (member object property) := by
  unfold member
  infer_instance

instance (fuel : Nat) : Onward (scopedName fuel) := by
  unfold scopedName
  infer_instance

instance : Onward closeAngle := by
  constructor
  intro p
  unfold closeAngle
  rw [run_bind_ok _ (run_current p)]
  split
  · exact Onward.reaches p
  · next hkind =>
    have hrest : p.rest = p.head :: p.rest.drop 1 := by
      rw [Parser.head] at hkind ⊢
      cases hrest : p.rest with
      | nil =>
        rw [hrest] at hkind
        cases hkind
      | cons t ts => rfl
    exact .single (.halve hrest hkind _ rfl)
  · exact Onward.reaches p

section Nested

variable {types : Parse Node} [Onward types] (fuel : Nat)

instance : Onward (generics fuel types) := by
  unfold generics
  infer_instance

instance : Onward (typedIdentifier types) := by
  unfold typedIdentifier
  infer_instance

instance : Onward (params fuel types) := by
  unfold params
  infer_instance

instance : Onward (returnType types) := by
  unfold returnType
  refine .bind inferInstance fun o => ?_
  split <;> infer_instance

instance : Onward (callableType fuel types) := by
  unfold callableType
  infer_instance

instance : Onward (singleType fuel types) := by
  unfold singleType
  refine .bind inferInstance fun first => .bind inferInstance fun _ => ?_
  -- instances are not searched for inside a continuation that has a name
  extract_lets nullable
  have hnullable (part : Node) : Onward (nullable part) := by
    simp only [nullable]
    infer_instance
  infer_instance

instance : Onward (typeList fuel types) := by
  unfold typeList
  infer_instance

end Nested

instance (fuel : Nat) : Onward (types fuel) := by
  induction fuel with
  | zero =>
    unfold types
    infer_instance
  | succ fuel ih =>
    unfold types
    infer_instance

/-! ## Expressions -/

instance : Onward byteSuffix := by
  unfold byteSuffix
  refine .bind inferInstance fun t => .bind inferInstance fun p => ?_
  split <;> infer_instance

instance (op : Token) (argument : Node) : Onward (prefixed op argument) := by
  unfold prefixed
  infer_instance

instance (ops : List Token) (n : Node) : Onward (ops.foldlM (fun n op => prefixed op n) n) := by
  induction ops generalizing n with
  | nil =>
    rw [List.foldlM_nil]
    infer_instance
  | cons op ops ih =>
    rw [List.foldlM_cons]
    infer_instance

instance : Onward binaryOperator := by
  unfold binaryOperator
  infer_instance

instance {operand : Parse Node} [Onward operand] (fuel : Nat) (kind : TokenKind) :
    Onward (logical fuel kind operand) := by
  unfold logical
  refine .bind inferInstance fun first => .loop (fun left => .bind inferInstance fun o => ?_) fuel _
  split <;> infer_instance

section Nested

variable {expr : Parse Node} [Onward expr] (fuel : Nat)

instance : Onward (arguments fuel expr) := by
  unfold arguments
  infer_instance

instance : Onward (array fuel expr) := by
  unfold array
  infer_instance

instance : Onward (entry expr) := by
  unfold entry
  infer_instance

instance : Onward (dictionary fuel expr) := by
  unfold dictionary
  infer_instance

instance (first : Token) (ts : Option Node) : Onward (sizedArray expr first ts) := by
  unfold sizedArray
  infer_instance

instance : Onward (construction fuel expr) := by
  unfold construction
  refine .bind inferInstance fun first => .bind inferInstance fun isArray => .ite inferInstance ?_
  refine .bind inferInstance fun typeFirst => .bind inferInstance fun name => ?_
  dsimp only
  infer_instance

instance : Onward (primary fuel expr) := by
  unfold primary
  refine .bind inferInstance fun t => ?_
  split <;> infer_instance

instance : Onward (postfixed fuel expr) := by
  unfold postfixed
  refine .bind inferInstance fun first => .loop (fun n => .bind inferInstance fun t => ?_) fuel _
  split <;> infer_instance

instance : Onward (unary fuel expr) := by
  unfold unary
  infer_instance

instance (depth : Nat) (rank : Int) : Onward (binary fuel expr depth rank) := by
  induction depth generalizing rank with
  | zero =>
    unfold binary
    infer_instance
  | succ depth ih =>
    unfold binary
    refine .bind inferInstance fun first => .loop (fun n => .bind inferInstance fun o => ?_) fuel _
    split <;> infer_instance

instance : Onward (conjunction fuel expr) := by
  unfold conjunction
  infer_instance

instance : Onward (disjunction fuel expr) := by
  unfold disjunction
  infer_instance

instance : Onward (conditional fuel expr) := by
  unfold conditional
  infer_instance

instance : Onward (assignment fuel expr) := by
  dsimp only [assignment]
  infer_instance

end Nested

instance (fuel : Nat) : Onward (expression fuel) := by
  induction fuel with
  | zero =>
    unfold expression
    infer_instance
  | succ fuel ih =>
    unfold expression
    infer_instance

instance (fuel : Nat) : Onward (sequence fuel) := by
  unfold sequence
  infer_instance

/-! ## Statements -/

section Heads

variable (fuel : Nat)

instance (kind : String) : Onward (declarator fuel kind) := by
  dsimp only [declarator]
  infer_instance

instance (first : Span) (attrs : Option Node) : Onward (variableList fuel first attrs) := by
  unfold variableList
  infer_instance

instance (first : Span) (attrs : Option Node) : Onward (variablesStatement fuel first attrs) := by
  unfold variablesStatement
  infer_instance

instance : Onward (parenTest fuel) := by
  unfold parenTest
  infer_instance

instance : Onward (caseTest fuel) := by
  unfold caseTest
  refine .bind inferInstance fun o => ?_
  split <;> infer_instance

instance : Onward (catchParam fuel) := by
  unfold catchParam
  infer_instance

instance : Onward (returnStatement fuel) := by
  dsimp only [returnStatement]
  infer_instance

instance : Onward (throwStatement fuel) := by
  unfold throwStatement
  infer_instance

instance : Onward jump := by
  unfold jump
  infer_instance

instance : Onward (expressionStatement fuel) := by
  unfold expressionStatement
  infer_instance

end Heads

section Nested

variable {stmt : Parse Node} [Onward stmt] (fuel : Nat)

instance : Onward (block fuel stmt) := by
  unfold block
  infer_instance

instance : Onward (ifStatement fuel stmt) := by
  dsimp only [ifStatement]
  infer_instance

instance : Onward (whileStatement fuel stmt) := by
  unfold whileStatement
  infer_instance

instance : Onward (doStatement fuel stmt) := by
  unfold doStatement
  infer_instance

instance : Onward (forStatement fuel stmt) := by
  unfold forStatement
  refine .bind inferInstance fun first => .bind inferInstance fun _ => ?_
  refine .bind inferInstance fun t => ?_
  extract_lets header
  have hheader (init : Option Node) : Onward (header init) := by
    refine .bind inferInstance fun _ => .bind inferInstance fun b => ?_
    extract_lets rest
    have hrest (test : Option Node) : Onward (rest test) := by
      dsimp only [rest]
      infer_instance
    infer_instance
  infer_instance

instance : Onward (switchCase fuel stmt) := by
  unfold switchCase
  refine .bind inferInstance fun first => ?_
  extract_lets rest
  split <;> infer_instance

instance : Onward (switchStatement fuel stmt) := by
  unfold switchStatement
  infer_instance

instance : Onward (catchClause fuel stmt) := by
  dsimp only [catchClause]
  infer_instance

instance : Onward (tryStatement fuel stmt) := by
  dsimp only [tryStatement]
  infer_instance

instance : Onward (statementWith fuel stmt) := by
  unfold statementWith
  refine .bind inferInstance fun t => ?_
  split <;> infer_instance

end Nested

instance (fuel : Nat) : Onward (statement fuel) := by
  induction fuel with
  | zero =>
    unfold statement
    infer_instance
  | succ fuel ih =>
    unfold statement
    infer_instance

/-! ## Declarations -/

section Heads

variable (fuel : Nat) (first : Span) (attrs : Option Node)

instance : Onward (usingDeclaration fuel) := by
  dsimp only [usingDeclaration]
  infer_instance

instance : Onward (importDeclaration fuel) := by
  unfold importDeclaration
  infer_instance

instance : Onward (attributes fuel) := by
  unfold attributes
  infer_instance

instance : Onward (accessWords fuel) := by
  unfold accessWords
  refine .bind (.loop (fun acc => .bind inferInstance fun o => ?_) fuel _) fun ws => inferInstance
  split <;> infer_instance

instance : Onward (attributeList fuel) := by
  dsimp only [attributeList]
  infer_instance

instance : Onward (functionDeclaration fuel first attrs) := by
  dsimp only [functionDeclaration]
  infer_instance

instance : Onward (enumMember fuel) := by
  unfold enumMember
  infer_instance

instance : Onward (enumDeclaration fuel first attrs) := by
  unfold enumDeclaration
  refine .bind inferInstance fun _ => .bind inferInstance fun named => ?_
  extract_lets rest
  have hrest (name : Option Node) : Onward (rest name) := by
    dsimp only [rest]
    infer_instance
  infer_instance

instance : Onward (typedefDeclaration fuel first attrs) := by
  unfold typedefDeclaration
  refine .bind inferInstance fun _ => .bind inferInstance fun name => ?_
  refine .bind inferInstance fun o => ?_
  split <;> infer_instance

variable {item : Parse Node} [Onward item]

instance : Onward (moduleDeclaration fuel item first attrs) := by
  unfold moduleDeclaration
  infer_instance

instance : Onward (classDeclaration fuel item first attrs) := by
  unfold classDeclaration
  refine .bind inferInstance fun _ => .bind inferInstance fun name => ?_
  refine .bind inferInstance fun hasBase => ?_
  extract_lets rest
  have hrest (base : Option Node) : Onward (rest base) := by
    dsimp only [rest]
    infer_instance
  infer_instance

instance : Onward (classElementOf item) := by
  unfold classElementOf
  infer_instance

end Heads

/-- Modules nest declarations and imports, which are read by turns. -/
theorem onward_declarations (fuel : Nat) :
    (∀ allowModule, Onward (declaration allowModule fuel)) ∧ Onward (topLevel fuel) := by
  induction fuel with
  | zero =>
    constructor
    · intro allowModule
      unfold declaration
      infer_instance
    · unfold topLevel
      infer_instance
  | succ fuel ih =>
    obtain ⟨hdeclaration, htopLevel⟩ := ih
    constructor
    · intro allowModule
      unfold declaration
      refine .bind inferInstance fun attrs => .bind inferInstance fun t => ?_
      extract_lets first
      split <;> infer_instance
    · unfold topLevel
      refine .bind inferInstance fun t => ?_
      split <;> infer_instance

instance (allowModule : Bool) (fuel : Nat) : Onward (declaration allowModule fuel) :=
  (onward_declarations fuel).1 allowModule

instance (fuel : Nat) : Onward (topLevel fuel) := (onward_declarations fuel).2

instance (fuel : Nat) : Onward (classElement fuel) := by
  unfold classElement
  infer_instance

/-! ## Whole sources -/

instance (body : List Node) : Onward (programOf body) := by
  unfold programOf
  infer_instance

instance (fuel : Nat) : Onward (program fuel) := by
  unfold program
  infer_instance

instance (fuel : Nat) : Onward (singleExpression fuel) := by
  unfold singleExpression
  infer_instance

instance (name : Option String) (fuel : Nat) : Onward (fragment name fuel) := by
  unfold fragment
  infer_instance

instance (o : Options) : Onward (startRule o) := by
  unfold startRule
  split <;> infer_instance

end Parse

end MonkeyFormat
