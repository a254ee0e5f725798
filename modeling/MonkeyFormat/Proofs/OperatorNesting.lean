import MonkeyFormat.Proofs.Operations

set_option autoImplicit false

/-! # Operators keep their operands

The grammar reads the tokens of an operation as that operation: operators of one rank group to the
left, looser ones stay outside, and parentheses do the rest. So a tree of operators is the same
after it has been laid out and read again. -/

namespace MonkeyFormat

/-! ## What may follow an operand -/

namespace Operation

/-- The rank of the outermost operator; names bind tightest. -/
def rank (e : Operation) : Int := (e.joint?.map Joint.rank).getD (-1)

/-- The least level of a token that may follow the operation: a type would take up more tokens than
another operand. -/
def guard (e : Operation) : Int := if e.joint? = some Joint.cast then 102 else e.rank

end Operation

/-- The tokens that end an expression. -/
def closers : List Glyph :=
  [Glyph.of ")", Glyph.of ";", Glyph.of ",", Glyph.of ":", Glyph.of "\x7d", Lexer.endGlyph]

/-- The tokens that may follow an operand. -/
def followers : List Glyph := closers ++ Joint.all.map fun j => Glyph.of j.op

/-- How far outside the operator that a token is takes its operands; the end of an expression is
farthest outside. -/
def Glyph.level (g : Glyph) : Int :=
  ((Joint.all.find? fun j => j.op = g.text).map Joint.rank).getD 102

/-- May the token follow an operand whose tokens must not be taken apart below a level? -/
def Follows (level : Int) (g : Glyph) : Prop := g ∈ followers ∧ level ≤ g.level

/-- The binary operator that a token is, with its rank. -/
def Glyph.operator? (g : Glyph) : Option (String × Int) :=
  (if [TokenKind.binary, .less, .greater, .shiftRight, .plus, .minus, .instanceOf, .has,
    .asWord].contains g.kind then some g.text else none).bind fun op =>
      (Operator.sourceRank? op).map fun rank => (op, rank)

theorem glyph_of_joint : ∀ j ∈ Joint.all, Glyph.of j.op ∈ followers ∧
    (Glyph.of j.op).level = j.rank ∧
    (j.kind = "BinaryExpression" → (Glyph.of j.op).operator? = some (j.op, j.rank) ∧
      (Glyph.of j.op).kind ≠ .endOfInput ∧ j.rank ≤ 99) ∧
    (j.kind = "LogicalExpression" →
      j.rank = 100 ∧ (Glyph.of j.op).kind = .and ∨ j.rank = 101 ∧ (Glyph.of j.op).kind = .or) := by
  decide +kernel

theorem follows_of_closer : ∀ g ∈ closers, Follows 102 g := by
  unfold Follows
  decide +kernel

theorem kind_of_follower : ∀ g ∈ followers, g.kind ≠ .dot ∧ g.kind ≠ .leftBracket ∧
    g.kind ≠ .leftParen ∧ g.kind ≠ .update ∧ g.kind ≠ .question ∧ g.kind ≠ .assign := by
  decide +kernel

theorem operator?_of_follower : ∀ g ∈ followers, g.operator?.all fun r => r.2 == g.level := by
  decide +kernel

theorem kind_of_level : ∀ g ∈ followers, (100 < g.level → g.kind ≠ .and) ∧
    (101 < g.level → g.kind ≠ .or ∧ g.kind ≠ .less) := by
  decide +kernel

/-! ## Operands -/

namespace Parse

variable {fuel : Nat} {expr : Parse Node} {gs : List Glyph} {next : Glyph → Prop} {target : Node}

theorem reads_primary_name (x : Name) :
    Reads (primary fuel expr) [x.glyph] next (x.node {}) := by
  refine Takes.peek fun t ht => ?_
  have hkind : t.kind = .ident := by
    rw [← x.glyph_kind, ← ht]
    rfl
  rw [hkind]
  exact reads_identifier x

theorem reads_primary_paren (h : Reads expr gs (fun g => g = Glyph.of ")") target) :
    Reads (primary fuel expr) (Glyph.of "(" :: (gs ++ [Glyph.of ")"])) next target := by
  refine Takes.peek fun t ht => ?_
  have hkind : t.kind = .leftParen := congrArg Glyph.kind ht
  rw [hkind]
  have hopen : Takes advance [Glyph.of "("] (fun _ => True) _ := takes_advance (by decide)
  refine hopen.bind (fun _ _ => ?_) fun _ _ => trivial
  refine h.bind (fun n hn => ?_) fun _ _ => rfl
  have hclose : Takes (expect .rightParen "')'") [Glyph.of ")"] next _ :=
    takes_expect "')'" rfl (by decide)
  exact hclose.last (fun _ _ => Takes.pure hn) fun _ hg => hg

/-- Tokens that take up what comes before them as an operand. -/
def Extends (g : Glyph) : Prop :=
  g.kind = .dot ∨ g.kind = .leftBracket ∨ g.kind = .leftParen ∨ g.kind = .update

/-- What stands behind an operand and takes it up. -/
def postfixStep (fuel : Nat) (expr : Parse Node) (n : Node) : Parse (Node × Bool) := do
  let t ← current
  match t.kind with
  | .dot =>
    let _ ← advance
    let property ← identifier
    let n ← member n property
    pure (n, true)
  | .leftBracket =>
    let _ ← advance
    let property ← expr
    let _ ← expect .rightBracket "']'"
    let n ← finish "MemberExpression" n.span
      [("object", .node n), ("property", .node property), ("computed", .bool true)]
    pure (n, true)
  | .leftParen =>
    let args ← arguments fuel expr
    let n ← finish "CallExpression" n.span [("callee", .node n), ("arguments", nodes args)]
    pure (n, true)
  | .update =>
    let _ ← advance
    let n ← finish "UpdateExpression" n.span
      [("operator", .str t.text), ("argument", .node n), ("prefix", .bool false)]
    pure (n, true)
  | _ => pure (n, false)

theorem postfixed_eq (fuel : Nat) (expr : Parse Node) :
    postfixed fuel expr = primary fuel expr >>= loop (postfixStep fuel expr) fuel := rfl

theorem takes_postfixStep_none (hnext : ∀ g, next g → ¬ Extends g) (n : Node) :
    Takes (postfixStep fuel expr n) [] next fun r => r.2 = false ∧ r.1 = n := by
  refine (takes_current next).ahead fun t ht => ?_
  have hext := hnext _ ht
  simp only [Extends, Token.glyph, not_or] at hext
  obtain ⟨hdot, hbracket, hparen, hupdate⟩ := hext
  split
  · next h => exact absurd h hdot
  · next h => exact absurd h hbracket
  · next h => exact absurd h hparen
  · next h => exact absurd h hupdate
  · exact Takes.pure ⟨rfl, rfl⟩

theorem reads_postfixed (h : Reads (primary (fuel + 1) expr) gs next target)
    (hnext : ∀ g, next g → ¬ Extends g) : Reads (postfixed (fuel + 1) expr) gs next target := by
  rw [postfixed_eq]
  refine (Takes.loops h (Nat.le_refl _)).done (fun n hn => ?_) fun _ hg => hg
  refine (takes_postfixStep_none hnext n).weaken (fun _ hg => hg) ?_
  rintro r ⟨hr, rfl⟩
  exact ⟨hr, hn⟩

theorem reads_unary (h : Reads (postfixed (fuel + 1) expr) gs next target)
    (hhead : ∀ g, prefixKinds.contains (gs.headD g).kind = false) :
    Reads (unary (fuel + 1) expr) gs next target := by
  have hops : Takes (loop (fun acc => do
      if ← atAny prefixKinds then
        let op ← advance
        pure (op :: acc, true)
      else pure (acc, false)) (fuel + 1) ([] : List Token)) []
      (fun g => prefixKinds.contains g.kind = false) (· = []) := by
    refine Takes.ahead ?_ fun r (hr : r = ([], false)) => ?_
    · refine (takes_atAny prefixKinds false).ahead ?_
      rintro _ rfl
      exact Takes.pure rfl
    · rw [hr]
      exact Takes.pure rfl
  refine hops.look ?_ fun g _ => hhead g
  rintro _ rfl
  exact h.last (fun n hn => Takes.pure hn) fun _ hg => hg

/-! ## Layers of the grammar -/

/-- The layers that join operands by operators, from the tightest to the loosest. -/
inductive Layer where
  /-- Binary operators of at most a given rank, of which a given number may be nested. -/
  | binary (depth : Nat) (maxRank : Int)
  | conjunction
  | disjunction

/-- What a binary operator does with its left operand. -/
def binaryStep (fuel : Nat) (expr : Parse Node) (depth : Nat) (maxRank : Int) (left : Node) :
    Parse (Node × Bool) := do
  let op? ← binaryOperator
  match op?.bind fun op => (Operator.sourceRank? op).map fun rank => (op, rank) with
  | none => pure (left, false)
  | some (op, rank) =>
    if maxRank < rank then pure (left, false)
    else
      let _ ← advance
      let right ←
        if op = "as" then types fuel
        else if op = "instanceof" then scopedName fuel
        else binary fuel expr depth (rank - 1)
      let n ← finish "BinaryExpression" left.span
        [("operator", .str op), ("left", .node left), ("right", .node right)]
      pure (n, true)

theorem takes_binaryOperator (next : Glyph → Prop) :
    Takes binaryOperator [] next fun op? => ∃ g, next g ∧ (op?.bind fun op =>
      (Operator.sourceRank? op).map fun rank => (op, rank)) = g.operator? :=
  (takes_current next).ahead fun t ht => Takes.pure ⟨t.glyph, ht, rfl⟩

/-- What a logical operator does with its left operand. -/
def logicalStep (kind : TokenKind) (operand : Parse Node) (left : Node) :
    Parse (Node × Bool) := do
  match ← accept kind with
  | none => pure (left, false)
  | some op =>
    let right ← operand
    let n ← finish "LogicalExpression" left.span
      [("operator", .str op.text), ("left", .node left), ("right", .node right)]
    pure (n, true)

namespace Layer

/-- The loosest rank that a layer reads. -/
def bound : Layer → Int
  | .binary _ maxRank => maxRank
  | .conjunction => 100
  | .disjunction => 101

/-- What a layer reads its first operand with. -/
def operand (fuel : Nat) (expr : Parse Node) : Layer → Parse Node
  | .binary _ _ => unary fuel expr
  | .conjunction => Parse.binary fuel expr fuel loosestRank
  | .disjunction => Parse.conjunction fuel expr

/-- What a layer does with each operator. -/
def step (fuel : Nat) (expr : Parse Node) : Layer → Node → Parse (Node × Bool)
  | .binary depth maxRank => binaryStep fuel expr depth maxRank
  | .conjunction => logicalStep .and (Parse.binary fuel expr fuel loosestRank)
  | .disjunction => logicalStep .or (Parse.conjunction fuel expr)

/-- The production of a layer. -/
def production (fuel : Nat) (expr : Parse Node) (l : Layer) : Parse Node :=
  l.operand fuel expr >>= loop (l.step fuel expr) fuel

theorem production_binary (fuel : Nat) (expr : Parse Node) (depth : Nat) (maxRank : Int) :
    Parse.binary fuel expr (depth + 1) maxRank =
    (Layer.binary depth maxRank).production fuel expr :=
  rfl

end Layer

theorem reads_expression (h : Reads (disjunction (fuel + 1) (expression fuel)) gs next target)
    (hnext : ∀ g, next g → g.kind ≠ .question ∧ g.kind ≠ .assign) :
    Reads (expression (fuel + 1)) gs next target := by
  have hconditional : Reads (conditional (fuel + 1) (expression fuel)) gs next target := by
    refine h.last (fun n hn => ?_) fun _ hg => hg
    refine (takes_skip_none .question).look ?_ fun g hg => (hnext g hg).1
    rintro _ rfl
    exact Takes.pure hn
  refine hconditional.last (fun n hn => ?_) fun _ hg => hg
  refine (takes_current next).ahead fun t ht => ?_
  have hkind : t.kind ≠ .assign := (hnext _ ht).2
  rw [if_neg hkind]
  exact Takes.pure hn

/-! ## Reading at a layer -/

namespace Layer

/-- The least level of a token at which a layer has nothing left to do inside its operands. -/
def floor : Layer → Int
  | .binary _ _ => -1
  | .conjunction => 100
  | .disjunction => 101

/-- Does the layer have room for a number of tokens? -/
def Room : Layer → Nat → Prop
  | .binary depth maxRank, n => n ≤ depth ∧ maxRank ≤ 99
  | _, _ => True

/-- The layer reads the tokens up to its loop, if what follows is not below a level. -/
def ReadsUpTo (l : Layer) (fuel : Nat) (gs : List Glyph) (level : Int) (target : Node) : Prop :=
  ∀ rounds, rounds + gs.length ≤ fuel + 2 →
    Loops (l.production (fuel + 1) (expression fuel)) gs
      (fun g => Follows level g ∧ l.floor ≤ g.level) (l.step (fuel + 1) (expression fuel)) rounds
      fun n => n.unspanned = target

/-- Behind a token that belongs farther outside a layer does nothing. -/
theorem takes_step_none (l : Layer) (fuel : Nat) (expr : Parse Node) (n : Node) :
    Takes (l.step fuel expr n) [] (fun g => g ∈ followers ∧ l.bound < g.level)
      fun r => r.2 = false ∧ r.1 = n := by
  cases l with
  | binary depth maxRank =>
    refine Takes.ahead (takes_binaryOperator _) ?_
    rintro op? ⟨g, hg, hop?⟩
    have hop := operator?_of_follower g hg.1
    rw [hop?]
    cases h : g.operator? with
    | none => exact Takes.pure ⟨rfl, rfl⟩
    | some r =>
      rw [h, Option.all_some, beq_iff_eq] at hop
      have hlt : maxRank < g.level := hg.2
      dsimp only
      rw [hop, if_pos hlt]
      exact Takes.pure ⟨rfl, rfl⟩
  | conjunction =>
    refine (takes_accept_none .and).look ?_ fun g hg => (kind_of_level g hg.1).1 hg.2
    rintro _ rfl
    exact Takes.pure ⟨rfl, rfl⟩
  | disjunction =>
    refine (takes_accept_none .or).look ?_ fun g hg => ((kind_of_level g hg.1).2 hg.2).1
    rintro _ rfl
    exact Takes.pure ⟨rfl, rfl⟩

theorem ReadsUpTo.reads {l : Layer} {level : Int} (h : l.ReadsUpTo fuel gs level target)
    (hlen : gs.length ≤ fuel) (hfloor : l.floor ≤ l.bound + 1) :
    Reads (l.production (fuel + 1) (expression fuel)) gs
      (fun g => Follows level g ∧ l.bound < g.level) target := by
  refine (h 1 (by omega)).done (fun n hn => ?_) fun g hg => ⟨hg.1, by omega⟩
  refine (l.takes_step_none _ _ n).weaken (fun g hg => ⟨hg.1.1, hg.2⟩) ?_
  rintro r ⟨hr, rfl⟩
  exact ⟨hr, hn⟩

theorem readsUpTo_of_operand {l : Layer} {level : Int}
    (h : Reads (l.operand (fuel + 1) (expression fuel)) gs
      (fun g => Follows level g ∧ l.floor ≤ g.level) target) (hne : 0 < gs.length) :
    l.ReadsUpTo fuel gs level target := by
  intro rounds hrounds
  exact Takes.loops h (by omega)

/-- What the binary operators read, the conjunctions read, and what these read, the disjunctions. -/
theorem ReadsUpTo.ascend {level : Int}
    (h : (Layer.binary fuel loosestRank).ReadsUpTo fuel gs level target) (hne : 0 < gs.length)
    (hlen : gs.length ≤ fuel) : Layer.conjunction.ReadsUpTo fuel gs level target := by
  refine readsUpTo_of_operand ?_ hne
  have hfloor :
      (Layer.binary fuel loosestRank).floor ≤ (Layer.binary fuel loosestRank).bound + 1 := by
    change (-1 : Int) ≤ 99 + 1
    decide
  refine (h.reads hlen hfloor).weaken (fun g hg => ⟨hg.1, ?_⟩) fun _ hn => hn
  have hg : 99 < g.level := hg.2
  change 100 ≤ g.level
  omega

theorem ReadsUpTo.ascend' {level : Int}
    (h : Layer.conjunction.ReadsUpTo fuel gs level target) (hne : 0 < gs.length)
    (hlen : gs.length ≤ fuel) : Layer.disjunction.ReadsUpTo fuel gs level target := by
  refine readsUpTo_of_operand ?_ hne
  refine (h.reads hlen (by decide)).weaken (fun g hg => ⟨hg.1, ?_⟩) fun _ hn => hn
  have hg : 100 < g.level := hg.2
  change 101 ≤ g.level
  omega

end Layer

/-! ## Operators -/

/-- The reader of what stands on the right of a binary operator. -/
def rightOperand (fuel : Nat) (expr : Parse Node) (depth : Nat) (j : Joint) : Parse Node :=
  if j.op = "as" then types fuel
  else if j.op = "instanceof" then scopedName fuel
  else binary fuel expr depth (j.rank - 1)

theorem unspanned_apply {j : Joint} {span span' : Span} {n m left right : Node}
    (hn : n.unspanned = left.unspanned) (hm : m.unspanned = right.unspanned) :
    (j.apply span n m).unspanned = (j.apply span' left right).unspanned := by
  simp only [Joint.apply, Node.unspanned, fieldsUnspanned, Value.unspanned, hn, hm]

theorem takes_binaryStep {j : Joint} (hj : j ∈ Joint.all) (hkind : j.kind = "BinaryExpression")
    {depth : Nat} {maxRank : Int} (hrank : j.rank ≤ maxRank) {n left right : Node} {span : Span}
    (hn : n.unspanned = left.unspanned)
    (hright : Reads (rightOperand fuel expr depth j) gs next right.unspanned) :
    Takes (binaryStep fuel expr depth maxRank n) (Glyph.of j.op :: gs) next
      fun r => r.2 = true ∧ r.1.unspanned = (j.apply span left right).unspanned := by
  obtain ⟨_, _, hbinary, _⟩ := glyph_of_joint j hj
  obtain ⟨hop, hend, _⟩ := hbinary hkind
  refine (takes_binaryOperator (· = Glyph.of j.op)).look ?_ fun _ _ => rfl
  rintro op? ⟨_, rfl, hop?⟩
  rw [hop?, hop]
  dsimp only
  rw [if_neg (by omega)]
  have hadvance : Takes advance [Glyph.of j.op] (fun _ => True) _ := takes_advance hend
  -- what is done with the right operand is the same in all three branches
  have hrest {m : Parse Node} (hm : Reads m gs next right.unspanned) :
      Takes (m >>= fun r => finish "BinaryExpression" n.span
        [("operator", .str j.op), ("left", .node n), ("right", .node r)] >>= fun n =>
          pure (n, true)) gs next
        fun r => r.2 = true ∧ r.1.unspanned = (j.apply span left right).unspanned := by
    refine hm.last (fun r hr => ?_) fun _ hg => hg
    refine (takes_finish _ _ _).ahead fun k hk => Takes.pure ⟨rfl, ?_⟩
    have happly : (j.apply {} n r).unspanned = (j.apply span left right).unspanned :=
      unspanned_apply hn hr
    rw [hk, ← happly, Joint.apply, hkind]
    rfl
  refine hadvance.bind (fun _ _ => ?_) fun _ _ => trivial
  unfold rightOperand at hright
  split
  · next h =>
    rw [if_pos h] at hright
    exact hrest hright
  · next h =>
    rw [if_neg h] at hright
    split
    · next h =>
      rw [if_pos h] at hright
      exact hrest hright
    · next h =>
      rw [if_neg h] at hright
      exact hrest hright

theorem takes_logicalStep {j : Joint} (hkind : j.kind = "LogicalExpression") {kind : TokenKind}
    (hglyph : (Glyph.of j.op).kind = kind) (hend : kind ≠ .endOfInput) {operand : Parse Node}
    {n left right : Node} {span : Span} (hn : n.unspanned = left.unspanned)
    (hright : Reads operand gs next right.unspanned) :
    Takes (logicalStep kind operand n) (Glyph.of j.op :: gs) next
      fun r => r.2 = true ∧ r.1.unspanned = (j.apply span left right).unspanned := by
  have haccept : Takes (accept kind) [Glyph.of j.op] (fun _ => True) _ := takes_accept hglyph hend
  refine haccept.bind ?_ fun _ _ => trivial
  rintro _ ⟨t, rfl, ht⟩
  refine hright.last (fun r hr => ?_) fun _ hg => hg
  refine (takes_finish _ _ _).ahead fun k hk => Takes.pure ⟨rfl, ?_⟩
  have htext : t.text = j.op := congrArg Glyph.text ht
  have happly : (j.apply {} n r).unspanned = (j.apply span left right).unspanned :=
    unspanned_apply hn hr
  rw [hk, htext, ← happly, Joint.apply, hkind]
  rfl

/-! ## Operations -/

/-- What is read where binary operators of each rank from `rank` on are read is read by all layers
that read this rank. -/
theorem readsUpTo_of_binary {rank level : Int} (hne : 0 < gs.length) (hlen : gs.length ≤ fuel)
    (hrank : rank ≤ 99)
    (h : ∀ depth maxRank, gs.length ≤ depth → maxRank ≤ 99 → rank ≤ maxRank →
      (Layer.binary depth maxRank).ReadsUpTo fuel gs level target) :
    ∀ l : Layer, l.Room gs.length → rank ≤ l.bound → l.ReadsUpTo fuel gs level target
  | .binary depth maxRank, hroom, hbound => h depth maxRank hroom.1 hroom.2 hbound
  | .conjunction, _, _ => (h fuel 99 hlen (Int.le_refl _) hrank).ascend hne hlen
  | .disjunction, _, _ => ((h fuel 99 hlen (Int.le_refl _) hrank).ascend hne hlen).ascend' hne hlen

theorem readsUpTo_of_unary {level : Int} (hne : 0 < gs.length) (hlen : gs.length ≤ fuel)
    (h : Reads (unary (fuel + 1) (expression fuel)) gs (Follows level) target) (l : Layer) :
    l.ReadsUpTo fuel gs level target := by
  have hbinary (depth : Nat) (maxRank : Int) :
      (Layer.binary depth maxRank).ReadsUpTo fuel gs level target :=
    Layer.readsUpTo_of_operand (h.weaken (fun g hg => hg.1) fun _ hn => hn) hne
  cases l with
  | binary depth maxRank => exact hbinary depth maxRank
  | conjunction => exact (hbinary fuel loosestRank).ascend hne hlen
  | disjunction => exact ((hbinary fuel loosestRank).ascend hne hlen).ascend' hne hlen

/-- Every layer that reads the rank of the operation reads the tokens as the operation. -/
def ReadsAs (e : Operation) (gs : List Glyph) : Prop :=
  ∀ (l : Layer) (fuel : Nat), l.Room gs.length → e.rank ≤ l.bound → gs.length ≤ fuel →
    l.ReadsUpTo fuel gs e.guard e.node.unspanned

/-- Every layer that reads the rank of the operation reads its tokens. -/
def ReadsOperation (e : Operation) : Prop :=
  ∀ (l : Layer) (fuel : Nat), l.Room e.glyphs.length → e.rank ≤ l.bound → e.glyphs.length ≤ fuel →
    l.ReadsUpTo fuel e.glyphs e.guard e.node.unspanned

theorem not_extends_of_follower {g : Glyph} (h : g ∈ followers) : ¬ Extends g := by
  obtain ⟨hdot, hbracket, hparen, hupdate, _, _⟩ := kind_of_follower g h
  simp [Extends, hdot, hbracket, hparen, hupdate]

theorem length_glyphs_pos (e : Operation) : 0 < e.glyphs.length := by
  cases e <;> simp [Operation.glyphs]

theorem rank_bounds : ∀ j ∈ Joint.all, 0 ≤ j.rank ∧ j.rank ≤ 101 := by
  decide +kernel

theorem rank_le_guard (e : Operation) : e.rank ≤ e.guard ∧ e.guard ≤ 102 ∧ e.rank ≤ 101 := by
  have hrank : e.rank ≤ 101 := by
    unfold Operation.rank
    cases hj : e.joint? with
    | none => decide
    | some j => exact (rank_bounds j (Operation.joint?_mem hj)).2
  unfold Operation.guard
  split <;> omega

/-- What the loosest layer reads is a whole expression. -/
theorem Layer.ReadsUpTo.expression {level : Int} (hlevel : level ≤ 102)
    (h : Layer.disjunction.ReadsUpTo fuel gs level target) (hlen : gs.length ≤ fuel) :
    Reads (Parse.expression (fuel + 1)) gs (Follows 102) target := by
  refine reads_expression ?_ fun g hg => (kind_of_follower g hg.1).2.2.2.2
  refine (h.reads hlen (by decide)).weaken (fun g hg => ⟨⟨hg.1, ?_⟩, ?_⟩) fun _ hn => hn
  · have := hg.2
    omega
  · have := hg.2
    change 101 < g.level
    omega

/-- A whole operation is read as an expression. -/
theorem ReadsAs.expression {e : Operation} (h : ReadsAs e gs) (hlen : gs.length ≤ fuel) :
    Reads (Parse.expression (fuel + 1)) gs (Follows 102) e.node.unspanned := by
  obtain ⟨_, hguard, hrank⟩ := rank_le_guard e
  exact (h .disjunction fuel trivial hrank hlen).expression hguard hlen

theorem length_enclosedIf (b : Bool) (gs : List Glyph) :
    gs.length ≤ (Operation.enclosedIf b gs).length ∧
      (b = true → (Operation.enclosedIf b gs).length = gs.length + 2) := by
  cases b with
  | false => simp [Operation.enclosedIf]
  | true =>
    simp [Operation.enclosedIf]
    omega

/-- The least level of a token that may follow an operand. -/
def operandGuard (b : Bool) (e : Operation) : Int := if b then -1 else e.guard

/-- An operand is read by every layer if it is in parentheses, else by those that read its rank. -/
theorem readsUpTo_operand {e : Operation} (h : ReadsAs e gs) (b : Bool) (l : Layer)
    (hroom : l.Room (Operation.enclosedIf b gs).length)
    (hlen : (Operation.enclosedIf b gs).length ≤ fuel)
    (hrank : b = false → e.rank ≤ l.bound) :
    l.ReadsUpTo fuel (Operation.enclosedIf b gs) (operandGuard b e) e.node.unspanned := by
  cases b with
  | false => exact h l fuel hroom (hrank rfl) hlen
  | true =>
    have hlength := (length_enclosedIf true gs).2 rfl
    obtain ⟨fuel, rfl⟩ : ∃ m, fuel = m + 1 := ⟨fuel - 1, by omega⟩
    have hclosed : Glyph.of ")" ∈ followers ∧ (102 : Int) ≤ (Glyph.of ")").level := by
      decide +kernel
    have hinner : Reads (Parse.expression (fuel + 1)) gs (fun g => g = Glyph.of ")")
        e.node.unspanned := by
      refine (h.expression (by omega)).weaken ?_ fun _ hn => hn
      rintro g rfl
      exact hclosed
    refine readsUpTo_of_unary (by omega) hlen ?_ l
    exact reads_unary (reads_postfixed (reads_primary_paren hinner)
      fun g hg => not_extends_of_follower hg.1) fun _ => rfl

theorem readsOperation_name (x : Name) (span : Span) : ReadsOperation (.name x span) := by
  intro l fuel _ _ hlen
  refine readsUpTo_of_unary (length_glyphs_pos _) hlen ?_ l
  refine reads_unary (reads_postfixed (reads_primary_name x)
    fun g hg => not_extends_of_follower hg.1) fun _ => ?_
  change prefixKinds.contains x.glyph.kind = false
  rw [x.glyph_kind]
  decide

/-- May the operation stand on the left of the operator, in parentheses or without them? -/
def FitsLeft (j : Joint) (b : Bool) (e : Operation) : Prop :=
  operandGuard b e ≤ j.rank ∧ (b = false → e.rank ≤ j.rank)

/-- May the operation stand on the right of the operator, in parentheses or without them? -/
def FitsRight (j : Joint) (b : Bool) (e : Operation) : Prop :=
  operandGuard b e ≤ j.rank ∧ (b = false → e.rank < j.rank)

/-- A left operand without parentheses may be followed by its operator, at every layer that reads
the operator. -/
theorem left_of_joint {j : Joint} (hj : j ∈ Joint.all) (e : Operation) :
    FitsLeft j (e.enclosed j "left") e := by
  have hpos := (rank_bounds j hj).1
  unfold FitsLeft Operation.enclosed operandGuard Operation.guard Operation.rank
  cases hk : e.joint? with
  | none =>
    simp
    omega
  | some k =>
    simp only [Option.any_some, Option.map_some, Option.getD_some, Option.some.injEq]
    cases hb : j.encloses "left" k with
    | true =>
      simp
      omega
    | false =>
      obtain ⟨hrank, hcast⟩ := Joint.rank_le_of_left j hj k (Operation.joint?_mem hk) hb
      simp [hcast, hrank]

/-- A right operand without parentheses binds tighter than its operator, and ends before what may
follow the operator's node. -/
theorem right_of_joint {j : Joint} (hj : j ∈ Joint.plain) (e : Operation) :
    FitsRight j (e.enclosed j "right") e := by
  have hpos := (rank_bounds j (List.mem_cons_of_mem _ (List.mem_cons_of_mem _ hj))).1
  unfold FitsRight Operation.enclosed operandGuard Operation.guard Operation.rank
  cases hk : e.joint? with
  | none =>
    simp
    omega
  | some k =>
    simp only [Option.any_some, Option.map_some, Option.getD_some, Option.some.injEq]
    cases hb : j.encloses "right" k with
    | true =>
      simp
      omega
    | false =>
      obtain ⟨hrank, hcast⟩ := Joint.rank_lt_of_right j hj k (Operation.joint?_mem hk) hb
      simp [hcast, hrank]
      omega

/-- A layer reads an operation if it reads the left operand, and its step the rest. -/
theorem readsUpTo_join {j : Joint} (hj : j ∈ Joint.all) {left : Operation} (ih : ReadsAs left gs)
    {b : Bool} (hfits : FitsLeft j b left) {hs : List Glyph} (l : Layer) {level : Int}
    {target : Node} (hroom : l.Room (Operation.enclosedIf b gs ++ Glyph.of j.op :: hs).length)
    (hlen : (Operation.enclosedIf b gs ++ Glyph.of j.op :: hs).length ≤ fuel)
    (hbound : j.rank ≤ l.bound) (hfloor : l.floor ≤ j.rank)
    (hstep : ∀ n : Node, n.unspanned = left.node.unspanned →
      Takes (l.step (fuel + 1) (expression fuel) n) (Glyph.of j.op :: hs)
        (fun g => Follows level g ∧ l.floor ≤ g.level)
        fun r => r.2 = true ∧ r.1.unspanned = target) :
    l.ReadsUpTo fuel (Operation.enclosedIf b gs ++ Glyph.of j.op :: hs) level target := by
  obtain ⟨hguard, hrank⟩ := hfits
  obtain ⟨hmem, hlevel, _⟩ := glyph_of_joint j hj
  rw [List.length_append, List.length_cons] at hroom hlen
  have hroom' : l.Room (Operation.enclosedIf b gs).length := by
    cases l with
    | binary depth maxRank => exact ⟨by have := hroom.1; omega, hroom.2⟩
    | conjunction | disjunction => trivial
  have hlen' : (Operation.enclosedIf b gs).length ≤ fuel := by omega
  have hleft := readsUpTo_operand ih b l hroom' hlen' (fun h => Int.le_trans (hrank h) hbound)
  have hop : Follows (operandGuard b left) (Glyph.of j.op) ∧ l.floor ≤ (Glyph.of j.op).level := by
    rw [Follows, hlevel]
    exact ⟨⟨hmem, hguard⟩, hfloor⟩
  intro rounds hrounds
  rw [List.length_append, List.length_cons] at hrounds
  exact (hleft (rounds + 1) (by omega)).round hstep fun _ _ => hop

theorem length_joined_pos (gs hs : List Glyph) (g : Glyph) : 0 < (gs ++ g :: hs).length := by
  rw [List.length_append, List.length_cons]
  omega

/-- An operation with a binary operator is read if its operands are. -/
theorem readsAs_binary {j : Joint} (hj : j ∈ Joint.all) (hkind : j.kind = "BinaryExpression")
    {e left : Operation} {right : Node} {span : Span} (hjoint : e.joint? = some j)
    (hnode : e.node = j.apply span left.node right) (ih : ReadsAs left gs) {b : Bool}
    (hfits : FitsLeft j b left) {hs : List Glyph}
    (hright : ∀ fuel depth, (Operation.enclosedIf b gs ++ Glyph.of j.op :: hs).length ≤ fuel →
      (Operation.enclosedIf b gs ++ Glyph.of j.op :: hs).length ≤ depth →
        Reads (rightOperand (fuel + 1) (expression fuel) depth j) hs (Follows e.guard)
          right.unspanned) : ReadsAs e (Operation.enclosedIf b gs ++ Glyph.of j.op :: hs) := by
  intro l fuel hroom hbound hlen
  have hrank : e.rank = j.rank := by simp [Operation.rank, hjoint]
  obtain ⟨_, _, hbinary, _⟩ := glyph_of_joint j hj
  have hmax : e.rank ≤ 99 := by
    rw [hrank]
    exact (hbinary hkind).2.2
  refine readsUpTo_of_binary (length_joined_pos _ _ _) hlen hmax ?_ l hroom hbound
  intro depth maxRank hdepth hmaxRank hle
  have hread := hright fuel depth hlen hdepth
  rw [hrank] at hle
  rw [hnode]
  refine readsUpTo_join hj ih hfits (.binary depth maxRank) ⟨hdepth, hmaxRank⟩ hlen hle ?_ ?_
  · have := (rank_bounds j hj).1
    change (-1 : Int) ≤ j.rank
    omega
  · intro n hn
    exact takes_binaryStep hj hkind hle hn (hread.weaken (fun _ hg => hg.1) fun _ hm => hm)

theorem guard_join {j : Joint} (hj : j ∈ Joint.plain) (left right : Operation) (span : Span) :
    (Operation.join j hj left right span).guard = j.rank := by
  have hcast : ∀ j ∈ Joint.plain, j ≠ Joint.cast := by decide +kernel
  have hne : (Operation.join j hj left right span).joint? ≠ some Joint.cast :=
    fun h => hcast j hj (Option.some.inj h)
  rw [Operation.guard, if_neg hne]
  rfl

/-- The right operand of an operator is read by the layer below that of the operator. -/
theorem reads_right {j : Joint} {right : Operation} (ih : ReadsAs right gs) {b : Bool}
    (hfits : FitsRight j b right) (l : Layer)
    (hroom : l.Room (Operation.enclosedIf b gs).length)
    (hlen : (Operation.enclosedIf b gs).length ≤ fuel)
    (hfloor : l.floor ≤ l.bound + 1) (hbound : j.rank = l.bound + 1) :
    Reads (l.production (fuel + 1) (expression fuel)) (Operation.enclosedIf b gs) (Follows j.rank)
      right.node.unspanned := by
  obtain ⟨hguard, hrank⟩ := hfits
  have hread := readsUpTo_operand ih b l hroom hlen fun h => by
    have := hrank h
    omega
  refine (hread.reads hlen hfloor).weaken (fun g hg => ?_) fun _ hn => hn
  have := hg.2
  exact ⟨⟨hg.1, by omega⟩, by omega⟩

section Join

variable {j : Joint} {left right : Operation} {span : Span} {hs : List Glyph} {b c : Bool}

/-- An operation with a logical operator is read if its operands are. -/
theorem readsAs_logical (hj : j ∈ Joint.plain) (hkind : j.kind = "LogicalExpression")
    (ihl : ReadsAs left gs) (ihr : ReadsAs right hs) (hleft : FitsLeft j b left)
    (hright : FitsRight j c right) :
    ReadsAs (.join j hj left right span)
      (Operation.enclosedIf b gs ++ Glyph.of j.op :: Operation.enclosedIf c hs) := by
  intro l fuel hroom hbound hlen
  have hall : j ∈ Joint.all := List.mem_cons_of_mem _ (List.mem_cons_of_mem _ hj)
  have hpos := length_joined_pos (Operation.enclosedIf b gs) (Operation.enclosedIf c hs)
    (Glyph.of j.op)
  obtain ⟨_, _, _, hlogical⟩ := glyph_of_joint j hall
  have hlen' : (Operation.enclosedIf c hs).length ≤ fuel := by
    rw [List.length_append, List.length_cons] at hlen
    omega
  change j.rank ≤ l.bound at hbound
  rw [guard_join]
  -- conjunctions are read at their own layer and, as operands, at the one of the disjunctions
  rcases hlogical hkind with ⟨hrank, hglyph⟩ | ⟨hrank, hglyph⟩
  · have hfloor : (-1 : Int) ≤ 99 + 1 := by decide
    have hoperand := reads_right ihr hright (.binary fuel 99) ⟨hlen', Int.le_refl _⟩ hlen' hfloor
      hrank
    have hconjunction : Layer.conjunction.ReadsUpTo fuel
        (Operation.enclosedIf b gs ++ Glyph.of j.op :: Operation.enclosedIf c hs) j.rank
        (Operation.join j hj left right span).node.unspanned :=
      readsUpTo_join hall ihl hleft .conjunction trivial hlen (Int.le_of_eq hrank)
        (Int.ge_of_eq hrank) fun n hn => takes_logicalStep hkind hglyph (by decide) hn
          (hoperand.weaken (fun _ hg => hg.1) fun _ hm => hm)
    cases l with
    | binary depth maxRank =>
      have := hroom.2
      change j.rank ≤ maxRank at hbound
      omega
    | conjunction => exact hconjunction
    | disjunction => exact hconjunction.ascend' hpos hlen
  · have hoperand := reads_right ihr hright .conjunction trivial hlen' (by decide) hrank
    cases l with
    | binary depth maxRank =>
      have := hroom.2
      change j.rank ≤ maxRank at hbound
      omega
    | conjunction =>
      change j.rank ≤ 100 at hbound
      omega
    | disjunction =>
      exact readsUpTo_join hall ihl hleft .disjunction trivial hlen (Int.le_of_eq hrank)
        (Int.ge_of_eq hrank) fun n hn => takes_logicalStep hkind hglyph (by decide) hn
          (hoperand.weaken (fun _ hg => hg.1) fun _ hm => hm)

/-- Two operations joined by an operator are read if both are, in parentheses where they do not fit
without them. -/
theorem readsAs_join (hj : j ∈ Joint.plain) (ihl : ReadsAs left gs) (ihr : ReadsAs right hs)
    (hleft : FitsLeft j b left) (hright : FitsRight j c right) :
    ReadsAs (.join j hj left right span)
      (Operation.enclosedIf b gs ++ Glyph.of j.op :: Operation.enclosedIf c hs) := by
  have hall : j ∈ Joint.all := List.mem_cons_of_mem _ (List.mem_cons_of_mem _ hj)
  rcases Joint.kind_of_mem hall with hkind | hkind
  · refine readsAs_binary hall hkind rfl rfl ihl hleft fun fuel depth hlen hdepth => ?_
    rw [List.length_append, List.length_cons] at hlen hdepth
    obtain ⟨depth, rfl⟩ : ∃ m, depth = m + 1 := ⟨depth - 1, by omega⟩
    have hplain : ∀ j ∈ Joint.plain, j.op ≠ "as" ∧ j.op ≠ "instanceof" := by decide +kernel
    rw [rightOperand, if_neg (hplain j hj).1, if_neg (hplain j hj).2, Layer.production_binary,
      guard_join]
    have hbinary := ((glyph_of_joint j hall).2.2.1 hkind).2.2
    have hpos := (rank_bounds j hall).1
    refine reads_right ihr hright (.binary depth (j.rank - 1)) ⟨by omega, by omega⟩ (by omega)
      ?_ ?_
    · change (-1 : Int) ≤ j.rank - 1 + 1
      omega
    · change j.rank = j.rank - 1 + 1
      omega
  · exact readsAs_logical hj hkind ihl ihr hleft hright

end Join

theorem readsOperation (e : Operation) : ReadsOperation e := by
  induction e with
  | name x span => exact readsOperation_name x span
  | join j hj left right span ihl ihr =>
    have hall : j ∈ Joint.all := List.mem_cons_of_mem _ (List.mem_cons_of_mem _ hj)
    exact readsAs_join hj ihl ihr (left_of_joint hall left) (right_of_joint hj right)
  | test left right span ih =>
    refine readsAs_binary List.mem_cons_self rfl rfl rfl ih (left_of_joint List.mem_cons_self left)
      fun fuel depth hlen hdepth => ?_
    rw [List.length_append, List.length_cons] at hlen
    exact (reads_scopedName right (by omega)).weaken
      (fun g hg => (kind_of_follower g hg.1).1) fun _ hn => hn
  | cast left right span ih =>
    have hall : Joint.cast ∈ Joint.all := List.mem_cons_of_mem _ List.mem_cons_self
    refine readsAs_binary hall rfl rfl rfl ih (left_of_joint hall left)
      fun fuel depth hlen hdepth => ?_
    rw [List.length_append, List.length_cons] at hlen
    refine (reads_types right (by omega)).weaken (fun g hg => ?_) fun _ hn => hn
    have hlevel : (102 : Int) ≤ g.level := hg.2
    obtain ⟨hor, hless⟩ := (kind_of_level g hg.1).2 (by omega)
    obtain ⟨hdot, _, _, _, hquestion, _⟩ := kind_of_follower g hg.1
    exact ⟨hdot, hless, hquestion, hor⟩

end Parse

/-- The start rule for expressions reads the tokens of an operation as that operation. -/
theorem reads_startRule_operation (e : Operation) {o : Options} (ho : o.rule = .expression) :
    Parse.Reads (Parse.startRule o) e.glyphs (fun g => g = Lexer.endGlyph) e.node.unspanned := by
  unfold Parse.startRule
  rw [ho]
  refine Parse.takes_fueled fun fuel hfuel => ?_
  obtain ⟨fuel, rfl⟩ : ∃ m, fuel = m + 1 := ⟨fuel - 1, by omega⟩
  have hend : Follows 102 Lexer.endGlyph := follows_of_closer _ (by decide)
  have hread :=
    Parse.ReadsAs.expression (Parse.readsOperation e) (by omega : e.glyphs.length ≤ fuel)
  refine hread.last (fun n hn => ?_) fun g hg => by rw [hg]; exact hend
  exact (Parse.takes_expect_end _).look (fun _ _ => Parse.Takes.pure hn) fun g hg => by
    rw [List.headD_nil, hg]
    rfl

/-- Formatting a tree of operators gives a text, and reading this text gives the same tree again,
spans aside, whatever the widths. -/
theorem parse_formatTree_operation (e : Operation) (o : Options) :
    ∃ text n, formatTree e.node [] "" o = .ok ⟨text, []⟩ ∧
      parse text { o with rule := .expression } = .ok (n, []) ∧
      n.unspanned = e.node.unspanned := by
  have hmade : (Parentheses.explicit e.node).result = e.explicit := Parentheses.made_operation e
  have hroot : Nesting.parenthesized ⟨.node e.explicit, []⟩ = false := rfl
  have htree : Layout.PrintsTree ⟨o.widths, Source.ofString "", []⟩ e :=
    (Layout.prints_operation rfl e).1
  have hprints := htree (e.explicit.depth + 1) [] (Nat.le_succ _)
  rw [hroot, ← hmade] at hprints
  obtain ⟨text, hformat, hscan⟩ := formatTree_of_prints (Parentheses.run_operation e) hprints
  obtain ⟨n, hparse, hn⟩ := parse_of_reads hscan
    (reads_startRule_operation e (o := { o with rule := .expression }) rfl)
  exact ⟨text, n, hformat, hparse, hn⟩

end MonkeyFormat
