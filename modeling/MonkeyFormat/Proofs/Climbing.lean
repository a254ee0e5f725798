import MonkeyFormat.Proofs.OperatorNesting

set_option autoImplicit false

/-! # Precedence climbing

Names joined by operators, with no parentheses between them, are grouped by the ranks alone: to the
left among operators of one rank, and tighter operators first. There is exactly one tree of this
kind over a sequence of names and operators. It can be grown along the sequence, since the next
operator takes up the part of the tree that binds at least as tight; and it is the tree that the
grammar finds. -/

namespace MonkeyFormat

/-! ## Sequences and trees -/

/-- An operator whose operands are both expressions. -/
structure Connective where
  joint : Joint
  plain : joint ∈ Joint.plain

namespace Connective

/-- The rank by which the grammar binds the operator. -/
def rank (c : Connective) : Int := c.joint.rank

/-- The token of the operator. -/
def glyph (c : Connective) : Glyph := Glyph.of c.joint.op

theorem mem_all (c : Connective) : c.joint ∈ Joint.all :=
  List.mem_cons_of_mem _ (List.mem_cons_of_mem _ c.plain)

/-- Binary operators have the ranks of the table, all of them tighter than conjunctions, and these
are tighter than disjunctions. -/
theorem rank_cases (c : Connective) :
    (c.joint.kind = "BinaryExpression" ∧ Operator.sourceRank? c.joint.op = some c.rank ∧
        c.rank < 100) ∨
      (c.joint.kind = "LogicalExpression" ∧ c.rank =
        if c.joint.op = "&&" ∨ c.joint.op = "and" then 100 else 101) := by
  have hall : ∀ j ∈ Joint.plain,
      (j.kind = "BinaryExpression" ∧ Operator.sourceRank? j.op = some j.rank ∧ j.rank < 100) ∨
        (j.kind = "LogicalExpression" ∧ j.rank =
          if j.op = "&&" ∨ j.op = "and" then 100 else 101) := by
    decide +kernel
  exact hall c.joint c.plain

end Connective

/-- Names joined by operators. -/
structure OperandSequence where
  first : Name
  rest : List (Connective × Name)

namespace OperandSequence

/-- The tokens of the sequence. -/
def glyphs (s : OperandSequence) : List Glyph :=
  s.first.glyph :: s.rest.flatMap fun r => [r.1.glyph, r.2.glyph]

/-- The sequence written with single blanks. -/
def text (s : OperandSequence) : String :=
  s.rest.foldl (fun text r => text ++ " " ++ r.1.joint.op ++ " " ++ r.2.text) s.first.text

/-- The sequence with another operator and another sequence behind it. -/
def join (s : OperandSequence) (c : Connective) (t : OperandSequence) : OperandSequence :=
  ⟨s.first, s.rest ++ (c, t.first) :: t.rest⟩

theorem glyphs_join (s : OperandSequence) (c : Connective) (t : OperandSequence) :
    (s.join c t).glyphs = s.glyphs ++ c.glyph :: t.glyphs := by
  simp [glyphs, join]

end OperandSequence

/-- A tree of operators over names. -/
inductive OperatorTree where
  | name (x : Name)
  | join (c : Connective) (left right : OperatorTree)

namespace OperatorTree

/-- The tree as an operation. -/
def operation : OperatorTree → Operation
  | .name x => .name x {}
  | .join c left right => .join c.joint c.plain left.operation right.operation {}

/-- The node of the tree. -/
def node (t : OperatorTree) : Node := t.operation.node.unspanned

/-- The names and operators of the tree in order. -/
def sequence : OperatorTree → OperandSequence
  | .name x => ⟨x, []⟩
  | .join c left right => left.sequence.join c right.sequence

/-- The outermost operator. -/
def top? : OperatorTree → Option Connective
  | .name _ => none
  | .join c _ _ => some c

/-- At every node the operator of the left operand binds at least as tight as that of the node, and
the operator of the right operand tighter. -/
def Grouped : OperatorTree → Prop
  | .name _ => True
  | .join c left right => left.Grouped ∧ right.Grouped ∧
      (∀ d ∈ left.top?, d.rank ≤ c.rank) ∧ ∀ d ∈ right.top?, d.rank < c.rank

/-! ## Growing a tree along a sequence -/

/-- The tree with one more operator and one more name behind it: the operator takes up what binds
at least as tight. -/
def push : OperatorTree → Connective × Name → OperatorTree
  | .name x, (d, y) => .join d (.name x) (.name y)
  | .join c left right, (d, y) =>
    if c.rank ≤ d.rank then .join d (.join c left right) (.name y)
    else .join c left (right.push (d, y))

/-- The tree grown along a sequence. -/
def climb (s : OperandSequence) : OperatorTree := s.rest.foldl push (.name s.first)

theorem sequence_push (t : OperatorTree) (d : Connective) (y : Name) :
    (t.push (d, y)).sequence = t.sequence.join d ⟨y, []⟩ := by
  induction t with
  | name x => rfl
  | join c left right _ ih =>
    rw [push]
    split
    · rfl
    · simp [sequence, ih, OperandSequence.join]

theorem top?_push (t : OperatorTree) (d : Connective) (y : Name) :
    ∃ c, (t.push (d, y)).top? = some c ∧ (c = d ∨ t.top? = some c ∧ d.rank < c.rank) := by
  cases t with
  | name x => exact ⟨d, rfl, .inl rfl⟩
  | join c left right =>
    rw [push]
    split
    · exact ⟨d, rfl, .inl rfl⟩
    · next h => exact ⟨c, rfl, .inr ⟨rfl, Int.not_le.1 h⟩⟩

theorem Grouped.push {t : OperatorTree} (h : t.Grouped) (d : Connective) (y : Name) :
    (t.push (d, y)).Grouped := by
  induction t with
  | name x => exact ⟨trivial, trivial, by rintro _ ⟨⟩, by rintro _ ⟨⟩⟩
  | join c left right _ ih =>
    rw [OperatorTree.push]
    split
    · next hle =>
      refine ⟨h, trivial, ?_, by rintro _ ⟨⟩⟩
      rintro _ ⟨⟩
      exact hle
    · next hlt =>
      obtain ⟨hleft, hright, hl, hr⟩ := h
      refine ⟨hleft, ih hright, hl, ?_⟩
      -- the operator on top of the right operand is the pushed one or the one from before
      intro e he
      obtain ⟨c', hc', hcase⟩ := top?_push right d y
      obtain rfl : c' = e := Option.some.inj (hc'.symm.trans he)
      rcases hcase with rfl | ⟨hold, _⟩
      · exact Int.not_le.1 hlt
      · exact hr c' hold

theorem sequence_foldl_push (rest : List (Connective × Name)) (t : OperatorTree) :
    (rest.foldl push t).sequence = ⟨t.sequence.first, t.sequence.rest ++ rest⟩ := by
  induction rest generalizing t with
  | nil => simp
  | cons r rest ih =>
    rw [List.foldl_cons, ih, sequence_push]
    simp [OperandSequence.join]

theorem Grouped.foldl_push {t : OperatorTree} (h : t.Grouped) (rest : List (Connective × Name)) :
    (rest.foldl OperatorTree.push t).Grouped := by
  induction rest generalizing t with
  | nil => exact h
  | cons r rest ih => exact ih (h.push r.1 r.2)

/-- The tree grown along a sequence is grouped by rank and reads as the sequence. -/
theorem climb_spec (s : OperandSequence) : (climb s).Grouped ∧ (climb s).sequence = s :=
  ⟨Grouped.foldl_push (t := .name s.first) trivial s.rest,
    sequence_foldl_push s.rest (.name s.first)⟩

/-! ## There is no other grouped tree -/

/-- All operators of a grouped tree bind at least as tight as the one on top. -/
theorem Grouped.rank_le {t : OperatorTree} (h : t.Grouped) {c : Connective}
    (hc : t.top? = some c) : ∀ r ∈ t.sequence.rest, r.1.rank ≤ c.rank := by
  induction t generalizing c with
  | name x => cases hc
  | join d left right ihl ihr =>
    obtain rfl : d = c := Option.some.inj hc
    obtain ⟨hleft, hright, hl, hr⟩ := h
    -- an operand without an operator has no operators, and else its top bounds them
    have hbound {e : OperatorTree} (ih : ∀ {c}, e.top? = some c → ∀ r ∈ e.sequence.rest,
        r.1.rank ≤ c.rank) (he : ∀ k ∈ e.top?, k.rank ≤ d.rank) :
        ∀ r ∈ e.sequence.rest, r.1.rank ≤ d.rank := by
      intro r hmem
      cases htop : e.top? with
      | none =>
        cases e with
        | name x => cases hmem
        | join => cases htop
      | some k => exact Int.le_trans (ih htop r hmem) (he k htop)
    intro r hmem
    rcases List.mem_append.1 hmem with hmem | hmem
    · exact hbound (ihl hleft) hl r hmem
    · rcases List.mem_cons.1 hmem with rfl | hmem
      · exact Int.le_refl _
      · exact hbound (ihr hright) (fun k hk => Int.le_of_lt (hr k hk)) r hmem

/-- Tighter operators all go to the right operand. -/
theorem foldl_push_join (c : Connective) (left : OperatorTree) (rest : List (Connective × Name)) :
    ∀ right : OperatorTree, (∀ r ∈ rest, r.1.rank < c.rank) →
      rest.foldl push (.join c left right) = .join c left (rest.foldl push right) := by
  induction rest with
  | nil =>
    intro right _
    rfl
  | cons r rest ih =>
    intro right h
    rw [List.forall_mem_cons] at h
    have hpush : push (.join c left right) r = .join c left (right.push r) := by
      rw [push, if_neg (Int.not_le.2 h.1)]
    rw [List.foldl_cons, List.foldl_cons, hpush, ih _ h.2]

/-- A grouped tree is the one grown along its own sequence. -/
theorem Grouped.eq_climb {t : OperatorTree} (h : t.Grouped) : climb t.sequence = t := by
  induction t with
  | name x => rfl
  | join c left right ihl ihr =>
    obtain ⟨hleft, hright, hl, hr⟩ := h
    have hpush : left.push (c, right.sequence.first) =
        .join c left (.name right.sequence.first) := by
      cases left with
      | name x => rfl
      | join d l r => rw [OperatorTree.push, if_pos (hl d rfl)]
    have htight : ∀ r ∈ right.sequence.rest, r.1.rank < c.rank := by
      intro r hmem
      cases htop : right.top? with
      | none =>
        cases right with
        | name x => cases hmem
        | join => cases htop
      | some d => exact Int.lt_of_le_of_lt (hright.rank_le htop r hmem) (hr d htop)
    calc climb (left.sequence.join c right.sequence)
        = ((c, right.sequence.first) :: right.sequence.rest).foldl OperatorTree.push
            (climb left.sequence) := List.foldl_append ..
      _ = right.sequence.rest.foldl OperatorTree.push
            (.join c left (.name right.sequence.first)) := by
          rw [ihl hleft, List.foldl_cons, hpush]
      _ = .join c left (climb right.sequence) := foldl_push_join c left _ _ htight
      _ = .join c left right := by rw [ihr hright]

/-- There is exactly one grouped tree over a sequence. -/
theorem grouped_iff (t : OperatorTree) (s : OperandSequence) :
    t.Grouped ∧ t.sequence = s ↔ t = climb s := by
  constructor
  · rintro ⟨h, rfl⟩
    exact h.eq_climb.symm
  · rintro rfl
    exact climb_spec s

end OperatorTree

/-! ## The grammar finds the grouped tree -/

namespace Parse

theorem joint?_operation (t : OperatorTree) :
    t.operation.joint? = t.top?.map Connective.joint := by
  cases t <;> rfl

/-- The rank of a grouped tree is that of its outermost operator, or that of a name. -/
theorem fits_operation {t : OperatorTree} {c : Connective} :
    ((∀ d ∈ t.top?, d.rank ≤ c.rank) → FitsLeft c.joint false t.operation) ∧
      ((∀ d ∈ t.top?, d.rank < c.rank) → FitsRight c.joint false t.operation) := by
  have hcast : ∀ j ∈ Joint.plain, j ≠ Joint.cast := by decide +kernel
  have hpos := (rank_bounds c.joint c.mem_all).1
  unfold FitsLeft FitsRight operandGuard Operation.guard Operation.rank
  rw [joint?_operation]
  cases t.top? with
  | none =>
    simp
    omega
  | some d =>
    have hne : d.joint ≠ Joint.cast := hcast _ d.plain
    simp only [Option.mem_def, Option.some.injEq, forall_eq', Connective.rank, Option.map_some,
      Option.getD_some, hne, if_false, forall_true_left, Bool.false_eq_true]
    omega

/-- A grouped tree is read from its sequence. -/
theorem readsAs_grouped {t : OperatorTree} (h : t.Grouped) :
    ReadsAs t.operation t.sequence.glyphs := by
  induction t with
  | name x => exact readsOperation_name x {}
  | join c left right ihl ihr =>
    obtain ⟨hleft, hright, hl, hr⟩ := h
    rw [OperatorTree.sequence, OperandSequence.glyphs_join]
    exact readsAs_join c.plain (ihl hleft) (ihr hright) (fits_operation.1 hl) (fits_operation.2 hr)

/-- The start rule for expressions reads a sequence as the tree grown along it. -/
theorem reads_operands (s : OperandSequence) {o : Options} (ho : o.rule = .expression) :
    Reads (startRule o) s.glyphs (fun g => g = Lexer.endGlyph) (OperatorTree.climb s).node := by
  obtain ⟨hgrouped, hsequence⟩ := OperatorTree.climb_spec s
  have hread := readsAs_grouped hgrouped
  rw [hsequence] at hread
  unfold startRule
  rw [ho]
  refine takes_fueled fun fuel hfuel => ?_
  obtain ⟨fuel, rfl⟩ : ∃ m, fuel = m + 1 := ⟨fuel - 1, by omega⟩
  have hend : Follows 102 Lexer.endGlyph := follows_of_closer _ (by decide)
  refine (hread.expression (by omega)).last (fun n hn => ?_) fun g hg => by rw [hg]; exact hend
  exact (takes_expect_end _).look (fun _ _ => Takes.pure hn) fun g hg => by
    rw [List.headD_nil, hg]
    rfl

end Parse

namespace OperandSequence

/-- The text of a sequence spells its tokens. -/
theorem spells_text (s : OperandSequence) :
    Doc.Spells .fresh (.bare s.text) s.glyphs .word := by
  have hblank (e : Doc.Edge) : Doc.Spells e (.bare " ") [] .fresh := .text [] .fresh rfl rfl
  -- a blank, the operator, a blank and the name, behind what is written already
  have hgrow (rest : List (Connective × Name)) (x : String) (gs : List Glyph)
      (hx : Doc.Spells .fresh (.bare x) gs .word) :
      Doc.Spells .fresh (.bare (rest.foldl
          (fun text r => text ++ " " ++ r.1.joint.op ++ " " ++ r.2.text) x))
        (gs ++ rest.flatMap fun r => [r.1.glyph, r.2.glyph]) .word := by
    induction rest generalizing x gs with
    | nil =>
      rw [List.flatMap_nil, List.append_nil]
      exact hx
    | cons r rest ih =>
      have hnext := (((hx.concat (hblank _)).concat (Layout.spells_operator r.1.mem_all)).concat
        (hblank _)).concat (Doc.Spells.name r.2.isName).1
      have hrest := ih _ _ hnext
      simp only [List.append_nil, List.append_assoc, List.cons_append, List.nil_append] at hrest
      exact hrest
  exact hgrow s.rest s.first.text [s.first.glyph] (Doc.Spells.name s.first.isName).1

/-- The tokens of a sequence are names and operators. -/
theorem known_glyphs (s : OperandSequence) : ∀ g ∈ s.glyphs, g.kind ≠ .unknown :=
  s.spells_text.scans.known

end OperandSequence

/-- Names joined by operators are parsed, as their text with single blanks and as any other source
with these tokens, into the one tree that reads as the sequence and is grouped by rank. -/
theorem parse_sequence (s : OperandSequence) (o : Options) :
    ∃ t : OperatorTree, t.sequence = s ∧ t.Grouped ∧
      (∀ t' : OperatorTree, t'.sequence = s → t'.Grouped → t' = t) ∧
      (∃ root, parse s.text { o with rule := .expression } = .ok (root, []) ∧
        root.unspanned = t.node) ∧
      ∀ (source : String) (tokens : List Token) (comments : List Comment),
        tokenize source o.origin = .ok (tokens, comments) →
        tokens.map Token.glyph = s.glyphs ++ [Lexer.endGlyph] →
        ∃ root, parse source { o with rule := .expression } = .ok (root, comments) ∧
          root.unspanned = t.node := by
  obtain ⟨hgrouped, hsequence⟩ := OperatorTree.climb_spec s
  have hread := Parse.reads_operands s (o := { o with rule := .expression }) rfl
  refine ⟨OperatorTree.climb s, hsequence, hgrouped, ?_, ?_, ?_⟩
  · intro t' hs ht
    exact (OperatorTree.grouped_iff t' s).1 ⟨ht, hs⟩
  · exact parse_of_reads s.spells_text.scans hread
  · intro source tokens comments htokens hglyphs
    exact parse_of_tokens htokens hglyphs s.known_glyphs hread

end MonkeyFormat
