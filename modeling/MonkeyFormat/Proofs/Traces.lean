import Mathlib.Data.List.Forall2
import MonkeyFormat.Proofs.Ordinary

set_option autoImplicit false

/-! # What becomes of the operands

Identifiers, literals and the words for the receiver are the operands of a source. In its tree each
one is a node, but for the suffixes of byte arrays, which only show in a field of the array. A tree
leaves its traces in the order of the source: an operand where its node is met on the walk, and a
suffix behind all that is in the array. -/

namespace MonkeyFormat

/-- Is a token of this kind an operand? -/
def TokenKind.isOperand (kind : TokenKind) : Bool :=
  [TokenKind.ident, .number, .float, .string, .char, .literal, .receiver].contains kind

/-! ## The operands of a tree -/

namespace Node

/-- The field that holds the text of an operand, by the kind of its node. -/
def operandField? : String → Option String
  | "Identifier" => some "name"
  | "Literal" => some "raw"
  | "ThisExpression" => some "text"
  | _ => none

/-- The text and the span of a node that is an operand. -/
def operand? (n : Node) : Option (String × Span) :=
  match (operandField? n.kind).map n.get with
  | some (.str text) => some (text, n.span)
  | _ => none

/-- The operands of a tree in the order of the walk, each with its span. -/
def operands (n : Node) : List (String × Span) := n.walk.filterMap operand?

/-- Is a node of this kind an array, listed or of a given size? -/
def isArrayKind (kind : String) : Bool := ["ArrayExpression", "SizedArrayExpression"].contains kind

/-- Where an array with a suffix ends, and with it the suffix. -/
def suffixEnd? (n : Node) : Option Int :=
  if isArrayKind n.kind then
    match n.get "byte" with
    | .str _ => some n.stop
    | _ => none
  else none

/-- Where the suffixes of the arrays in a tree end, in the order of the walk. -/
def suffixEnds (n : Node) : List Int := n.walk.filterMap suffixEnd?

/-- The token is the suffix of an array in the tree. -/
def hasSuffix (n : Node) (t : Token) : Bool :=
  t.kind = .ident && t.text = "b" && n.suffixEnds.contains t.span.stop

end Node

/-! ## Traces -/

/-- What a tree keeps of an operand of its source. -/
inductive Trace where
  | operand (leaf : String × Span)
  | suffix (stop : Int)

namespace Trace

/-- The text and the span of an operand. -/
def operand? : Trace → Option (String × Span)
  | .operand leaf => some leaf
  | .suffix _ => none

/-- Where a suffix ends. -/
def suffixEnd? : Trace → Option Int
  | .operand _ => none
  | .suffix stop => some stop

end Trace

/-- The token is an operand that left the trace. -/
inductive Token.Leaves : Token → Trace → Prop
  | operand (t : Token) : Leaves t (.operand (t.text, t.span))
  | suffix (t : Token) (hkind : t.kind = .ident) (htext : t.text = "b") :
    Leaves t (.suffix t.span.stop)

namespace Node

/-- The traces in a tree, in the order of the source. -/
def traces (n : Node) : List Trace :=
  (n.operand?.map Trace.operand).toList ++
    (n.children.attach.flatMap fun ⟨c, _⟩ => c.traces) ++ (n.suffixEnd?.map Trace.suffix).toList
termination_by sizeOf n
decreasing_by exact sizeOf_lt_of_mem_children ‹_›

theorem traces_eq (n : Node) : n.traces = (n.operand?.map Trace.operand).toList ++
    n.children.flatMap traces ++ (n.suffixEnd?.map Trace.suffix).toList := by
  rw [traces]
  simp

/-- Is a node of this kind neither an operand nor an array? -/
def isInner (kind : String) : Bool := (operandField? kind).isNone && !isArrayKind kind

/-- A node that is neither an operand nor an array has the traces of its children. -/
theorem traces_of_inner {n : Node} (h : isInner n.kind = true) :
    n.traces = n.children.flatMap traces := by
  rw [isInner, Bool.and_eq_true, Option.isNone_iff_eq_none, Bool.not_eq_true'] at h
  rw [traces_eq, operand?, h.1, suffixEnd?, h.2]
  simp

/-- An operand has its own trace only. -/
theorem traces_of_leaf {n : Node} {field text : String} (hfield : operandField? n.kind = some field)
    (htext : n.get field = .str text) (harray : isArrayKind n.kind = false)
    (hchildren : n.children = []) : n.traces = [.operand (text, n.span)] := by
  have hoperand : n.operand? = some (text, n.span) := by
    rw [operand?, hfield, Option.map_some, htext]
  rw [traces_eq, hoperand, suffixEnd?, harray, hchildren]
  rfl

/-- An array has the traces of its children, and behind them that of its suffix. -/
theorem traces_of_array {n : Node} {byte : Option String} (hoperand : operandField? n.kind = none)
    (harray : isArrayKind n.kind = true) (hbyte : n.get "byte" = Parse.byteField byte) :
    n.traces = n.children.flatMap traces ++
      (byte.map fun _ => Trace.suffix n.stop).toList := by
  rw [traces_eq, operand?, hoperand, suffixEnd?, if_pos harray, hbyte]
  cases byte <;> simp [Parse.byteField]

/-- The operands among the traces are met on the walk in the same order. -/
theorem operands_of_traces (n : Node) : n.traces.filterMap Trace.operand? = n.operands := by
  induction n using children_induction with
  | step n ih =>
    have hchildren : (n.children.flatMap traces).filterMap Trace.operand? =
        n.children.flatMap operands := by
      rw [List.filterMap_flatMap]
      exact List.flatMap_congr ih
    have hown : (n.operand?.map Trace.operand).toList.filterMap Trace.operand? =
        n.operand?.toList := by
      cases n.operand? <;> rfl
    have hsuffix : (n.suffixEnd?.map Trace.suffix).toList.filterMap Trace.operand? = [] := by
      cases n.suffixEnd? <;> rfl
    rw [traces_eq, List.filterMap_append, List.filterMap_append, hchildren, hown, hsuffix,
      List.append_nil, operands, walk_eq, List.filterMap_cons, List.filterMap_flatMap]
    cases n.operand? <;> rfl

/-- The suffixes among the traces are those met on the walk. -/
theorem suffixEnds_of_traces (n : Node) :
    (n.traces.filterMap Trace.suffixEnd?).Perm n.suffixEnds := by
  induction n using children_induction with
  | step n ih =>
    have hchildren : ((n.children.flatMap traces).filterMap Trace.suffixEnd?).Perm
        (n.children.flatMap suffixEnds) := by
      rw [List.filterMap_flatMap]
      exact List.Perm.flatMap_left _ ih
    have hown : (n.operand?.map Trace.operand).toList.filterMap Trace.suffixEnd? = [] := by
      cases n.operand? <;> rfl
    have hsuffix : (n.suffixEnd?.map Trace.suffix).toList.filterMap Trace.suffixEnd? =
        n.suffixEnd?.toList := by
      cases n.suffixEnd? <;> rfl
    have hwalk : n.suffixEnds = n.suffixEnd?.toList ++ n.children.flatMap suffixEnds := by
      rw [suffixEnds, walk_eq, List.filterMap_cons, List.filterMap_flatMap]
      cases n.suffixEnd? <;> rfl
    rw [traces_eq, List.filterMap_append, List.filterMap_append, hown, hsuffix, hwalk,
      List.nil_append]
    exact (hchildren.append_right _).trans List.perm_append_comm

end Node

/-! ## Tokens by the traces they left -/

section Leaves

variable {ts : List Token} {traces : List Trace}

/-- A suffix ends where its token does. -/
theorem exists_of_mem_suffixEnds (h : List.Forall₂ Token.Leaves ts traces) {stop : Int}
    (hstop : stop ∈ traces.filterMap Trace.suffixEnd?) :
    ∃ t ∈ ts, (t.kind = .ident ∧ t.text = "b") ∧ t.span.stop = stop := by
  induction h with
  | nil => cases hstop
  | @cons t trace ts traces ht _ ih =>
    have htail (h : stop ∈ traces.filterMap Trace.suffixEnd?) :
        ∃ u ∈ t :: ts, (u.kind = .ident ∧ u.text = "b") ∧ u.span.stop = stop := by
      obtain ⟨u, hu, hsuffix⟩ := ih h
      exact ⟨u, List.mem_cons_of_mem t hu, hsuffix⟩
    cases ht with
    | operand => exact htail hstop
    | suffix hkind htext =>
      rcases List.mem_cons.1 hstop with rfl | hstop
      · exact ⟨t, List.mem_cons_self, ⟨hkind, htext⟩, rfl⟩
      · exact htail hstop

/-- If no two tokens end in the same place, suffixes are told from operands by where they end. -/
theorem leaves_split (h : List.Forall₂ Token.Leaves ts traces)
    (hstops : ts.Pairwise fun t u => t.span.stop ≠ u.span.stop) :
    let ends := traces.filterMap Trace.suffixEnd?
    traces.filterMap Trace.operand? =
        (ts.filter fun t => !ends.contains t.span.stop).map (fun t => (t.text, t.span)) ∧
      (ts.filter fun t => ends.contains t.span.stop).map (fun t => t.span.stop) = ends := by
  induction h with
  | nil => exact ⟨rfl, rfl⟩
  | @cons t trace ts traces ht hrest ih =>
    obtain ⟨hne, hstops⟩ := List.pairwise_cons.1 hstops
    obtain ⟨hoperands, hends⟩ := ih hstops
    have hfresh : (traces.filterMap Trace.suffixEnd?).contains t.span.stop = false := by
      rw [List.contains_eq_mem, decide_eq_false_iff_not]
      intro hmem
      obtain ⟨u, hu, -, hstop⟩ := exists_of_mem_suffixEnds hrest hmem
      exact hne u hu hstop.symm
    cases ht with
    | operand =>
      rw [List.filterMap_cons_none (by rfl), List.filterMap_cons_some (by rfl)]
      dsimp only
      rw [List.filter_cons_of_pos (by rw [hfresh]; rfl),
        List.filter_cons_of_neg (by rw [hfresh]; decide), List.map_cons]
      exact ⟨by rw [hoperands], hends⟩
    | suffix =>
      rw [List.filterMap_cons_some (by rfl), List.filterMap_cons_none (by rfl)]
      dsimp only
      have hother (u : Token) (hu : u ∈ ts) :
          (t.span.stop :: traces.filterMap Trace.suffixEnd?).contains u.span.stop =
            (traces.filterMap Trace.suffixEnd?).contains u.span.stop := by
        rw [List.contains_cons, beq_eq_false_iff_ne.2 (hne u hu).symm, Bool.false_or]
      have hself : (t.span.stop :: traces.filterMap Trace.suffixEnd?).contains t.span.stop =
          true := by
        rw [List.contains_cons, beq_self_eq_true, Bool.true_or]
      have hdropped := List.filter_congr fun u hu => congrArg Bool.not (hother u hu)
      have hkept := List.filter_congr hother
      rw [List.filter_cons, hself, List.filter_cons, hself, if_pos rfl, List.map_cons, hkept, hends]
      exact ⟨hoperands.trans (congrArg _ hdropped.symm), rfl⟩

/-- A token that ends where a suffix does is that suffix. -/
theorem suffix_of_mem (h : List.Forall₂ Token.Leaves ts traces)
    (hstops : ts.Pairwise fun t u => t.span.stop ≠ u.span.stop) {t : Token} (ht : t ∈ ts)
    (hstop : t.span.stop ∈ traces.filterMap Trace.suffixEnd?) : t.kind = .ident ∧ t.text = "b" := by
  obtain ⟨u, hu, hsuffix, heq⟩ := exists_of_mem_suffixEnds h hstop
  by_cases hut : u = t
  · rwa [← hut]
  · have hsymm : Std.Symm fun t u : Token => t.span.stop ≠ u.span.stop := ⟨fun _ _ h => h.symm⟩
    exact absurd heq (hstops.forall hu ht hut)

end Leaves

end MonkeyFormat
