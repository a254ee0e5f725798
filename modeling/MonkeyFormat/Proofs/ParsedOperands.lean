import MonkeyFormat.Proofs.Consumption

set_option autoImplicit false

/-! # The operands of a parsed source

The tree of a source has its identifiers, literals and words for the receiver, each once, in the
order of the source, and with the spans of their tokens. The only such tokens that are no nodes are
the suffixes of byte arrays, of which each array that has one has its own. -/

namespace MonkeyFormat

/-- No two operands end in the same place. -/
theorem Tiling.operands_apart {source : String} {tokens : List Token} {comments : List Comment}
    {tiles : List Tile} (h : Tiling source tokens comments tiles) :
    (tokens.filter fun t => t.kind.isOperand).Pairwise fun t u => t.span.stop ≠ u.span.stop := by
  obtain ⟨last, rfl, hlast, -⟩ := h.tokens
  have htiles : tiles.Pairwise fun t u => t.span.stop ≠ u.span.stop := by
    refine h.ordered.imp_of_mem fun {t u} _ hu hle => ?_
    have := h.nonempty u hu
    omega
  have hfront : (tiles.filterMap Tile.token?).Pairwise fun t u => t.span.stop ≠ u.span.stop := by
    refine htiles.filterMap _ fun a b hab t ht u hu => ?_
    cases a <;> cases ht
    cases b <;> cases hu
    exact hab
  have hnone : [last].filter (fun t => t.kind.isOperand) = [] := by
    rw [List.filter_cons, hlast]
    rfl
  rw [List.filter_append, hnone, List.append_nil]
  exact hfront.filter _

/-- The operands of the tree, in the order of the walk, are those of the source, each with the span
of its token, but for the suffixes of byte arrays; and the suffixes are one for each such array. -/
theorem parse_operands {source : String} {o : Options} {root : Node} {comments : List Comment}
    (h : parse source o = .ok (root, comments)) :
    ∃ tokens, tokenize source o.origin = .ok (tokens, comments) ∧
      root.operands = ((tokens.filter fun t => t.kind.isOperand && !root.hasSuffix t).map fun t =>
        (t.text, t.span)) ∧
      ((tokens.filter root.hasSuffix).map fun t => t.span.stop).Perm root.suffixEnds := by
  obtain ⟨tokens, q, htokens, hrun⟩ := parse_eq_ok h
  obtain ⟨lx, hlexes, rfl⟩ := tokenize_eq_ok.1 htokens
  obtain ⟨tiles, htiles⟩ := Lexer.tiling_tokensWith hlexes
  refine ⟨tokens, htokens, ?_⟩
  -- any fault may come from any token here: only success matters
  have hready : (Parser.start tokens source o.origin).Ready fun _ => True :=
    ⟨fun _ _ => ⟨fun _ => trivial, fun _ _ => trivial, fun _ _ _ => trivial⟩, htiles.ends⟩
  have hmeets := Parse.meets_startRule (o := o) (fun _ => .inr fun _ => trivial) hready
  obtain ⟨⟨-, -, ts, hts, hleaves⟩, hnone⟩ := hmeets.ok hrun
  have hoperands : tokens.filter (fun t => t.kind.isOperand) = ts := by
    rw [hnone, List.append_nil] at hts
    exact hts
  have hapart := htiles.operands_apart
  rw [hoperands] at hapart
  rw [List.flatMap_singleton] at hleaves
  obtain ⟨hsame, hends⟩ := leaves_split hleaves hapart
  have hperm := root.suffixEnds_of_traces
  have hmarked (t : Token) (ht : t ∈ ts) :
      root.hasSuffix t = (root.traces.filterMap Trace.suffixEnd?).contains t.span.stop := by
    by_cases hstop : t.span.stop ∈ root.suffixEnds
    · have hstop' := hperm.mem_iff.2 hstop
      obtain ⟨hkind, htext⟩ := suffix_of_mem hleaves hapart ht hstop'
      rw [Node.hasSuffix, hkind, htext, List.contains_iff_mem.2 hstop,
        List.contains_iff_mem.2 hstop']
      rfl
    · have hstop' := mt hperm.mem_iff.1 hstop
      rw [Node.hasSuffix, Bool.eq_false_iff.2 (mt List.contains_iff_mem.1 hstop),
        Bool.eq_false_iff.2 (mt List.contains_iff_mem.1 hstop'), Bool.and_false]
  constructor
  · have hkept : tokens.filter (fun t => t.kind.isOperand && !root.hasSuffix t) =
        ts.filter fun t => !(root.traces.filterMap Trace.suffixEnd?).contains t.span.stop := by
      rw [← List.filter_congr fun t ht => congrArg Bool.not (hmarked t ht), ← hoperands,
        List.filter_filter]
      exact List.filter_congr fun t _ => Bool.and_comm _ _
    rw [hkept, ← hsame, Node.operands_of_traces]
  · have hsuffixes : tokens.filter root.hasSuffix =
        ts.filter fun t => (root.traces.filterMap Trace.suffixEnd?).contains t.span.stop := by
      rw [← List.filter_congr hmarked, ← hoperands, List.filter_filter]
      refine List.filter_congr fun t _ => ?_
      -- a suffix is an identifier, and so an operand
      cases hsuffix : root.hasSuffix t with
      | false => rfl
      | true =>
        rw [Node.hasSuffix, Bool.and_eq_true, Bool.and_eq_true, decide_eq_true_eq] at hsuffix
        rw [hsuffix.1.1]
        rfl
    rw [hsuffixes, hends]
    exact hperm

/-- An array with a suffix, and behind it an identifier of the same text. -/
theorem parse_operands_byteArray :
    ∃ root comments tokens,
      parse "[x, 1]b == me.b" { rule := .expression } = .ok (root, comments) ∧
      tokenize "[x, 1]b == me.b" none = .ok (tokens, comments) ∧
      root.operands = ((tokens.filter fun t => t.kind.isOperand && !root.hasSuffix t).map fun t =>
        (t.text, t.span)) ∧
      ((tokens.filter root.hasSuffix).map fun t => t.span.stop).Perm root.suffixEnds := by
  have hparses : (parse "[x, 1]b == me.b" { rule := .expression }).toBool = true := by
    decide +kernel
  cases h : parse "[x, 1]b == me.b" { rule := .expression } with
  | error fault =>
    rw [h] at hparses
    cases hparses
  | ok parsed =>
    obtain ⟨root, comments⟩ := parsed
    obtain ⟨tokens, htokens, hoperands⟩ := parse_operands h
    exact ⟨root, comments, tokens, rfl, htokens, hoperands⟩

end MonkeyFormat
