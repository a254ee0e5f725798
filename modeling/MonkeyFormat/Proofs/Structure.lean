import MonkeyFormat.Proofs.Blocks
import MonkeyFormat.Proofs.DeclarationPrinting
import MonkeyFormat.Proofs.DeclarationReading
import MonkeyFormat.Proofs.Positions
import MonkeyFormat.Proofs.TokenPlaces
import MonkeyFormat.Tree.Comparison

set_option autoImplicit false

/-! # Structure survives formatting

A comment-free source of declarations and statements over simple expressions is formatted as a text
that is read by the same rule as the same declarations and statements, except that bodies have
become blocks and that access words are in order. -/

namespace MonkeyFormat

/-- The edges of a parsed tree are offsets. -/
theorem parse_edged {source : String} {o : Options} {root : Node} {comments : List Comment}
    (h : parse source o = .ok (root, comments)) : root.Edged (0 ≤ ·) := by
  obtain ⟨tokens, htokens, hshaped⟩ := parse_shaped h
  have hgood := (tokenize_good htokens).1
  refine hshaped _ (fun t ht => ?_) (Int.le_refl _) (Int.natCast_nonneg _)
  have hclear := hgood t ht
  exact { hclear with
    start := hclear.start.1
    stop := hclear.stop.1
    middle := fun hkind => (hclear.middle hkind).1 }

/-- The layout of a source is read as the source, with bodies made blocks and access words put in
order. -/
theorem formatSource_structure (x : Outline) (span : Span) {source : String} {o : Options}
    (hstart : x.Starts o) (h : parse source o = .ok (x.node .none span, [])) :
    ∃ text root, formatSource source o = .ok ⟨text, []⟩ ∧ parse text o = .ok (root, []) ∧
      root.unspanned = (x.node .settled span).unspanned := by
  have hmade : (Parentheses.explicit (x.node .none span)).result = x.node .blocks span :=
    Parentheses.made_outline x span
  have hprints : Layout.Prints (Layout.tree ⟨o.widths, Source.ofString source, []⟩
      ((Parentheses.explicit (x.node .none span)).result.depth + 1)
      ⟨.node (Parentheses.explicit (x.node .none span)).result, []⟩) .fresh x.glyphs .fresh := by
    rw [hmade]
    exact Layout.prints_outline rfl x span (parse_edged h) (Nat.le_succ _)
  obtain ⟨text, hformat, hscan⟩ := formatTree_of_prints (Parentheses.run_of_parse h) hprints
  obtain ⟨root, hparse, hroot⟩ := parse_of_reads hscan (Parse.reads_outline hstart span)
  refine ⟨text, root, ?_, hparse, hroot⟩
  unfold formatSource
  simp only [h, bind, Except.bind]
  exact hformat

/-- The root of a source, with its end found without splitting lines off. -/
theorem Parse.programOf_eq (body : List Node) : Parse.programOf body = (do
    let p ← get
    let last := Place.ofOffset p.source.toList p.source.length
    pure ⟨"Program", ⟨0, max p.source.length p.head.span.stop, 1, 1, last.line, last.column⟩,
      [("body", Parse.nodes body)]⟩) := by
  refine bind_congr fun p => ?_
  rw [← Place.ofOffset_length]

/-- A stretch of the first line. -/
def onFirstLine (first last : Int) : Span := ⟨first, last, 1, first + 1, 1, last + 1⟩

/-- A function with two access words, whose only statement is a choice without a block. -/
def guardedFunction : Outline :=
  let f : Name := ⟨"f", by decide⟩
  let g : Name := ⟨"g", by decide⟩
  let x : Name := ⟨"x", by decide⟩
  let call : Term := .call g (onFirstLine 45 46) [(x, onFirstLine 47 48)] (onFirstLine 45 49)
  let choice : Stmt := .ifThen (.name x (onFirstLine 35 36))
    (.returns (some call) (onFirstLine 38 50)) (onFirstLine 31 50)
  .program [.decl (.function
    (.words ⟨"static", by decide⟩ [⟨"private", by decide⟩] (onFirstLine 0 14))
    f (onFirstLine 24 25) [⟨x, onFirstLine 26 27, none⟩] none
    (some ([choice], onFirstLine 29 52)) (onFirstLine 0 52))]

theorem formatSource_structure_function :
    guardedFunction.Starts {} ∧
      parse "static private function f(x) \x7b if (x) return g(x); \x7d" {} =
        .ok (guardedFunction.node .none (onFirstLine 0 52), []) ∧
      ∃ text root, formatSource "static private function f(x) \x7b if (x) return g(x); \x7d" {} =
          .ok ⟨text, []⟩ ∧ parse text {} = .ok (root, []) ∧
        root.unspanned = (guardedFunction.node .settled (onFirstLine 0 52)).unspanned := by
  have hstart : guardedFunction.Starts {} := rfl
  have hparse : parse "static private function f(x) \x7b if (x) return g(x); \x7d" {} =
      .ok (guardedFunction.node .none (onFirstLine 0 52), []) := by
    unfold parse Parse.startRule Parse.program
    simp only [Parse.programOf_eq]
    decide +kernel
  exact ⟨hstart, hparse, formatSource_structure guardedFunction _ hstart hparse⟩

end MonkeyFormat
