import MonkeyFormat.Comment.Attach
import MonkeyFormat.Options
import MonkeyFormat.Text.Lowercase
import MonkeyFormat.Tree.Cursor

set_option autoImplicit false

/-! # What layout rules work with

A rule turns the node under a cursor into a document. It may consult the source text and the
comments that the node owns, asks for its children through a callback, and keeps account of the
comments that have been laid out. -/

namespace MonkeyFormat

/-- What a layout rule may consult. -/
structure Context where
  widths : Doc.Widths := {}
  /-- The text that the tree comes from; empty if it is not known. -/
  source : Source := ⟨#[]⟩
  /-- All comments with their owners. -/
  attached : List Attached := []

/-- A layout in the making; the state holds the comments laid out so far. -/
abbrev Layout := StateT (List Nat) (Except Fault)

/-- Lays out what a cursor points to, or one of its fields. -/
abbrev Child := Cursor → Option String → Layout Doc

namespace Layout

/-- The comments that the node under the cursor owns, in the order in which they were attached. -/
def own (cx : Context) (c : Cursor) : List Attached :=
  cx.attached.filter fun a => a.owner = c.address

/-- Has a comment been laid out? -/
def isPrinted (a : Attached) : Layout Bool := do pure ((← get).contains a.id)

/-- Notes that a comment has been laid out. -/
def markPrinted (a : Attached) : Layout Unit := modify (a.id :: ·)

/-- Each element of a field of the node under the cursor, laid out. -/
def eachOf (child : Child) (c : Cursor) (name : String) : Layout (List Doc) := do
  let cs ← (c.field name).elements
  cs.mapM fun e => child e none

/-! ## Rules by kind -/

/-- The words of a kind in lowercase, with underscores between them: each capital but a leading one
starts a word. -/
def snake (kind : String) : String :=
  let spaced := match kind.toList with
    | [] => []
    | c :: cs => c :: cs.flatMap fun d => if 'A' ≤ d && d ≤ 'Z' then ['_', d] else [d]
  Text.lower (String.ofList spaced)

/-- The name of the rule for a kind. Kinds that differ only in how they mark their words share
one. -/
def ruleName (kind : String) : String := "print_" ++ snake kind

end Layout

end MonkeyFormat
