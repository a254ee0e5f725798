import MonkeyFormat.Grammar.Program
import MonkeyFormat.Layout.Monkey
import MonkeyFormat.Parentheses

set_option autoImplicit false

/-! # Formatting

A source is parsed, parentheses are made explicit, comments are attached, the tree is laid out as
a document, and the document is rendered. -/

namespace MonkeyFormat

namespace Layout

/-- The source text of a node that is kept as it is. The comments inside it are in that text; its
own leading and trailing ones are still to be laid out. -/
def verbatim (cx : Context) (c : Cursor) (n : Node) : Layout Doc := do
  let here := c.address
  let inside := cx.attached.filter fun a =>
    here.isPrefixOf a.owner && (a.owner ≠ here || a.role = .dangling)
  inside.forM markPrinted
  pure (.bare (cx.source.slice n.start n.stop))

/-- Lays out what the cursor points to, with comments. -/
def commented (cx : Context) (child : Child) (c : Cursor) : Layout Doc := do
  match c.focus with
  | .node n =>
    let own := own cx c
    let d ← if !cx.source.isEmpty && hasIgnore own then verbatim cx c n else monkey cx child c
    withComments cx own d
  | _ => monkey cx child c

/-- Lays out the tree below a cursor; `fuel` bounds its depth. -/
def tree (cx : Context) : Nat → Cursor → Layout Doc
  | 0, _ => throw .exhausted
  | fuel + 1, c =>
    commented cx (fun c name? =>
      match name? with
      | none => tree cx fuel c
      | some name => tree cx fuel (c.field name)) c

/-- A tree as a document, and the comments that were laid out. -/
def document (cx : Context) (root : Node) : Except Fault (Doc × List Nat) :=
  (tree cx (root.depth + 1) (.root (.node root))).run []

end Layout

/-- A formatted text, with the comments that did not get into it. -/
structure Formatted where
  text : String
  lost : List Comment

/-- The warning about lost comments, if there are any. -/
def Formatted.warning? (f : Formatted) : Option String :=
  if f.lost.isEmpty then none
  else some (toString f.lost.length ++ " comments were not printed: [" ++
    ", ".intercalate (f.lost.map Comment.describe) ++ "]")

/-- Formats a tree with its comments, whose spans refer to the source text; the text is empty if it
is not known. -/
def formatTree (root : Node) (comments : List Comment) (source : String) (o : Options) :
    Except Fault Formatted := do
  let root := (← Parentheses.run root).result
  let text := Source.ofString source
  let attached ← attach Layout.mayOwn root text comments
  let (doc, printed) ← Layout.document ⟨o.widths, text, attached⟩ root
  let lost := comments.zipIdx.filterMap fun (c, id) =>
    if printed.contains id then none else some c
  let out ← doc.render o.widths
  pure ⟨out, lost⟩

/-- Formats a source text. -/
def formatSource (source : String) (o : Options) : Except Fault Formatted := do
  let (root, comments) ← parse source o
  formatTree root comments source o

end MonkeyFormat
