import MonkeyFormat.Tree.Basic
import MonkeyFormat.Text.Quoted

set_option autoImplicit false

/-! # Comments

A comment lives outside the tree. Its value is its text without the delimiters. -/

namespace MonkeyFormat

/-- A comment of the source: `Line` for one that runs to the end of its line, `Block` for one
that has a closing delimiter. -/
structure Comment where
  kind : String
  value : String
  span : Span
deriving DecidableEq, Inhabited

namespace Comment

/-- Does the comment have a closing delimiter? -/
def isBlock (c : Comment) : Bool := c.kind = "Block"

/-- Before it is attached, a comment demands a line break after it iff it is a line comment. -/
def endsLine (c : Comment) : Bool := c.kind = "Line"

/-- The comment with its delimiters. -/
def text (c : Comment) : String :=
  if c.isBlock then "/*" ++ c.value ++ "*/" else "//" ++ c.value

/-- How a warning shows the comment. -/
def describe (c : Comment) : String :=
  "Comment(" ++ c.kind ++ ", " ++ Text.quoted c.value ++ ", " ++ toString c.span.start ++ "-" ++
    toString c.span.stop ++ ")"

/-- Two comments are the same if they have the same kind, text and offsets. -/
def same (a b : Comment) : Bool :=
  a.kind == b.kind && a.value == b.value && a.span.start == b.span.start &&
    a.span.stop == b.span.stop

end Comment

end MonkeyFormat
