import MonkeyFormat.Layout.Context

set_option autoImplicit false

/-! # Laying out comments

Leading comments come before their owner and trailing ones behind it; a comment that ends its line
waits as a line suffix. Dangling comments are laid out inside their owner where its rule has a
place for them, else behind it. -/

namespace MonkeyFormat

namespace Layout

/-! ## One comment -/

/-- Does every line of a block comment of several lines start with a star? -/
def isStarred (value : String) : Bool :=
  let lines := ("*" ++ value ++ "*").splitOn "\n"
  1 < lines.length && lines.all fun l => (Text.trimStart l).startsWith "*"

/-- The lines of a starred block comment: the stars stand one column in. -/
def starredLines (value : String) : List String :=
  let lines := value.splitOn "\n"
  lines.zipIdx.map fun (l, i) =>
    if i = 0 then Text.trimEnd l
    else if i + 1 < lines.length then " " ++ Text.trim l
    else " " ++ Text.trimStart l

/-- A comment as a document. -/
def comment (c : Comment) : Doc :=
  if !c.isBlock then .bare ("//" ++ Text.trimEnd c.value)
  else if isStarred c.value then
    .list [.bare "/*", Doc.join .hardline ((starredLines c.value).map .bare), .bare "*/"]
  else .bare ("/*" ++ c.value ++ "*/")

/-! ## Comments around a node -/

/-- A leading comment with what separates it from its owner; a blank line behind it is kept. -/
def leadingComment (cx : Context) (a : Attached) : Layout Doc := do
  markPrinted a
  let s := cx.source
  let span := a.comment.span
  let separator ←
    if !a.comment.isBlock then pure Doc.hardline
    else if ← s.newlineAfter span.stop then
      pure (if ← s.newlineBefore span.start then Doc.hardline else Doc.space)
    else pure (Doc.bare " ")
  let behind ← s.skipNewline (s.skipSpaces span.stop false)
  let blank ← s.newlineAfter behind
  pure (.list ([comment a.comment, separator] ++ if blank then [.hardline] else []))

/-- A trailing comment; the flag says whether it, or one before it, waits as a line suffix. -/
def trailingComment (cx : Context) (a : Attached) (waiting : Bool) : Layout (Doc × Bool) := do
  markPrinted a
  let contents := comment a.comment
  let start := a.comment.span.start
  if ← cx.source.newlineBefore start then
    let blank ← cx.source.previousLineEmpty start
    pure (.lineSuffix (.list
      [.hardline, if blank then .hardline else .bare "", contents]), true)
  else if !a.comment.isBlock || waiting then
    pure (.list [.lineSuffix (.list [.bare " ", contents]),
      if a.comment.isBlock then .bare "" else .breakParent], true)
  else pure (.list [.bare " ", contents], false)

/-- The leading and trailing comments of a node that are not laid out yet. -/
def around (cx : Context) : List Attached → Bool → Layout (List Doc × List Doc)
  | [], _ => pure ([], [])
  | a :: more, waiting => do
    if ← isPrinted a then around cx more waiting
    else if a.role = .leading then
      let d ← leadingComment cx a
      let (leading, trailing) ← around cx more waiting
      pure (d :: leading, trailing)
    else
      let (d, waiting) ← trailingComment cx a waiting
      let (leading, trailing) ← around cx more waiting
      pure (leading, d :: trailing)

/-- A node's document with the comments that the node owns around it. -/
def withComments (cx : Context) (own : List Attached) (d : Doc) : Layout Doc := do
  let (leading, trailing) ← around cx own false
  if leading.isEmpty && trailing.isEmpty then pure d
  else pure (.list [.list leading, d, .list trailing])

/-! ## Comments inside a node -/

/-- The dangling comments of a node that are not laid out yet, one on each line; none if there are
no such comments. -/
def dangling (own : List Attached) : Layout (Option Doc) := do
  let inside ← own.filterM fun a => do pure (a.role = .dangling && !(← isPrinted a))
  inside.forM markPrinted
  if inside.isEmpty then pure none
  else pure (some (Doc.join .hardline (inside.map fun a => comment a.comment)))

end Layout

end MonkeyFormat
