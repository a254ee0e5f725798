import MonkeyFormat.Fault

set_option autoImplicit false

/-! # Documents

A document says where lines may break and leaves to the renderer which of them do. A group is
laid out on one line if it fits, else all its own line breaks are taken; a fill takes each of its
separators on its own. -/

namespace MonkeyFormat

/-- The kinds of line break. -/
inductive LineKind where
  /-- A space when it is not taken. -/
  | space
  /-- Nothing when it is not taken. -/
  | soft
  /-- Always taken. -/
  | hard
deriving DecidableEq, Inhabited

/-- A document. Bare texts and lists stand for themselves; `text` and `concat` are the same
things spelled as commands. -/
inductive Doc where
  | bare (s : String)
  | text (s : String)
  | list (parts : List Doc)
  | concat (parts : List Doc)
  /-- Lines that break inside the child are indented one level more. -/
  | indent (child : Doc)
  | line (kind : LineKind)
  | group (child : Doc) (broken : Bool)
  /-- Contents and separators in turn. -/
  | fill (parts : List Doc)
  /-- Held back until just before the next line break. -/
  | lineSuffix (child : Doc)
  /-- Breaks every group around it. -/
  | breakParent
  /-- A value that is no document; it cannot be rendered. -/
  | alien (v : Value)
deriving Inhabited

namespace Doc

/-- A space that may become a line break. -/
def space : Doc := .line .space

/-- A line break that may be left out. -/
def softline : Doc := .line .soft

/-- A line break that is always taken. -/
def hardline : Doc := .line .hard

/-- A concatenation; the parts of a part that is one itself are spliced in. -/
def concatOf (parts : List Doc) : Doc :=
  .concat (parts.flatMap fun
    | .concat inner => inner
    | d => [d])

/-- The parts with a separator between each two. -/
def join (sep : Doc) (parts : List Doc) : Doc := .list (parts.intersperse sep)

/-- Is the document the given bare text? -/
def isBare (d : Doc) (s : String) : Bool :=
  match d with
  | .bare t => t = s
  | _ => false

mutual

/-- A value as a document: a text and a list of such values are documents. -/
def ofValue : Value → Doc
  | .str s => .bare s
  | .list vs => .list (ofValues vs)
  | v => .alien v

/-- Each value of a list as a document. -/
def ofValues : List Value → List Doc
  | [] => []
  | v :: vs => ofValue v :: ofValues vs

end

mutual

/-- A bound on the rendering steps that a document takes. -/
def size : Doc → Nat
  | .list parts => 1 + sizes parts
  | .concat parts => 1 + sizes parts
  | .fill parts => 1 + sizes parts
  | .indent d => 1 + d.size
  | .group d _ => 1 + d.size
  | .lineSuffix d => 1 + d.size
  | _ => 1

/-- The sizes of all parts and their number. -/
def sizes : List Doc → Nat
  | [] => 0
  | d :: ds => 1 + d.size + sizes ds

end

end Doc

end MonkeyFormat
