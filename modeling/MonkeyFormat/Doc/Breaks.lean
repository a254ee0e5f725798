import MonkeyFormat.Doc.Basic

set_option autoImplicit false

/-! # Forced breaks

A hard line, a break command, or a text of several lines cannot stand on one line, so every group
around it is marked as broken before rendering. -/

namespace MonkeyFormat

namespace Doc

/-- Does a text run over a line break? -/
def isMultiline (s : String) : Bool := s.toList.contains '\n'

mutual

/-- Does the document hold a forced break, line suffixes not counted? -/
def willBreak : Doc → Bool
  | .bare s => isMultiline s
  | .text s => isMultiline s
  | .list parts => anyWillBreak parts
  | .concat parts => anyWillBreak parts
  | .fill parts => anyWillBreak parts
  | .indent d => d.willBreak
  | .group d broken => broken || d.willBreak
  | .line kind => kind = .hard
  | .breakParent => true
  | .lineSuffix _ => false
  | .alien _ => false

/-- Does one of the documents hold a forced break? -/
def anyWillBreak : List Doc → Bool
  | [] => false
  | d :: ds => d.willBreak || anyWillBreak ds

end

mutual

/-- Marks every group that holds a forced break as broken, and says whether the document holds
one. A break inside a line suffix counts here. -/
def propagate : Doc → Except Fault (Doc × Bool)
  | .bare s => pure (.bare s, isMultiline s)
  | .text s => pure (.text s, isMultiline s)
  | .line kind => pure (.line kind, kind = .hard)
  | .breakParent => pure (.breakParent, true)
  | .list parts => do
    let (ds, b) ← propagateAll parts
    pure (.list ds, b)
  | .concat parts => do
    let (ds, b) ← propagateAll parts
    pure (.concat ds, b)
  | .fill parts => do
    let (ds, b) ← propagateAll parts
    pure (.fill ds, b)
  | .group d broken => do
    let (d, b) ← d.propagate
    pure (.group d (b || broken), b || broken)
  | .indent d => do
    let (d, b) ← d.propagate
    pure (.indent d, b)
  | .lineSuffix d => do
    let (d, b) ← d.propagate
    pure (.lineSuffix d, b)
  | .alien v => throw (.notADocument v)

/-- Marks the broken groups of several documents, and says whether one of them holds a forced
break. -/
def propagateAll : List Doc → Except Fault (List Doc × Bool)
  | [] => pure ([], false)
  | d :: ds => do
    let (d, b) ← d.propagate
    let (ds, bs) ← propagateAll ds
    pure (d :: ds, b || bs)

end

/-- The document with every group that holds a forced break marked as broken. -/
def propagateBreaks (d : Doc) : Except Fault Doc := Prod.fst <$> d.propagate

end Doc

end MonkeyFormat
