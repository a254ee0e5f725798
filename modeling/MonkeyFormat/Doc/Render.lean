import MonkeyFormat.Doc.Breaks

set_option autoImplicit false

/-! # Rendering

The renderer works off a stack of frames, each a document with the indentation and the mode in
which it is laid out. A group goes flat if it and what follows it up to the next line break fit
into the rest of the line. Line suffixes wait until a line break is about to be written. -/

namespace MonkeyFormat

namespace Doc

/-- How line breaks are treated: `flat` takes only the hard ones. -/
inductive Mode where
  | flat
  | breaking
deriving DecidableEq, Inhabited

/-- A document with its indentation and mode. -/
structure Frame where
  indent : Int
  mode : Mode
  doc : Doc

/-- The total size of the documents of several frames. -/
def frameSizes : List Frame → Nat
  | [] => 0
  | f :: fs => f.doc.size + frameSizes fs

/-- The frames of several documents. -/
def framesOf (indent : Int) (mode : Mode) (ds : List Doc) : List Frame :=
  ds.map fun d => ⟨indent, mode, d⟩

theorem frameSizes_append (fs gs : List Frame) :
    frameSizes (fs ++ gs) = frameSizes fs + frameSizes gs := by
  induction fs with
  | nil => simp [frameSizes]
  | cons f fs ih => simp [frameSizes, ih, Nat.add_assoc]

theorem frameSizes_framesOf_le (indent : Int) (mode : Mode) (ds : List Doc) :
    frameSizes (framesOf indent mode ds) ≤ sizes ds := by
  induction ds with
  | nil => simp [framesOf, frameSizes, sizes]
  | cons d ds ih =>
    simp only [framesOf, List.map_cons, frameSizes, sizes] at ih ⊢
    omega

theorem size_pos (d : Doc) : 0 < d.size := by
  cases d <;> simp only [size] <;> omega

/-! ## Looking ahead -/

/-- How far a text reaches: the offset of its first line break, or none. -/
def firstBreak? (s : String) : Option Nat := s.toList.findIdx? (· = '\n')

/-- Do the frames of `probe`, and then those of `rest`, fit into `width` columns up to the next
line break that will really be written? With `strict` a broken group inside does not fit; with
`pending`, while a line suffix waits, a line break that would not be taken does not fit. -/
def fits (strict pending : Bool) (width : Int) (probe rest : List Frame) : Bool :=
  if width < 0 then false
  else match probe with
    | [] =>
      match rest with
      | [] => true
      | f :: rest => fits strict pending width [f] rest
    | ⟨ind, mode, d⟩ :: probe =>
      let onText (s : String) : Bool :=
        match firstBreak? s with
        | some n => decide ((n : Int) ≤ width)
        | none => fits strict pending (width - s.length) probe rest
      match d with
      | .bare s => onText s
      | .text s => onText s
      | .list parts => fits strict pending width (framesOf ind mode parts ++ probe) rest
      | .concat parts => fits strict pending width (framesOf ind mode parts ++ probe) rest
      | .fill parts => fits strict pending width (framesOf ind mode parts ++ probe) rest
      | .indent child => fits strict pending width (⟨ind, mode, child⟩ :: probe) rest
      | .group child broken =>
        if strict && broken then false
        else
          fits strict pending width
            (⟨ind, if broken then .breaking else mode, child⟩ :: probe) rest
      | .line .hard => true
      | .line kind =>
        if mode = .breaking then true
        else if pending then false
        else fits strict pending (if kind = .space then width - 1 else width) probe rest
      | .lineSuffix _ => fits strict pending width probe rest
      | .breakParent => fits strict pending width probe rest
      | .alien _ => fits strict pending width probe rest
termination_by (frameSizes probe + frameSizes rest, rest.length)
decreasing_by
  all_goals simp_wf
  all_goals simp only [frameSizes, frameSizes_append, size, Prod.lex_def]
  all_goals first
    | (have h := frameSizes_framesOf_le ind mode parts; omega)
    | omega
    | (have h := size_pos d; omega)

/-! ## Output -/

/-- What has been written, last character first. -/
abbrev Output := List Char

namespace Output

/-- Is `c` a blank that may not end a line? -/
def isTrailing (c : Char) : Bool := c = ' ' || c = '\t'

/-- The output without the blanks at its end. -/
def trim (out : Output) : Output := out.dropWhile isTrailing

/-- The output with a text added. -/
def push (out : Output) (s : String) : Output := s.toList.reverse ++ out

/-- The output with a line break and an indentation added, blanks before it removed. -/
def newline (out : Output) (indent : Int) : Output :=
  List.replicate indent.toNat ' ' ++ '\n' :: out.trim

/-- The output as a text. -/
def toText (out : Output) : String := String.ofList out.trim.reverse

end Output

/-- The column behind a text that starts at a column. -/
def columnAfter (col : Int) (s : String) : Int :=
  if isMultiline s then ((s.toList.reverse.takeWhile (· ≠ '\n')).length : Int)
  else col + s.length

/-! ## Fills -/

/-- The frames for the next content and separator of a fill, and for the rest of it. The separator
stays flat iff it fits together with the contents on both sides of it. -/
def fillFrames (indent : Int) (mode : Mode) (width : Int) : List Doc → List Frame
  | [] => []
  | [content] =>
    let fit := fits true false width [⟨indent, .flat, content⟩] []
    [⟨indent, if fit then .flat else .breaking, content⟩]
  | [content, sep] =>
    let fit := fits true false width [⟨indent, .flat, content⟩] []
    let m := if fit then Mode.flat else .breaking
    [⟨indent, m, content⟩, ⟨indent, m, sep⟩]
  | content :: sep :: next :: more =>
    let contentFits := fits true false width [⟨indent, .flat, content⟩] []
    let pairFits := fits true false width [⟨indent, .flat, .list [content, sep, next]⟩] []
    let contentMode := if pairFits || contentFits then Mode.flat else .breaking
    let sepMode := if pairFits then Mode.flat else .breaking
    [⟨indent, contentMode, content⟩, ⟨indent, sepMode, sep⟩,
      ⟨indent, mode, .fill (next :: more)⟩]

theorem frameSizes_fillFrames_le (indent : Int) (mode : Mode) (width : Int) (parts : List Doc) :
    frameSizes (fillFrames indent mode width parts) ≤ sizes parts := by
  unfold fillFrames
  split <;> simp [frameSizes, sizes, size] <;> omega

/-! ## The renderer -/

/-- Widths that the renderer keeps to. -/
structure Widths where
  /-- Columns that a line should not pass. -/
  line : Int := 80
  /-- Columns of one indentation level. -/
  tab : Int := 4
deriving Inhabited

/-- The mode for the child of a group that is met at a column, its frame being `f`: flat if the
group stands inside a flat one, or if it fits together with what follows. -/
def groupMode (w : Widths) (col : Int) (f : Frame) (broken pending : Bool)
    (stack : List Frame) : Mode :=
  if broken then .breaking
  else if f.mode = .flat then .flat
  else if fits false pending (w.line - col) [⟨f.indent, .flat, f.doc⟩] stack then .flat
  else .breaking

/-- Works off the frames of the stack, with `out` written so far up to column `col` and the line
suffixes `suffixes` waiting, first one first. -/
def run (w : Widths) (out : Output) (col : Int) (suffixes stack : List Frame) : Output :=
  match stack with
  | [] =>
    match suffixes with
    | [] => out
    | s :: more => run w out col [] (s :: more)
  | ⟨ind, mode, d⟩ :: stack =>
    match d with
    | .bare s => run w (out.push s) (columnAfter col s) suffixes stack
    | .text s => run w (out.push s) (columnAfter col s) suffixes stack
    | .list parts => run w out col suffixes (framesOf ind mode parts ++ stack)
    | .concat parts => run w out col suffixes (framesOf ind mode parts ++ stack)
    | .indent child => run w out col suffixes (⟨ind + w.tab, mode, child⟩ :: stack)
    | .group child broken =>
      let inner := groupMode w col ⟨ind, mode, child⟩ broken (!suffixes.isEmpty) stack
      run w out col suffixes (⟨ind, inner, child⟩ :: stack)
    | .fill parts => run w out col suffixes (fillFrames ind mode (w.line - col) parts ++ stack)
    | .lineSuffix child => run w out col (suffixes ++ [⟨ind, mode, child⟩]) stack
    | .breakParent => run w out col suffixes stack
    | .alien _ => run w out col suffixes stack
    | .line kind =>
      if mode = .flat ∧ kind ≠ .hard then
        if kind = .space then run w (out.push " ") (col + 1) suffixes stack
        else run w out col suffixes stack
      else
        match suffixes with
        | [] => run w (out.newline ind) ind [] stack
        | s :: more => run w out col [] (s :: more ++ ⟨ind, mode, .line kind⟩ :: stack)
termination_by (frameSizes suffixes + frameSizes stack, suffixes.length)
decreasing_by
  all_goals simp_wf
  all_goals simp only [frameSizes, frameSizes_append, size, Prod.lex_def]
  all_goals first
    | (have h := frameSizes_framesOf_le ind mode parts; omega)
    | (have h := frameSizes_fillFrames_le ind mode (w.line - col) parts; omega)
    | (simp; omega)
    | omega

/-- Renders a document within the given widths. -/
def render (w : Widths) (d : Doc) : Except Fault String := do
  let d ← d.propagateBreaks
  pure (run w [] 0 [] [⟨0, .breaking, d⟩]).toText

end Doc

end MonkeyFormat
