import MonkeyFormat.Doc.Render

set_option autoImplicit false

/-! # Options

What a caller may choose: the widths of the output, what the source is read as, and the name of
the source for messages. -/

namespace MonkeyFormat

/-- What a source text is read as. -/
inductive StartRule where
  /-- A whole compilation unit. -/
  | program
  /-- One expression. -/
  | expression
  /-- A bare run of statements or class members. -/
  | fragment
deriving DecidableEq, Inhabited

/-- Formatting options. A line has at least one column, and a tab is not negative. -/
structure Options where
  lineWidth : Int := 80
  tabWidth : Int := 4
  rule : StartRule := .program
  /-- Which fragment: `statements`, which is the default, or `class`. -/
  fragment : Option String := none
  origin : Option String := none
  lineWidth_pos : 1 ≤ lineWidth := by decide
  tabWidth_nonneg : 0 ≤ tabWidth := by decide

instance : Inhabited Options := ⟨{}⟩

namespace Options

/-- Options with the given widths, if they are allowed; the line width is checked first. -/
def make (lineWidth tabWidth : Int) (rule : StartRule) (fragment origin : Option String) :
    Except Fault Options :=
  if hl : 1 ≤ lineWidth then
    if ht : 0 ≤ tabWidth then
      pure ⟨lineWidth, tabWidth, rule, fragment, origin, hl, ht⟩
    else throw (.tabNegative tabWidth)
  else throw (.widthNotPositive lineWidth)

/-- The options with another source name. -/
def withOrigin (o : Options) (origin : Option String) : Options := { o with origin := origin }

/-- The widths that the renderer keeps to. -/
def widths (o : Options) : Doc.Widths := ⟨o.lineWidth, o.tabWidth⟩

end Options

end MonkeyFormat
