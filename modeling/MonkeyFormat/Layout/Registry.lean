import MonkeyFormat.Format

set_option autoImplicit false

/-! # Printers and their registry

The language's printer builds on the generic one, which it finds in a registry by its tag. It
finds it once; until then it can do nothing that needs it. -/

namespace MonkeyFormat

/-- The tags under which a generic printer is registered. -/
structure Registry where
  tags : List String
deriving DecidableEq, Inhabited

namespace Registry

/-- The tag of the generic printer. -/
def genericTag : String := "estree"

/-- The registry that is used unless another one is given. -/
def standard : Registry := ⟨[genericTag]⟩

/-- Looks a printer up; the answer is the tag that the printer itself has. -/
def find (r : Registry) (tag : String) : Except Fault String :=
  if r.tags.contains tag then pure genericTag else throw (.noPrinter tag)

end Registry

/-- Where a printer's delegate comes from. -/
inductive Delegate where
  /-- The standard registry. -/
  | standard
  /-- A registry that the caller gave. -/
  | given
deriving DecidableEq, Inhabited

/-- The language's printer, with its delegate once that is found. -/
structure Printer where
  delegate? : Option Delegate := none
deriving DecidableEq, Inhabited

namespace Printer

/-- Has the delegate been found? -/
def initialized (p : Printer) : Bool := p.delegate?.isSome

/-- Finds the delegate, in the standard registry unless another one is given. A delegate that has
been found is kept. -/
def resolve (p : Printer) (r : Option Registry) : Except Fault Printer :=
  if p.initialized then pure p
  else do
    let _ ← (r.getD .standard).find Registry.genericTag
    pure ⟨some (if r.isNone then .standard else .given)⟩

/-- The delegate, which must have been found. -/
def delegate (p : Printer) : Except Fault Delegate :=
  match p.delegate? with
  | some d => pure d
  | none => throw .notInitialized

/-- May a value own comments? Only a node can, and only for other nodes than attributes is the
delegate asked. -/
def mayOwn (p : Printer) : Value → Except Fault Bool
  | .node n => if Layout.mayOwn n then (fun _ => true) <$> p.delegate else pure false
  | _ => pure false

/-- Formats a source with a new printer over a registry. -/
def format (r : Option Registry) (source : String) (o : Options) : Except Fault Formatted := do
  let _ ← ({} : Printer).resolve r
  formatSource source o

/-- Lays out a value on its own: each child is shown by its field name in angles. -/
def sample (generic : Bool) (v : Value) : Except Fault String := do
  let child : Child := fun _ name? => pure (.bare ("<" ++ name?.getD "" ++ ">"))
  let rule := if generic then Layout.generic else Layout.monkey
  let (d, _) ← (rule {} child (.root v)).run []
  d.render {}

end Printer

end MonkeyFormat
