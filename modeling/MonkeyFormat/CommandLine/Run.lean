import MonkeyFormat.CommandLine.Arguments
import MonkeyFormat.CommandLine.Files
import MonkeyFormat.Payload

set_option autoImplicit false

/-! # Running a command line

A run formats one text after the other: the text given as an option, else the named files, else
the standard input. A text that cannot be read or is malformed is reported, and the run goes on;
any other fault ends it. -/

namespace MonkeyFormat

namespace CommandLine

/-- The name of the text that is given as an option. -/
def stringName : String := "<string>"

/-- The name of the standard input. -/
def inputName : String := "<stdin>"

/-- What a run has done so far. -/
structure Progress where
  output : String := ""
  errors : String := ""
  /-- The warnings about lost comments. -/
  warnings : List String := []
  /-- Was a text reported? -/
  failed : Bool := false
  /-- Did a text differ from its formatted form? -/
  changed : Bool := false
  /-- The fault that ended the run. -/
  fault? : Option Fault := none

/-- The exit status of a run that was not ended by a fault. -/
def Progress.status (p : Progress) (check : Bool) : Nat :=
  if p.failed then 2 else if check && p.changed then 1 else 0

/-- Adds a line about a text that could not be formatted. -/
def Progress.report (p : Progress) (line : String) : Progress :=
  { p with errors := p.errors ++ line ++ "\n", failed := true }

/-- The line about a fault of the named text, for the faults that do not end the run. -/
def reportLine? (name : String) : Fault → Option String
  | .malformed complaint place _ =>
    some (name ++ ":" ++ toString place.line ++ ":" ++ toString place.column ++ ": " ++
      complaint.message)
  | .notJson => (name ++ ": " ++ ·) <$> Fault.notJson.message?
  | .notAnObject => (name ++ ": " ++ ·) <$> Fault.notAnObject.message?
  | .untypedPayload keys => (name ++ ": " ++ ·) <$> (Fault.untypedPayload keys).message?
  | _ => none

/-- The text with a line break at its end. -/
def endLine (s : String) : String := if s.endsWith "\n" then s else s ++ "\n"

/-- Formats a text, as source or as payload. -/
def formatText (a : Arguments) (o : Options) (name text : String) : Except Fault Formatted :=
  let o := o.withOrigin (some name)
  if a.json then Payload.format text o else formatSource text o

/-- What becomes of a formatted text. -/
inductive Delivery where
  /-- Something is printed, possibly nothing. -/
  | print (text : String)
  /-- The file gets the new text. -/
  | store (text : String)

/-- Checking only names the texts that differ; writing goes to files that differ; everything else
is printed. -/
def deliver (a : Arguments) (name text formatted : String) : Delivery :=
  let changed := formatted ≠ text
  if a.check then .print (if changed then "would reformat " ++ name ++ "\n" else "")
  else if a.write && name ≠ inputName && name ≠ stringName then
    if changed then .store formatted else .print ""
  else .print (endLine formatted)

/-- What is read where the option of a text came without one: nothing stands where an expression is
read, but a program or a tree cannot be read from it. -/
def withoutText (a : Arguments) : Except Fault String :=
  if a.json then throw .wrongType else if a.expression then pure "" else throw .noAttribute

section

variable {m : Type → Type} [Monad m]

/-- Formats one text and delivers the result. -/
def runText (storage : Storage m) (a : Arguments) (o : Options) (name text : String)
    (p : Progress) : m Progress := do
  match formatText a o name text with
  | .error fault =>
    match reportLine? name fault with
    | some line => pure (p.report line)
    | none => pure { p with fault? := some fault }
  | .ok formatted =>
    let p := { p with warnings := p.warnings ++ formatted.warning?.toList }
    let done := { p with changed := p.changed || formatted.text ≠ text }
    match deliver a name text formatted.text with
    | .print s => pure { done with output := done.output ++ s }
    | .store s =>
      match ← storage.write name s with
      | .ok _ => pure done
      | .error e => pure (p.report (name ++ ": " ++ e.message name))

/-- Can a file have this name? -/
def isName (name : String) : Bool := !name.toList.contains '\x00'

/-- Reads and formats files one after the other. -/
def runFiles (storage : Storage m) (a : Arguments) (o : Options) :
    List String → Progress → m Progress
  | [], p => pure p
  | name :: names, p => do
    if !isName name then return { p with fault? := some .badName }
    let p ← match ← storage.read name with
      | .ok text => runText storage a o name (Text.unifyBreaks text) p
      | .error e => pure (p.report (name ++ ": " ++ e.message name))
    if p.fault?.isSome then pure p else runFiles storage a o names p

/-- Runs the arguments; `input` reads the standard input. -/
def runArguments (storage : Storage m) (input : m String) (a : Arguments) (o : Options) :
    m Progress := do
  match a.source?, a.files with
  | some (some text), _ => runText storage a o stringName text {}
  | some none, _ =>
    match withoutText a with
    | .ok text => runText storage a o stringName text {}
    | .error fault => pure { fault? := some fault }
  | none, [] => runText storage a o inputName (Text.unifyBreaks (← input)) {}
  | none, names => runFiles storage a o names {}

end

/-- What a command line asks for. -/
structure Job where
  arguments : Arguments
  options : Options

/-- Reads a command line. -/
def Job.read (texts : List String) : Except Ending Job := do
  let a ← Arguments.read texts
  let o ← a.options
  pure ⟨a, o⟩

/-- Runs a job. -/
def Job.run {m : Type → Type} [Monad m] (j : Job) (storage : Storage m) (input : m String) :
    m Progress :=
  runArguments storage input j.arguments j.options

/-- Runs a job over files in memory; answers what it did and the files after it. -/
def Job.runInMemory (j : Job) (input : String) (fs : Files) : Progress × Files :=
  (j.run Files.storage (pure input)).run fs

end CommandLine

end MonkeyFormat
