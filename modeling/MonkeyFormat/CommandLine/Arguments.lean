import MonkeyFormat.CommandLine.Word
import MonkeyFormat.Number.Reading
import MonkeyFormat.Options

set_option autoImplicit false

/-! # Arguments

The words of a command line take effect from left to right. The files stand together, in one run of
plain words; a second run, like an option that there is not, is misuse, which is found only after
the other words took effect. So help is given if it is asked for before anything is wrong. A letter
that is no option is different: it spoils the whole word, and no option of the word takes effect.

A divider joined to an option is dropped, and the option has no value. -/

namespace MonkeyFormat

namespace CommandLine

/-- What the options ask for. -/
structure Arguments where
  /-- A source text to format in place of files; there may be none behind its option. -/
  source? : Option (Option String) := none
  write : Bool := false
  check : Bool := false
  json : Bool := false
  verbose : Bool := false
  lineWidth? : Option Int := some 80
  tabWidth? : Option Int := some 4
  expression : Bool := false
  fragment? : Option String := none
  files : List String := []
deriving DecidableEq

/-- Reads the value of a width. -/
def readWidth? : Option String → Except Ending (Option Int)
  | none => pure none
  | some text =>
    match Number.readDecimal? text with
    | some n => pure (some n)
    | none => throw .misuse

/-- The parts of a program that may be read on their own. The first is meant if none is named. -/
def fragments : List String := ["statements", "class"]

/-- Reads the name of a fragment. -/
def readFragment? : Option String → Except Ending (Option String)
  | none => pure fragments.head?
  | some name => if fragments.contains name then pure (some name) else throw .misuse

/-- Carries out one option; `value?` is what it came with. -/
def Arguments.apply (a : Arguments) (value? : Option String) : Switch → Except Ending Arguments
  | .help => throw .help
  | .string => pure { a with source? := some value? }
  | .write => pure { a with write := true }
  | .check => pure { a with check := true }
  | .json => pure { a with json := true }
  | .verbose => pure { a with verbose := true }
  | .lineWidth => do pure { a with lineWidth? := ← readWidth? value? }
  | .tabWidth => do pure { a with tabWidth? := ← readWidth? value? }
  | .expression => if a.fragment?.isSome then throw .misuse else pure { a with expression := true }
  | .fragment =>
    if a.expression then throw .misuse
    else do pure { a with fragment? := ← readFragment? value? }

/-! ## One word -/

/-- What one word with options asks for. -/
structure Request where
  /-- The options without a value, in order. -/
  flags : List Switch := []
  /-- The option with a value that comes last; its value may be the next word. -/
  valued? : Option (Switch × Option String) := none

namespace Request

/-- The request of one option and the value joined to it. -/
def single (s : Switch) (value? : Option String) : Except Ending Request :=
  if s.takesValue then pure { valued? := some (s, value?) }
  else if value?.isSome then throw .misuse
  else pure { flags := [s] }

/-- The request of a one-letter option and the characters that follow it. -/
def ofLetters (s : Switch) : List Char → Except Ending Request
  | [] => single s none
  | c :: cs =>
    if s.takesValue then single s (some (String.ofList (c :: cs)))
    else
      match ofLetter? c with
      | none => throw .misuse
      | some next => do
        let r ← ofLetters next cs
        pure { r with flags := s :: r.flags }

/-- The request of a one-letter option and the text joined to it. An empty text, which only an
equals sign can join, is a value. -/
def ofShort (s : Switch) : Option (List Char) → Except Ending Request
  | none => single s none
  | some [] => single s (some "")
  | some cs => ofLetters s cs

end Request

/-! ## All words -/

/-- How far the run of files has come. -/
inductive Stage where
  | before
  | within
  | behind
deriving DecidableEq

/-- What has been read so far. -/
structure Reading where
  arguments : Arguments := {}
  stage : Stage := .before
  /-- A request that waits for its value. -/
  pending? : Option Request := none
  /-- Was there a word that has no use? -/
  stray : Bool := false

namespace Reading

/-- Takes a file name, or the divider, which names none. -/
def takeFile (r : Reading) (file? : Option String) : Reading :=
  if r.stage = .behind then { r with stray := true }
  else
    { r with
      stage := .within
      arguments := { r.arguments with files := r.arguments.files ++ file?.toList } }

/-- An option ends the run of files. -/
def endRun (r : Reading) : Reading :=
  if r.stage = .within then { r with stage := .behind } else r

/-- The value that a text stands for. -/
def value? (text : String) : Option String := if text = "--" then none else some text

/-- Carries out a request; `text` is for the option that takes a value. -/
def carryOut (r : Reading) (q : Request) (text : String) : Except Ending Reading := do
  let a ← q.flags.foldlM (fun a s => a.apply none s) r.arguments
  let a ← match q.valued? with
    | some (s, _) => a.apply (value? text) s
    | none => pure a
  pure { r with arguments := a, pending? := none }

/-- Carries out a request, or waits for its value. -/
def take (r : Reading) (q : Request) : Except Ending Reading :=
  match q.valued? with
  | some (_, none) => pure { r.endRun with pending? := some q }
  | some (_, some text) => r.endRun.carryOut q text
  | none => r.endRun.carryOut q ""

/-- Reads one word. -/
def step (r : Reading) (w : Word) : Except Ending Reading :=
  match r.pending?, w with
  | some q, .plain text => r.carryOut q text
  | some _, _ => throw .misuse
  | none, .plain text => pure (r.takeFile (some text))
  | none, .divider => pure (r.takeFile none)
  | none, .unknown => pure { r.endRun with stray := true }
  | none, .short s joined? => do r.take (← Request.ofShort s joined?)
  | none, .long s value? => do r.take (← Request.single s value?)

end Reading

/-- Reads a command line. -/
def Arguments.read (texts : List String) : Except Ending Arguments := do
  let r ← (← Word.readAll texts).foldlM Reading.step {}
  if r.stray || r.pending?.isSome then throw .misuse else pure r.arguments

/-- The formatting options that the arguments ask for; widths that are not allowed are misuse. The
width of a line is looked at first. -/
def Arguments.options (a : Arguments) : Except Ending Options :=
  let rule : StartRule :=
    if a.expression then .expression else if a.fragment?.isSome then .fragment else .program
  match a.lineWidth? with
  | none => throw .noWidth
  | some lineWidth =>
    match Options.make lineWidth (a.tabWidth?.getD 0) rule a.fragment? none, a.tabWidth? with
    | .error _, _ => throw .misuse
    | .ok _, none => throw .noWidth
    | .ok o, some _ => pure o

end CommandLine

end MonkeyFormat
