import MonkeyFormat.Text.Digit

set_option autoImplicit false

/-! # Words of a command line

Each word is read on its own, before any of them takes effect: it is plain text, an option with
what is joined to it, or the divider behind which every word is plain. A long option may be cut
short as long as only one option starts like it, and one-letter options may share a word. -/

namespace MonkeyFormat

namespace CommandLine

/-- The options. -/
inductive Switch where
  | help
  | string
  | write
  | check
  | json
  | lineWidth
  | tabWidth
  | expression
  | fragment
  | verbose
deriving DecidableEq

/-- Does an option come with a value? -/
def Switch.takesValue : Switch → Bool
  | .string | .lineWidth | .tabWidth | .fragment => true
  | _ => false

/-- The options with a long name. -/
def longNames : List (String × Switch) := [
  ("--help", .help), ("--string", .string), ("--write", .write), ("--check", .check),
  ("--json", .json), ("--print-width", .lineWidth), ("--tab-width", .tabWidth),
  ("--expression", .expression), ("--alternate", .fragment), ("--verbose", .verbose)]

/-- The option with a one-letter name. -/
def ofLetter? : Char → Option Switch
  | 'h' => some .help
  | 's' => some .string
  | 'w' => some .write
  | _ => none

/-- How reading a command line may end without anything to run. -/
inductive Ending where
  /-- The user asked for help. -/
  | help
  /-- The command line makes no sense. -/
  | misuse
  /-- A width has no value. -/
  | noWidth
deriving DecidableEq

/-- The exit status of an ending. -/
def Ending.status : Ending → Nat
  | .help => 0
  | .misuse => 2
  | .noWidth => 1

/-- A word of the command line. -/
inductive Word where
  /-- A file name, or the value of the option before it. -/
  | plain (text : String)
  /-- The first `--`. -/
  | divider
  /-- A one-letter option, with the text joined to it: its value if it takes one, else more letters
  of options. -/
  | short (switch : Switch) (joined? : Option (List Char))
  /-- A long option, with the value behind an equals sign. -/
  | long (switch : Switch) (value? : Option String)
  /-- An option that there is not. -/
  | unknown
deriving DecidableEq

namespace Word

/-- The characters without a line break at the end. -/
def dropFinalBreak (cs : List Char) : List Char :=
  match cs.reverse with
  | '\n' :: rest => rest.reverse
  | _ => cs

/-- Do these characters, which follow a dash, make a negative number? -/
def isNumeral (cs : List Char) : Bool :=
  let cs := dropFinalBreak cs
  match cs.dropWhile Text.isDecimal with
  | [] => !cs.isEmpty
  | '.' :: fraction => !fraction.isEmpty && fraction.all Text.isDecimal
  | _ => false

/-- A word that starts with a dash and is no option: a negative number and a word with a space are
plain. -/
def stray (text : String) : Word :=
  if isNumeral (text.toList.drop 1) || text.toList.contains ' ' then .plain text else .unknown

/-- Reads a word that starts with two dashes. The full name of an option wins over names that it is
the start of. -/
def readLong (text : String) : Except Ending Word :=
  let name := text.toList.takeWhile (· ≠ '=')
  let value? := match text.toList.drop name.length with
    | [] => none
    | _ :: value => some (String.ofList value)
  match longNames.lookup (String.ofList name) with
  | some s => pure (.long s value?)
  | none =>
    match longNames.filter fun p => name.isPrefixOf p.1.toList with
    | [] => pure (stray text)
    | [(_, s)] => pure (.long s value?)
    | _ => throw .misuse

/-- Reads what follows the letter of an option; an equals sign may set it off. -/
def readJoined : List Char → Option (List Char)
  | [] => none
  | '=' :: cs => some cs
  | cs => some cs

/-- Reads one word that is not the divider. -/
def read (text : String) : Except Ending Word :=
  match text.toList with
  | '-' :: '-' :: _ => readLong text
  | '-' :: c :: cs =>
    match ofLetter? c with
    | some s => pure (.short s (readJoined cs))
    | none => pure (stray text)
  | _ => pure (.plain text)

/-- Reads all words. -/
def readAll : List String → Except Ending (List Word)
  | [] => pure []
  | "--" :: texts => pure (.divider :: texts.map .plain)
  | text :: texts => do
    let w ← read text
    let ws ← readAll texts
    pure (w :: ws)

end Word

end CommandLine

end MonkeyFormat
