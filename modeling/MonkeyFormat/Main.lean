import MonkeyFormat.CommandLine.Run

set_option autoImplicit false

/-! # The program

Reads the command line, runs it over the files of the machine, and prints what came of it. -/

namespace MonkeyFormat

namespace CommandLine

/-- How to use the program. -/
def usage : String :=
  "usage: monkeyformat [-h] [-s TEXT] [-w] [--check] [--json] [--print-width N] " ++
  "[--tab-width N]\n" ++
  "                    [--expression | --alternate PARAM] [--verbose] [files ...]\n" ++
  "\n" ++
  "Formats Monkey C sources: files, a text, or the standard input.\n" ++
  "\n" ++
  "  -h, --help          show this text\n" ++
  "  -s, --string TEXT   format this source text\n" ++
  "  -w, --write         write the results to the files\n" ++
  "  --check             exit with 1 if a text is not formatted\n" ++
  "  --json              the texts are trees as JSON\n" ++
  "  --print-width N     the width of a line (80)\n" ++
  "  --tab-width N       the width of a tab (4)\n" ++
  "  --expression        read each text as one expression\n" ++
  "  --alternate PARAM   read each text as `statements` or as members of a `class`\n" ++
  "  --verbose           accepted, without effect\n"

/-- The cause of a failed access, if it is one that is reported. -/
def FileFault.ofError? : IO.Error → Option FileFault
  | .noFileOrDirectory .. => some .missing
  | .permissionDenied .. => some .forbidden
  | .inappropriateType _ code _ => some (if code = 21 then .folder else .notFolder)
  | .invalidArgument _ code _ => if code = 36 then some .tooLong else none
  | _ => none

/-- Turns reported causes into results; all others stay exceptions. -/
def caught {α : Type} (act : IO α) : IO (Except FileFault α) := do
  try
    let a ← act
    pure (.ok a)
  catch e =>
    match FileFault.ofError? e with
    | some fault => pure (.error fault)
    | none => throw e

/-- The files of the machine. -/
def machine : Storage IO where
  read name := caught (IO.FS.readFile name)
  write name text := caught (IO.FS.writeFile name text)

/-- The whole standard input. -/
partial def readInput (stream : IO.FS.Stream) (soFar : String) : IO String := do
  let line ← stream.getLine
  if line.isEmpty then pure soFar else readInput stream (soFar ++ line)

/-- Prints what a run did; answers its exit status. -/
def finish (j : Job) (p : Progress) : IO UInt32 := do
  let out ← IO.getStdout
  let err ← IO.getStderr
  out.putStr p.output
  out.flush
  for w in p.warnings do
    err.putStrLn ("warning: " ++ w)
  err.putStr p.errors
  match p.fault? with
  | some fault =>
    err.putStrLn (fault.message?.getD "the text cannot be formatted")
    pure 1
  | none => pure (UInt32.ofNat (p.status j.arguments.check))

end CommandLine

end MonkeyFormat

open MonkeyFormat MonkeyFormat.CommandLine in
/-- Formats what the command line names. -/
def main (texts : List String) : IO UInt32 := do
  match Job.read texts with
  | .error .help => IO.print usage; pure 0
  | .error .misuse => IO.eprint usage; pure 2
  | .error .noWidth => IO.eprint usage; pure 1
  | .ok j =>
    let input := do readInput (← IO.getStdin) ""
    let p ← j.run machine input
    finish j p
