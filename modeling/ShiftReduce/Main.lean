import ShiftReduce.CommandLine.Report

/-! # The command line

Reads a grammar file, prints what is asked for and parses an expression. All
that is printed comes from `Options.report`.
-/

namespace ShiftReduce

/-- How many actions a parse may take before it is given up. -/
def stepLimit : Nat := Nat.pow 2 62

/-- What the operating system says about a file that cannot be read. -/
def fileError : IO.Error → FileError
  | .noFileOrDirectory .. => .notFound
  | .permissionDenied .. => .denied
  | .inappropriateType _ code _ => if code = 21 then .isDirectory else .notDirectory
  | .invalidArgument .. => .nameTooLong
  | e => .other (toString e)

def readText (path : String) : IO (Except FileError String) := do
  try
    let bytes ← IO.FS.readBinFile path
    match String.fromUTF8? bytes with
    | some text => return .ok text
    | none => return .error .notText
  catch e => return .error (fileError e)

/-- The files that the options name, read once each. -/
def readFiles (o : Options) : IO FileReader := do
  let grammar ← readText o.grammar
  let input ←
    match o.input with
    | some path => readText path
    | none => pure (.error .notFound)
  return fun path => if path = o.grammar then grammar else input

def runProgram (args : List String) : IO UInt32 := do
  match Options.ofArguments args with
  | .error .information => IO.print usageText; return 0
  | .error .usage => IO.eprint usageText; return 2
  | .ok o =>
      let report := o.report stepLimit (← readFiles o)
      IO.print report.stdout
      IO.eprint report.stderr
      return report.code.toUInt32

end ShiftReduce

def main (args : List String) : IO UInt32 := ShiftReduce.runProgram args
