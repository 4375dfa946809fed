/-! # Command-line options

- `Options`: the grammar file, what to parse, and what to print.
- `Refusal`: why there is nothing to run; the arguments are wrong, or they ask
  for information about the program.
- `Options.ofArguments`: reads the arguments from left to right.
- `usageText`: what is told about the arguments.

The value of `-e` or `-i` is the rest of the argument, with or without `=`, or
the next argument unless that one looks like an option. After `--` no argument
is an option.
-/

namespace ShiftReduce

inductive Refusal where
  | usage
  | information
deriving DecidableEq, Repr

/-- How the program is called. -/
def usageText : String :=
  "usage: GRAMMAR [-i FILE | -e TEXT] [--dump-grammar] [--dump-automaton] " ++
  "[--dump-table] [--deny-conflicts]\n"

/-- The options that take a value. -/
inductive ValueOption where
  | input
  | expr
deriving DecidableEq, Repr

inductive Flag where
  | dumpGrammar
  | dumpAutomaton
  | dumpTable
  | denyConflicts
deriving DecidableEq, Repr

structure Options where
  grammar : String
  /-- The file whose first line is parsed. -/
  input : Option String
  /-- The text that is parsed. -/
  expr : Option String
  flags : List Flag
deriving DecidableEq, Repr

def Options.has (o : Options) (f : Flag) : Bool := o.flags.contains f

/-- The arguments read so far. -/
structure Arguments where
  grammar : Option String := none
  input : Option String := none
  expr : Option String := none
  flags : List Flag := []
deriving DecidableEq, Repr

namespace Arguments

/-- A file name, which may not be empty. -/
def addGrammar (a : Arguments) (path : String) : Except Refusal Arguments :=
  if path = "" ∨ a.grammar.isSome then .error .usage
  else .ok { a with grammar := some path }

def addFlag (a : Arguments) (f : Flag) : Except Refusal Arguments :=
  if a.flags.contains f then .error .usage else .ok { a with flags := f :: a.flags }

def addValue (a : Arguments) (value : String) : ValueOption → Except Refusal Arguments
  | .input =>
      if value = "" ∨ a.input.isSome then .error .usage
      else .ok { a with input := some value }
  | .expr => if a.expr.isSome then .error .usage else .ok { a with expr := some value }

/-- Adds arguments of which none is an option. -/
def addPlain (a : Arguments) : List String → Except Refusal Arguments
  | [] => .ok a
  | arg :: rest =>
      match a.addGrammar arg with
      | .error e => .error e
      | .ok a => addPlain a rest

end Arguments

/-! ## The forms of an argument -/

inductive ArgumentForm where
  /-- All arguments from here on are plain. -/
  | separator
  | plain
  | flag (f : Flag)
  /-- An option with its value, or without one. -/
  | option (o : ValueOption) (value : Option String)
  | information
  | unknown
deriving DecidableEq, Repr

/-- An option that is written with two dashes. -/
def longForm (name : String) (value : Option String) : ArgumentForm :=
  match name, value with
  | "input", value => .option .input value
  | "expr", value => .option .expr value
  | "dump-grammar", none => .flag .dumpGrammar
  | "dump-automaton", none => .flag .dumpAutomaton
  | "dump-table", none => .flag .dumpTable
  | "deny-conflicts", none => .flag .denyConflicts
  | "help", none => .information
  | "version", none => .information
  | _, _ => .unknown

/-- The value that stands in one argument with its option. -/
def attachedValue : List Char → Option String
  | [] => none
  | '=' :: value => some (String.ofList value)
  | value => some (String.ofList value)

/-- An option that is written with one dash. -/
def shortForm (name : Char) (rest : List Char) : ArgumentForm :=
  match name with
  | 'i' => .option .input (attachedValue rest)
  | 'e' => .option .expr (attachedValue rest)
  | 'h' => .information
  | 'V' => .information
  | _ => .unknown

def argumentForm (arg : String) : ArgumentForm :=
  match arg.toList with
  | ['-', '-'] => .separator
  | '-' :: '-' :: rest =>
      let name := String.ofList (rest.takeWhile (· ≠ '='))
      match rest.dropWhile (· ≠ '=') with
      | [] => longForm name none
      | _ :: value => longForm name (some (String.ofList value))
  | '-' :: c :: rest => shortForm c rest
  | _ => .plain

/-! ## All arguments -/

def Arguments.read (a : Arguments) : List String → Except Refusal Arguments
  | [] => .ok a
  | arg :: rest =>
      match argumentForm arg with
      | .separator => a.addPlain rest
      | .plain =>
          match a.addGrammar arg with
          | .error e => .error e
          | .ok a => a.read rest
      | .flag f =>
          match a.addFlag f with
          | .error e => .error e
          | .ok a => a.read rest
      | .option o (some value) =>
          match a.addValue value o with
          | .error e => .error e
          | .ok a => a.read rest
      | .option o none =>
          match rest with
          | [] => .error .usage
          | value :: rest =>
              if argumentForm value ≠ .plain then .error .usage
              else
                match a.addValue value o with
                | .error e => .error e
                | .ok a => a.read rest
      | .information => .error .information
      | .unknown => .error .usage

def Options.ofArguments (args : List String) : Except Refusal Options :=
  match Arguments.read {} args with
  | .error e => .error e
  | .ok a =>
      match a.grammar with
      | none => .error .usage
      | some grammar =>
          if a.input.isSome && a.expr.isSome then .error .usage
          else .ok ⟨grammar, a.input, a.expr, a.flags⟩

end ShiftReduce
