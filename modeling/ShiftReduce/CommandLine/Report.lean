import ShiftReduce.Calculator.Scanner
import ShiftReduce.CommandLine.Options
import ShiftReduce.Grammar.Source
import ShiftReduce.Table.Build
import ShiftReduce.Table.Parse
import ShiftReduce.Table.Render

/-! # What the program prints

- `FileError`: why a file cannot be read as text.
- `Report`: the exit code and the two outputs.
- `Options.report`: loads the grammar, builds its table and parses, as far as
  each succeeds; a failure is told after what was printed before it.
-/

namespace ShiftReduce

inductive FileError where
  | notFound
  | denied
  | notDirectory
  | isDirectory
  | nameTooLong
  | notText
  /-- Any other reason, in the words of the operating system. -/
  | other (reason : String)
deriving DecidableEq, Repr

def FileError.message : FileError → String
  | .notFound => "No such file or directory (os error 2)"
  | .denied => "Permission denied (os error 13)"
  | .notDirectory => "Not a directory (os error 20)"
  | .isDirectory => "Is a directory (os error 21)"
  | .nameTooLong => "File name too long (os error 36)"
  | .notText => "stream did not contain valid UTF-8"
  | .other reason => reason

/-- The text of a file, or why there is none. -/
abbrev FileReader := String → Except FileError String

structure Report where
  code : Nat
  stdout : String
  stderr : String
deriving DecidableEq, Repr

/-! ## Failures -/

/-- Why something failed, from the nearest reason to the last one; several are
numbered. -/
def causeLines : List String → List String
  | [cause] => ["    " ++ Text.indented "    " cause]
  | causes => causes.zipIdx.map fun (cause, i) =>
      let number := toString i
      "".pushn ' ' (5 - number.length) ++ number ++ ": " ++ Text.indented "       " cause

def failureText (context : String) (causes : List String) : String :=
  Text.lines (["Error: " ++ context, "", "Caused by:"] ++ causeLines causes)

def Report.failure (stdout context : String) (causes : List String) : Report :=
  ⟨1, stdout, failureText context causes⟩

def TableError.causes (e : TableError) : List String :=
  match e with
  | .grammar d => [e.message, d.message]
  | _ => [e.message]

/-! ## The steps of the program -/

/-- The grammar of a file, or the reason that there is none. -/
def loadGrammar (read : FileReader) (path : String) : Except String Grammar :=
  match read path with
  | .error e => .error ("IO error: " ++ e.message)
  | .ok source =>
      match Grammar.ofSource source with
      | .error e => .error e.message
      | .ok g => .ok g

/-- What is told about conflicts, if there are any. -/
def conflictWarning (t : ParsingTable) : String :=
  match t.conflicts.length with
  | 0 => ""
  | n =>
      let plural := if n = 1 then "" else "s"
      s!"[warning] The grammar has {n} conflict{plural}; " ++
      "the first computed action was kept for each.\n"

/-- The text if it is asked for, with a blank line after it. -/
def dump (wanted : Bool) (text : String) : String := if wanted then text ++ "\n" else ""

def firstLine (text : String) : String := String.ofList (text.toList.takeWhile (· ≠ '\n'))

namespace Options

def policy (o : Options) : ConflictPolicy := if o.has .denyConflicts then .deny else .warn

def tableDump (o : Options) (t : ParsingTable) : String :=
  dump (o.has .dumpAutomaton) (t.grammar.automaton.render t.grammar.grammar) ++
  dump (o.has .dumpTable) t.render ++
  conflictWarning t

/-- The text to parse, if there is one. -/
def sourceText (o : Options) (read : FileReader) : Except (String × FileError) (Option String) :=
  match o.input with
  | some path =>
      match read path with
      | .error e => .error (path, e)
      | .ok text => .ok (some (firstLine text))
  | none => .ok o.expr

/-- The report on parsing a text, after `out` has been printed. A parse that does
not end within `steps` actions is given up. -/
def parseReport (steps : Nat) (t : ParsingTable) (out text : String) : Report :=
  match CalcToken.scan text with
  | .error e => .failure out "failed to scan the input" [e.message]
  | .ok tokens =>
      let context := "failed to parse the input"
      match t.parseTable.parse? steps tokens with
      | none => .failure out context ["the parse does not end"]
      | some (.error e) => .failure out context [e.message stateText CalcToken.label]
      | some (.ok tree) => ⟨0, out ++ tree.drawing, ""⟩

def report (steps : Nat) (read : FileReader) (o : Options) : Report :=
  match loadGrammar read o.grammar with
  | .error cause => .failure "" ("failed to load the grammar from " ++ o.grammar) [cause]
  | .ok g =>
      let out := dump (o.has .dumpGrammar) g.render
      match g.table o.policy with
      | .error e => .failure out "failed to build the parse table" e.causes
      | .ok t =>
          let out := out ++ o.tableDump t
          match o.sourceText read with
          | .error (path, e) =>
              .failure out ("failed to read the input file " ++ path) [e.message]
          | .ok none => ⟨0, out, ""⟩
          | .ok (some text) => parseReport steps t out text

end Options

end ShiftReduce
