import Snapshot.Consent
import Snapshot.Export.Run

/-!
# The command line

    [-C DIR] [-y] [-q | -v] VERSION DIR

Arguments are read from left to right, and the first one that cannot be right settles that the line
is refused; `-V` and `-h` settle it too once they are reached. Options stand anywhere before a `--`,
short ones may share a dash, and none may be given twice. A negative number is a version where one
is still expected, not an option.
-/

namespace Snapshot.CommandLine

/-- What the line asks for when it asks for an export. -/
structure Options where
  version : Int64
  destination : Path
  baseDirectory : Path
  yes : Bool
  quiet : Bool
  verbose : Bool
deriving DecidableEq

/-- What the line comes to. -/
inductive Invocation where
  | run (options : Options)
  | showVersion
  | showHelp
  | refused
deriving DecidableEq

inductive Flag where
  | yes
  | quiet
  | verbose
deriving DecidableEq, Repr

def Flag.ofLetter? : Char → Option Flag
  | 'y' => some .yes
  | 'q' => some .quiet
  | 'v' => some .verbose
  | _ => none

/-- How the next argument is to be read. -/
inductive Mode where
  | any
  /-- As the value of an option that still lacks one. -/
  | baseDirectory
  /-- As it stands, after a `--`. -/
  | positional
deriving DecidableEq, Repr

/-- What the arguments read so far say. -/
structure Draft where
  mode : Mode := .any
  version? : Option Int64 := none
  destination? : Option Path := none
  baseDirectory? : Option Path := none
  flags : List Flag := []

/-- Whether the text after a minus sign makes a number: digits, perhaps with one point after a digit
and, later, one exponent mark that something follows. -/
def isNumber (text : List Char) : Bool :=
  match text with
  | '.' :: _ => false
  | c :: _ => !isMark c && whole text
  | [] => true
where
  isMark (c : Char) : Bool := c = 'e' || c = 'E'
  whole : List Char → Bool
    | [] => true
    | c :: rest =>
        if c = '.' then fraction rest
        else if isMark c then exponent rest
        else c.isDigit && whole rest
  fraction : List Char → Bool
    | [] => true
    | c :: rest => if isMark c then exponent rest else c.isDigit && fraction rest
  exponent (digits : List Char) : Bool :=
    digits ≠ [] && digits.all Char.isDigit

namespace Draft

/-- The line is settled by an argument, or the draft goes on. -/
abbrev Reading := Except Invocation Draft

def setBaseDirectory (draft : Draft) (value : List Char) : Reading :=
  if draft.baseDirectory?.isSome ∨ value = [] then .error .refused
  else .ok { draft with mode := .any, baseDirectory? := some (.ofString (String.ofList value)) }

def raise (draft : Draft) (flag : Flag) : Reading :=
  if flag ∈ draft.flags then .error .refused
  else .ok { draft with flags := flag :: draft.flags }

/-- Takes the version first and the destination second. -/
def addPositional (draft : Draft) (value : List Char) : Reading :=
  match draft.version?, draft.destination? with
  | none, _ =>
      match Decimal.readInt64? value with
      | some version => .ok { draft with version? := some version }
      | none => .error .refused
  | some _, none =>
      if value = [] then .error .refused
      else .ok { draft with destination? := some (.ofString (String.ofList value)) }
  | some _, some _ => .error .refused

/-- Reads the letters after a single dash. -/
def readLetters (draft : Draft) : List Char → Reading
  | [] => .ok draft
  | 'V' :: _ => .error .showVersion
  | 'h' :: _ => .error .showHelp
  | ['C'] => .ok { draft with mode := .baseDirectory }
  | 'C' :: '=' :: value => draft.setBaseDirectory value
  | 'C' :: value => draft.setBaseDirectory value
  | c :: rest =>
      match Flag.ofLetter? c with
      | some flag =>
          match draft.raise flag with
          | .ok draft => draft.readLetters rest
          | .error settled => .error settled
      | none => .error .refused

/-- Reads an option after two dashes. -/
def readWord (draft : Draft) (word : List Char) : Reading :=
  let name := String.ofList (word.takeWhile (· ≠ '='))
  let value? := (word.dropWhile (· ≠ '=')).tail?
  match name, value? with
  | "yes", none => draft.raise .yes
  | "quiet", none => draft.raise .quiet
  | "verbose", none => draft.raise .verbose
  | "version", none => .error .showVersion
  | "help", none => .error .showHelp
  | "base-dir", none => .ok { draft with mode := .baseDirectory }
  | "base-dir", some value => draft.setBaseDirectory value
  | _, _ => .error .refused

/-- Whether a text after a dash is a number where a version is still expected. -/
def expectsNumber (draft : Draft) (text : List Char) : Bool :=
  draft.version?.isNone && isNumber text

def read (draft : Draft) (argument : List Char) : Reading :=
  match draft.mode, argument with
  | .positional, _ => draft.addPositional argument
  | .any, ['-', '-'] => .ok { draft with mode := .positional }
  | .any, '-' :: '-' :: word => draft.readWord word
  | .any, '-' :: c :: rest =>
      if draft.expectsNumber (c :: rest) then draft.addPositional argument
      else draft.readLetters (c :: rest)
  | .any, _ => draft.addPositional argument
  | .baseDirectory, '-' :: c :: rest =>
      -- another option or the end of the options cannot be the value
      if c ≠ '-' ∧ draft.expectsNumber (c :: rest) then draft.setBaseDirectory argument
      else .error .refused
  | .baseDirectory, _ => draft.setBaseDirectory argument

/-- What the line comes to when all arguments are read. -/
def finish (draft : Draft) : Invocation :=
  match draft.mode, draft.version?, draft.destination? with
  | .baseDirectory, _, _ => .refused
  | _, some version, some destination =>
      if .quiet ∈ draft.flags ∧ .verbose ∈ draft.flags then .refused
      else
        .run
          { version
            destination
            baseDirectory := draft.baseDirectory?.getD (.ofString ".")
            yes := .yes ∈ draft.flags
            quiet := .quiet ∈ draft.flags
            verbose := .verbose ∈ draft.flags }
  | _, _, _ => .refused

def readAll (draft : Draft) : List String → Invocation
  | [] => draft.finish
  | argument :: rest =>
      match draft.read argument.toList with
      | .ok draft => draft.readAll rest
      | .error settled => settled

end Draft

def parse (arguments : List String) : Invocation :=
  ({} : Draft).readAll arguments

def Options.config (options : Options) : Config where
  baseDirectory := options.baseDirectory
  destination := options.destination
  version := options.version
  verbosity := if options.quiet then .quiet else if options.verbose then .verbose else .normal

def versionText : String := "verexport 0.1.0\n"

def helpText : String :=
  "Export a version-scoped snapshot of the project\n\n" ++
    "Usage: verexport [-C DIR] [-y] [-q | -v] VERSION DIR\n"

structure Execution where
  exitCode : Nat
  output : String := ""
  status : List Status := []
  /-- The report that is printed in the end, if there is one. -/
  report? : Option Report := none
  fileSystem : FileSystem

/-- Runs the program with its arguments and its standard input. -/
def execute (arguments : List String) (input : List UInt8) (fs : FileSystem) : Execution :=
  match parse arguments with
  | .refused => { exitCode := 2, fileSystem := fs }
  | .showVersion => { exitCode := 0, output := versionText, fileSystem := fs }
  | .showHelp => { exitCode := 0, output := helpText, fileSystem := fs }
  | .run options =>
      let confirm (_ : Path) : Bool := options.yes || Consent.isGiven input
      let outcome := runExport options.config confirm fs
      let asked := outcome.session.questions.map fun asked => Consent.question asked.destination
      { exitCode := if outcome.result.isOk then 0 else 1
        output := if options.yes then "" else String.join asked
        status := outcome.session.status
        report? := match outcome.result with
          | .ok _ => none
          | .error report => some report
        fileSystem := outcome.session.fileSystem }

end Snapshot.CommandLine
