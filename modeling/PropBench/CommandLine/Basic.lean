import PropBench.CommandLine.Options
import PropBench.Report.Line
import PropBench.Report.Results
import PropBench.Text.Quoted

/-!
# Command line — Basic

The program as a command: its arguments, the files they name and the standard input give what is
written and the exit code.

* All programs are read, in the order of their paths, before a statement is processed; without a
  path the program is the standard input (`readPrograms`).
* The programs are run as one, in a fresh session, unless a limit or a program is at fault
  (`Options.attempt`).
* The exit code is 0 if every statement succeeds, 1 if one fails, and 2 if the arguments or the
  programs are at fault (`command`).
* A page that the command is asked to print about itself is printed in place of a run.  The text of
  the pages is not of this library, and `command` is given it.
-/

namespace PropBench

/-- What is found where a program should be. -/
inductive Found where
  | nothing
  | unreadable
  | bytes (content : ByteArray)

/-- Why a program cannot be taken from its source; without a path the source is the standard
input. -/
inductive SourceFault where
  | notOpened (path : String)
  | notRead (path? : Option String)
  | malformed (path? : Option String) (e : SyntaxError)
  deriving DecidableEq, Repr, Inhabited

/-- The wording of a fault. -/
def SourceFault.message : SourceFault → String
  | .notOpened path => "Failed to open " ++ quoted path ++ "."
  | .notRead (some path) => "Failed to read " ++ quoted path ++ "."
  | .notRead none => "Failed to read standard input."
  | .malformed path? e => path?.getD "<stdin>" ++ ":" ++ e.message

/-- The program of a source. -/
def readProgramAt (config : Config) (path? : Option String) (content : ByteArray) :
    Except SourceFault Program :=
  match decodeText content with
  | .error _ => .error (.notRead path?)
  | .ok source =>
    match config.parse source with
    | .error e => .error (.malformed path? e)
    | .ok p => .ok p

/-- The program of a file. -/
def readFileProgram (config : Config) (file : String → Found) (path : String) :
    Except SourceFault Program :=
  match file path with
  | .nothing => .error (.notOpened path)
  | .unreadable => .error (.notRead (some path))
  | .bytes content => readProgramAt config (some path) content

/-- The programs of all files, one after the other, or that of the standard input. -/
def readPrograms (config : Config) (file : String → Found) (input : ByteArray) :
    List String → Except SourceFault Program
  | [] => readProgramAt config none input
  | paths => (paths.mapM (readFileProgram config file)).map List.flatten

/-- What a command writes, and its exit code. -/
structure CommandResult where
  code : Nat
  output : String
  errors : String
  deriving DecidableEq, Repr, Inhabited

namespace CommandResult

/-- The result of a command whose arguments are misused. -/
def misuse : CommandResult := ⟨2, "", "usage"⟩

/-- The result of a command that prints a page about itself. -/
def page (text : String) : CommandResult := ⟨0, text, ""⟩

/-- The result of a command that cannot begin. -/
def refusal (message : String) : CommandResult := ⟨2, "", message ++ "\n"⟩

/-- The result of a command that has run a program. -/
def ofRun (format : Format) (colours : Bool) (run : Run) : CommandResult :=
  let output :=
    match format with
    | .text => String.join ((run.events.filterMap (Event.line? colours)).map (· ++ "\n"))
    | .json => (recordsOf run.results).pretty ++ "\n"
  ⟨if run.results.any Result.failed then 1 else 0, output, ""⟩

end CommandResult

/-- The run that the options and paths ask for, or the message that it is refused with. -/
def Options.attempt (o : Options) (file : String → Found) (input : ByteArray) :
    Except String Run :=
  match o.config with
  | .error e => .error e.message
  | .ok config =>
    match readPrograms config file input o.paths with
    | .error f => .error f.message
    | .ok p => .ok (({ config } : Session).run p)

/-- The result of a command with the given arguments, files and standard input; `manual` has its
pages. -/
def command (manual : Page → String) (args : List String) (file : String → Found)
    (input : ByteArray) : CommandResult :=
  match Options.ofArgs args with
  | .error .misuse => .misuse
  | .error (.asked page) => .page (manual page)
  | .ok o =>
    if o.markdownHelp then
      .page (manual .reference)
    else
      match o.attempt file input with
      | .error message => .refusal message
      | .ok run => .ofRun o.format (!o.noColour) run

end PropBench
