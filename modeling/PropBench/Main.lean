import PropBench.CommandLine.Basic

/-!
# Main

The command: reads the files that the arguments name, or the standard input, writes what
`command` gives and exits with its code.
-/

namespace PropBench

/-- What stands at a path of the file system. -/
def lookAt (path : String) : IO Found := do
  match ← (IO.FS.Handle.mk path .read).toBaseIO with
  | .error _ => return .nothing
  | .ok handle =>
    match ← handle.readBinToEnd.toBaseIO with
    | .error _ => return .unreadable
    | .ok content => return .bytes content

/-- The names of the pages that the command prints about itself, which stand for their text. -/
def Page.name : Page → String
  | .summary => "usage"
  | .help => "help"
  | .version => "version"
  | .reference => "reference"

/-- The paths that a command reads, unless it reads no program. -/
def pathsOf? (args : List String) : Option (List String) :=
  match Options.ofArgs args with
  | .error _ => none
  | .ok o => if o.markdownHelp then none else some o.paths

/-- Runs the command with the given arguments. -/
def runCommand (args : List String) : IO UInt32 := do
  let paths? := pathsOf? args
  let files ← (paths?.getD []).mapM fun path => return (path, ← lookAt path)
  let input ← if paths? == some [] then (← IO.getStdin).readBinToEnd else pure .empty
  let file := fun path => ((files.find? fun f => f.1 == path).map (·.2)).getD .nothing
  let r := command Page.name args file input
  (← IO.getStdout).putStr r.output
  (← IO.getStderr).putStr r.errors
  return r.code.toUInt32

end PropBench

/-- The program on its arguments.  Its exit code is the code of the command. -/
def main (args : List String) : IO UInt32 := PropBench.runCommand args
