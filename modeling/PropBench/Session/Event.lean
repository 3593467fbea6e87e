import PropBench.Session.Basic
import PropBench.Source.Reading

/-!
# Session — Event

The events of a run, in order: for each statement the names it declares and then its result,
after the statement that halts a program the halt, and at the end of each program its end.

* `Session.read` reads a program from bytes and runs it; bytes that are no program are answered by
  the error in them.
-/

namespace PropBench

/-- Something an observer of a session is told. -/
inductive Event where
  | declared (index : Nat) (space : Namespace) (name : String)
  | reported (r : Result)
  | halted (index : Nat)
  | finished

/-- The events of a statement. -/
def Result.events (r : Result) : List Event :=
  match r.outcome with
  | .ok (.declared space names) => names.map (.declared r.index space) ++ [.reported r]
  | _ => [.reported r]

/-- The events of a program. -/
def Run.events (run : Run) : List Event :=
  run.results.flatMap Result.events ++ (run.halted?.map Event.halted).toList ++ [.finished]

/-- What comes of a text that is read as a program: the session after it, what it answers, and what
an observer is told. -/
structure Reading where
  session : Session
  answer : Except SyntaxError (List Result)
  events : List Event

namespace Session

/-- Processes the program of a text.  In place of a text there can be the reason why none could be
read. -/
def readText (s : Session) (source : Except SyntaxError String) : Reading :=
  match source >>= s.config.parse with
  | .error e => ⟨s, .error e, []⟩
  | .ok p =>
    let r := s.run p
    ⟨r.session, .ok r.results, r.events⟩

/-- Reads a program from bytes and processes it. -/
def read (s : Session) (bytes : ByteArray) : Reading := s.readText (decodeText bytes)

end Session

end PropBench
