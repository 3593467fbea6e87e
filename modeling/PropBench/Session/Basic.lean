import PropBench.Session.Outcome

/-!
# Session — Basic

A session processes statements one after the other, and counts them.

* `Session.process` processes one statement; its result carries the number of statements
  processed before it.
* `Session.run` processes a program.  With `haltOnError` set it stops after the first statement
  that fails.
-/

namespace PropBench

/-- What a session has counted. -/
structure Counters where
  statements : Nat := 0
  failures : Nat := 0
  evaluations : Nat := 0
  adequacyChecks : Nat := 0
  deriving DecidableEq, Repr, Inhabited

/-- The counters after one more statement with the given outcome. -/
def Counters.count (c : Counters) : Except Fault Outcome → Counters
  | .ok (.declared _ _) => { c with statements := c.statements + 1 }
  | .ok (.evaluated _ _ _) =>
    { c with statements := c.statements + 1, evaluations := c.evaluations + 1 }
  | .ok (.adequacy _) =>
    { c with statements := c.statements + 1, adequacyChecks := c.adequacyChecks + 1 }
  | .error _ => { c with statements := c.statements + 1, failures := c.failures + 1 }

/-- The settings, counters and tables of a session. -/
structure Session where
  config : Config := {}
  counters : Counters := {}
  symbols : Symbols := {}
  deriving DecidableEq, Repr, Inhabited

/-- The result of a statement. -/
structure Result where
  index : Nat
  kind : StatementKind
  outcome : Except Fault Outcome

namespace Result

/-- Whether a statement ended in a fault. -/
def failed (r : Result) : Bool :=
  match r.outcome with
  | .ok _ => false
  | .error _ => true

/-- The value a statement found, if it evaluated a formula. -/
def value? (r : Result) : Option Bool :=
  match r.outcome with
  | .ok (.evaluated _ _ b) => some b
  | _ => none

/-- The report of a statement, if it checked an operator set. -/
def report? (r : Result) : Option AdequacyReport :=
  match r.outcome with
  | .ok (.adequacy report) => some report
  | _ => none

/-- The fault of a statement that failed. -/
def fault? (r : Result) : Option Fault :=
  match r.outcome with
  | .ok _ => none
  | .error f => some f

end Result

/-- A program run in a session: the session after it, the results, and the statement it was
halted after. -/
structure Run where
  session : Session
  results : List Result
  halted? : Option Nat

namespace Session

/-- Processes a statement. -/
def process (s : Session) (statement : Statement) : Session × Result :=
  let (answer, symbols) := (Symbols.execute s.config statement).on s.symbols
  ({ s with counters := s.counters.count answer, symbols },
    ⟨s.counters.statements, statement.kind, answer⟩)

/-- Processes the statements of a program. -/
def run (s : Session) : Program → Run
  | [] => ⟨s, [], none⟩
  | statement :: p =>
    let (t, r) := s.process statement
    if r.failed && s.config.haltOnError then
      ⟨t, [r], some r.index⟩
    else
      let rest := run t p
      { rest with results := r :: rest.results }

/-- Changes a setting. -/
def set (s : Session) (setting : Setting) : Except OutOfBounds Session :=
  (s.config.set setting).map fun config => { s with config }

end Session

end PropBench
