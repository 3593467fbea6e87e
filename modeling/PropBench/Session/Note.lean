import PropBench.Session.Basic
import PropBench.Source.Reading

/-!
# Session — Note

What a session notes down of its work, for whoever looks into it.  A note keeps its cause; its
text is made when it is asked for, and a note on an operator without gaps in its table has none.

* `Session.notesOf`, `Session.notesOfRun`, `Session.notesOfRead`: the notes of a statement, of a
  program, and of a program read from a text.
-/

namespace PropBench

/-- How much a note matters. -/
inductive NoteLevel where
  | debug
  | info
  | warn
  deriving DecidableEq, Repr, Inhabited

/-- The word a level is written by. -/
def NoteLevel.text : NoteLevel → String
  | .debug => "DEBUG"
  | .info => "INFO"
  | .warn => "WARN"

/-- A note. -/
inductive Note where
  | parsed (kind : StatementKind)
  | parsedAll (count : Nat)
  | processing (kind : StatementKind)
  | formula (name : String) (e : Expr) (depth : Nat)
  | operator (o : Operator)
  | evaluated (formula valuation : String) (value : Bool)
  | profiled (p : OperatorProfile)
  | verdict (r : AdequacyReport)
  | failed (index : Nat) (kind : StatementKind) (fault : Fault)
  | halting (index : Nat)
  deriving Repr, Inhabited

namespace Note

/-- How much each note matters.  Only the note on a failed statement is a warning. -/
def level : Note → NoteLevel
  | .parsed _ | .processing _ | .formula _ _ _ | .profiled _ => .debug
  | .parsedAll _ | .operator _ | .evaluated _ _ _ | .verdict _ | .halting _ => .info
  | .failed _ _ _ => .warn

/-- The part of the session a note is about. -/
def topic : Note → String
  | .parsed _ | .parsedAll _ => "parser"
  | .processing _ | .failed _ _ _ | .halting _ => "program"
  | .formula _ _ _ | .operator _ => "symbols"
  | .evaluated _ _ _ => "evaluation"
  | .profiled _ | .verdict _ => "adequacy"

/-- Items in brackets. -/
def bracketed (items : List String) : String := "[" ++ ", ".intercalate items ++ "]"

/-- A truth value in a note, as a word. -/
def truthText (b : Bool) : String := if b then "true" else "false"

/-- The text of a note, if there is something to say. -/
def text? : Note → Option String
  | .parsed kind => some s!"Parsed {kind.text}"
  | .parsedAll count => some s!"Parsed {count} statements"
  | .processing kind => some s!"Processing {kind.text}"
  | .formula name e depth => some s!"Formula '{name}' = {e.text}, with depth {depth}"
  | .operator o =>
    let u := o.table.uncovered o.arity
    u.first?.map fun input =>
      s!"Operator '{o.name}' has no entry for {u.count} input(s), e.g. " ++
        bracketed (input.map truthText)
  | .evaluated f v b => some s!"{f} with {v} = {truthText b}"
  | .profiled p =>
    some (p.operator.name ++ ": " ++ bracketed (p.profile.properties.map PostProperty.word))
  | .verdict r => some s!"Opset '{r.opset}' adequate: {truthText r.adequate}"
  | .failed i kind f => some s!"Statement {i} ({kind.text}) failed: {f.message}"
  | .halting i => some s!"Halting after statement {i}"

/-- A note as a line: its level, its topic and its text. -/
def line? (n : Note) : Option String :=
  n.text?.map fun t => s!"{n.level.text} {n.topic}: {t}"

end Note

/-- The profiles in front of the first operator that has none. -/
def profilesBefore (s : Symbols) : List OperatorRef → List OperatorProfile
  | [] => []
  | o :: os =>
    match s.profile o with
    | .ok p => p :: profilesBefore s os
    | .error _ => []

/-- The notes on the check of an operator set. -/
def notesOfCheck (s : Symbols) (opset : String) : List Note :=
  match s.opsets.resolve opset with
  | .error _ => []
  | .ok set =>
    (profilesBefore s set.operators).map Note.profiled ++
      (match s.checkAdequacy set with
        | .ok r => [.verdict r]
        | .error _ => [])

namespace Session

/-- The notes on the answer of a statement. -/
def notesOfAnswer (s : Session) : Statement → Except Fault Outcome → List Note
  | .defineFormula name e, .ok _ => [.formula name e (s.symbols.expandedDepth e)]
  | .defineOperator o, .ok _ => [.operator o]
  | .adequate opset, _ => notesOfCheck s.symbols opset
  | _, .ok (.evaluated f v b) => [.evaluated f v b]
  | _, _ => []

/-- The notes on a statement processed in a session. -/
def notesOf (s : Session) (statement : Statement) : List Note :=
  let r := (s.process statement).2
  .processing r.kind :: s.notesOfAnswer statement r.outcome ++
    (r.fault?.map (Note.failed r.index r.kind)).toList

/-- The notes on a program processed in a session. -/
def notesOfRun (s : Session) : Program → List Note
  | [] => []
  | statement :: p =>
    let (t, r) := s.process statement
    s.notesOf statement ++
      (if r.failed && s.config.haltOnError then [.halting r.index] else notesOfRun t p)

/-- The notes on a program read from bytes and processed in a session. -/
def notesOfRead (s : Session) (bytes : ByteArray) : List Note :=
  match decodeText bytes with
  | .error _ => []
  | .ok source =>
    let r := parseText s.config.maxExpressionDepth source
    r.statements.map (fun st => .parsed st.kind) ++
      (match r.error? with
        | some _ => []
        | none => .parsedAll r.statements.length :: s.notesOfRun r.statements)

end Session

end PropBench
