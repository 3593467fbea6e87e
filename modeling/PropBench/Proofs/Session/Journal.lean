import PropBench.Proofs.Program.Footprint
import PropBench.Proofs.Session.Halting

/-!
# Proofs — Session — Journal

What an observer of a session is told, against what the session holds.

* `Session.entry`, `Session.entries`, `Session.entriesOf`: what is to be told of a statement, of a
  program and of all calls, in order.
* `Session.KeptBy`: the events agree with the tables and the counters.
* `Session.events_faithful`: whatever is processed from a fresh session on, the events are those
  that are to be told, and agree with the session at every moment.
-/

namespace PropBench

/-! ### Answers -/

/-- The answers that a statement can give. -/
inductive Statement.Answers : Statement → Outcome → Prop
  | vars (names : List String) : Answers (.defineVariables names) (.declared .vars names)
  | formula (f : String) (e : Expr) : Answers (.defineFormula f e) (.declared .formulas [f])
  | valuation (v : String) (assignments : List (String × Bool)) :
      Answers (.defineValuation v assignments) (.declared .valuations [v])
  | operator (o : Operator) : Answers (.defineOperator o) (.declared .operators [o.name])
  | opset (s : String) (identifiers : List String) :
      Answers (.defineOpset s identifiers) (.declared .opsets [s])
  | value (f v : String) (b : Bool) : Answers (.evaluate f v) (.evaluated f v b)
  | report (s : String) (r : AdequacyReport) : Answers (.adequate s) (.adequacy r)

/-- The names that an answer says are declared. -/
def Outcome.declarations : Outcome → List (Namespace × String)
  | .declared space names => names.map (space, ·)
  | .evaluated _ _ _ | .adequacy _ => []

theorem Statement.Answers.declarations {statement : Statement} {o : Outcome}
    (h : statement.Answers o) : o.declarations = statement.declarations := by cases h <;> rfl

theorem Work.exists_of_bind_pure {α β : Type} {w : Work α} {g : α → β} {s t : Symbols} {b : β}
    (h : (w >>= fun a => pure (g a)).on s = (.ok b, t)) : ∃ a, b = g a := by
  rw [on_bind] at h
  cases hw : w.on s with
  | mk r u =>
      rw [hw] at h
      cases r with
      | error f => cases h
      | ok a => cases h; exact ⟨a, rfl⟩

/-- A statement that succeeds gives the answer of its kind. -/
theorem Symbols.execute_answers {config : Config} {statement : Statement} {o : Outcome}
    {s t : Symbols} (h : (execute config statement).on s = (.ok o, t)) : statement.Answers o := by
  cases statement with
  | defineVariables names => obtain ⟨-, rfl⟩ := Work.exists_of_bind_pure h; exact .vars names
  | defineFormula f e => obtain ⟨-, rfl⟩ := Work.exists_of_bind_pure h; exact .formula f e
  | defineValuation v assignments =>
      obtain ⟨-, rfl⟩ := Work.exists_of_bind_pure h; exact .valuation v assignments
  | defineOperator o => obtain ⟨-, rfl⟩ := Work.exists_of_bind_pure h; exact .operator o
  | defineOpset name identifiers =>
      obtain ⟨-, rfl⟩ := Work.exists_of_bind_pure h; exact .opset name identifiers
  | evaluate f v =>
      have hask : (do return .evaluated f v (← s.evaluateNamed f v) : Work Outcome).on s = _ := h
      obtain ⟨b, rfl⟩ := Work.exists_of_bind_pure hask
      exact .value f v b
  | adequate o =>
      have hask : (do return .adequacy (← s.checkAdequacyNamed o) : Work Outcome).on s = _ := h
      obtain ⟨r, rfl⟩ := Work.exists_of_bind_pure hask
      exact .report o r

/-! ### What is to be told -/

/-- Statements of the kind declare names. -/
def StatementKind.isDefinition : StatementKind → Bool
  | .evaluate | .adequate => false
  | _ => true

/-- The statement defined something. -/
def Result.defined (r : Result) : Bool := r.kind.isDefinition && !r.failed

namespace Session

variable {s : Session}

/-- The names that a statement declares: none if it fails. -/
def declared (s : Session) (statement : Statement) : List (Namespace × String) :=
  if (s.process statement).2.failed then [] else statement.declarations

/-- What is to be told of a statement: each name that it declares, and then its result. -/
def entry (s : Session) (statement : Statement) : List Event :=
  (s.declared statement).map (fun n => .declared s.counters.statements n.1 n.2) ++
    [.reported (s.process statement).2]

/-- What is to be told of a program: of its statements, up to the first that fails if that halts the
program, and then of the end. -/
def entries (s : Session) : Program → List Event
  | [] => [.finished]
  | statement :: p =>
    s.entry statement ++
      if s.halts statement then
        [.halted s.counters.statements, .finished]
      else
        (s.process statement).1.entries p

variable {statement : Statement}

/-- A statement that fails declares nothing. -/
theorem declared_of_error {f : Fault} (h : (s.process statement).2.outcome = .error f) :
    s.declared statement = [] := by
  rw [declared, if_pos]
  rw [Result.failed, h]

theorem answers_process {o : Outcome} (h : (s.process statement).2.outcome = .ok o) :
    statement.Answers o :=
  Symbols.execute_answers (t := (s.process statement).1.symbols) (Prod.ext h rfl)

/-- A statement that succeeds declares what its answer says. -/
theorem declared_of_ok {o : Outcome} (h : (s.process statement).2.outcome = .ok o) :
    s.declared statement = o.declarations := by
  rw [declared, if_neg, (answers_process h).declarations]
  rw [Result.failed, h]
  exact Bool.false_ne_true

/-- The events of a statement are its entry in the journal. -/
theorem events_process (s : Session) (statement : Statement) :
    (s.process statement).2.events = s.entry statement := by
  rw [entry, Result.events]
  cases h : (s.process statement).2.outcome with
  | error f => rw [declared_of_error h]; rfl
  | ok o =>
      rw [declared_of_ok h]
      cases o with
      | declared space names => rw [Outcome.declarations, List.map_map]; rfl
      | evaluated f v b => rfl
      | adequacy r => rfl

/-- A program is told of as it is to be. -/
theorem events_run (s : Session) (p : Program) : (s.run p).events = s.entries p := by
  induction p generalizing s with
  | nil => rfl
  | cons statement p ih =>
      rw [entries, ← events_process]
      cases hs : s.halts statement with
      | true => rw [run_cons_of_halts hs, if_pos rfl]; simp [Run.events]
      | false =>
          rw [run_cons_of_goes_on hs, if_neg Bool.false_ne_true, ← ih]
          simp [Run.events]

end Session

/-! ### What has been told -/

/-- The names that the events declare in a namespace, in order. -/
def toldNames (space : Namespace) (es : List Event) : List String :=
  es.filterMap fun
    | .declared _ other name => if other = space then some name else none
    | _ => none

/-- The results that the events report, in order. -/
def toldResults (es : List Event) : List Result :=
  es.filterMap fun
    | .reported r => some r
    | _ => none

/-- The number of names that the events declare. -/
def toldCount (es : List Event) : Nat :=
  es.countP fun
    | .declared _ _ _ => true
    | _ => false

theorem toldNames_append (space : Namespace) (es es' : List Event) :
    toldNames space (es ++ es') = toldNames space es ++ toldNames space es' :=
  List.filterMap_append

theorem toldResults_append (es es' : List Event) :
    toldResults (es ++ es') = toldResults es ++ toldResults es' :=
  List.filterMap_append

theorem toldCount_append (es es' : List Event) :
    toldCount (es ++ es') = toldCount es + toldCount es' :=
  List.countP_append

/-- As many names are added as are declared. -/
theorem Symbols.Adds.size_eq {statement : Statement} {space : Namespace} {names : List String}
    {s t : Symbols} (h : s.Adds statement space names t) : t.size = s.size + names.length := by
  cases h <;> simp only [Symbols.size, Table.size, List.length_append, List.length_map,
    List.length_singleton] <;> omega

namespace Session

/-- The events are a journal of the session: they declare the names that its tables list, report as
many statements as it has counted, with their numbers, and have one report for each statement that
is counted as failed, as an evaluation or as a check. -/
structure KeptBy (s : Session) (es : List Event) : Prop where
  names : ∀ space, toldNames space es = s.symbols.names space
  size : toldCount es = s.symbols.size
  indices : (toldResults es).map Result.index = List.range s.counters.statements
  failures : (toldResults es).countP Result.failed = s.counters.failures
  evaluations : (toldResults es).countP (·.value?.isSome) = s.counters.evaluations
  adequacyChecks : (toldResults es).countP (·.report?.isSome) = s.counters.adequacyChecks
  statements : s.counters.statements = s.counters.failures + s.counters.evaluations +
    s.counters.adequacyChecks + (toldResults es).countP Result.defined

/-- The empty journal keeps a fresh session. -/
theorem keptBy_fresh (config : Config) : ({ config } : Session).KeptBy [] where
  names space := by cases space <;> rfl
  size := rfl
  indices := rfl
  failures := rfl
  evaluations := rfl
  adequacyChecks := rfl
  statements := rfl

/-- The tables gain the names that a statement declares. -/
theorem process_tables (s : Session) (statement : Statement) :
    ((s.process statement).1.symbols = s.symbols ∧ s.declared statement = []) ∨
      ∃ space names, s.declared statement = names.map (space, ·) ∧
        s.symbols.Adds statement space names (s.process statement).1.symbols := by
  rcases process_effect s statement with ⟨hsame, hno⟩ | ⟨space, names, hok, -, hadd⟩
  · refine .inl ⟨hsame, ?_⟩
    cases h : (s.process statement).2.outcome with
    | error f => exact declared_of_error h
    | ok o =>
        rw [declared_of_ok h]
        cases o with
        | declared space names => exact absurd h (hno space names)
        | evaluated f v b => rfl
        | adequacy r => rfl
  · exact .inr ⟨space, names, declared_of_ok hok, hadd⟩

/-- The names added by a statement are those that its entry tells. -/
theorem names_process (s : Session) (statement : Statement) (space : Namespace) :
    (s.process statement).1.symbols.names space =
      s.symbols.names space ++ toldNames space (s.entry statement) := by
  rw [entry, toldNames_append]
  rcases process_tables s statement with ⟨hsame, hnone⟩ | ⟨other, names, hnames, hadd⟩
  · rw [hsame, hnone]
    exact (List.append_nil _).symm
  · rw [hadd.names_eq, hnames]
    by_cases h : space = other <;> simp [toldNames, h, eq_comm]

/-- The declarations made by a statement are those that its entry tells. -/
theorem size_process (s : Session) (statement : Statement) :
    (s.process statement).1.symbols.size = s.symbols.size + toldCount (s.entry statement) := by
  rw [entry, toldCount_append]
  rcases process_tables s statement with ⟨hsame, hnone⟩ | ⟨other, names, hnames, hadd⟩
  · rw [hsame, hnone]
    rfl
  · rw [hadd.size_eq, hnames]
    simp [toldCount, Function.comp_def]

theorem toldResults_entry (s : Session) (statement : Statement) :
    toldResults (s.entry statement) = [(s.process statement).2] := by
  simp [entry, toldResults]

/-- A statement is counted as what it is: it fails, evaluates, checks or defines, and does just one
of these. -/
theorem counters_process (s : Session) (statement : Statement) :
    let r := (s.process statement).2
    (s.process statement).1.counters =
        ⟨s.counters.statements + 1, s.counters.failures + [r].countP Result.failed,
          s.counters.evaluations + [r].countP (·.value?.isSome),
          s.counters.adequacyChecks + [r].countP (·.report?.isSome)⟩ ∧
      [r].countP Result.failed + [r].countP (·.value?.isSome) + [r].countP (·.report?.isSome) +
        [r].countP Result.defined = 1 := by
  intro r
  have hcount : (s.process statement).1.counters = s.counters.count r.outcome := rfl
  have hkind : r.kind = statement.kind := rfl
  rw [hcount]
  cases h : r.outcome with
  | error f =>
      simp [Counters.count, Result.failed, Result.value?, Result.report?, Result.defined, h]
  | ok o =>
      cases answers_process h <;>
        simp [Counters.count, Result.failed, Result.value?, Result.report?, Result.defined, h,
          hkind, Statement.kind, StatementKind.isDefinition]

namespace KeptBy

variable {s : Session} {es : List Event}

/-- **A statement keeps the journal.** -/
theorem process (h : s.KeptBy es) (statement : Statement) :
    (s.process statement).1.KeptBy (es ++ s.entry statement) := by
  -- One more report, and one more count of the kind that it is.
  obtain ⟨hcounters, hone⟩ := counters_process s statement
  have hresults : toldResults (es ++ s.entry statement) =
      toldResults es ++ [(s.process statement).2] := by
    rw [toldResults_append, toldResults_entry]
  constructor
  case names => intro space; rw [toldNames_append, h.names, names_process]
  case size => rw [toldCount_append, h.size, size_process]
  case indices =>
    rw [hresults, List.map_append, h.indices, hcounters, List.range_succ]
    rfl
  case failures => rw [hresults, List.countP_append, h.failures, hcounters]
  case evaluations => rw [hresults, List.countP_append, h.evaluations, hcounters]
  case adequacyChecks => rw [hresults, List.countP_append, h.adequacyChecks, hcounters]
  case statements =>
    have hsum := h.statements
    rw [hresults, List.countP_append, hcounters]
    dsimp only
    omega

/-- Events that neither declare nor report anything. -/
theorem told (h : s.KeptBy es) {es' : List Event} (hnames : ∀ space, toldNames space es' = [])
    (hcount : toldCount es' = 0) (hresults : toldResults es' = []) : s.KeptBy (es ++ es') := by
  have hsame : toldResults (es ++ es') = toldResults es := by
    rw [toldResults_append, hresults, List.append_nil]
  constructor
  case names => intro space; rw [toldNames_append, hnames, List.append_nil, h.names]
  case size => rw [toldCount_append, hcount, h.size]; rfl
  all_goals rw [hsame]
  case indices => exact h.indices
  case failures => exact h.failures
  case evaluations => exact h.evaluations
  case adequacyChecks => exact h.adequacyChecks
  case statements => exact h.statements

/-- The statements of a program keep it, up to the one that the program is halted after. -/
theorem results (h : s.KeptBy es) (p : Program) :
    (s.run p).session.KeptBy (es ++ (s.run p).results.flatMap Result.events) := by
  induction p generalizing s es with
  | nil => exact h.told (fun _ => rfl) rfl rfl
  | cons statement p ih =>
      have hstep := h.process statement
      rw [← events_process] at hstep
      cases hs : s.halts statement with
      | true => rwa [run_cons_of_halts hs, List.flatMap_singleton]
      | false =>
          rw [run_cons_of_goes_on hs, List.flatMap_cons, ← List.append_assoc]
          exact ih hstep

/-- A run extends the journal by its events. -/
theorem run (h : s.KeptBy es) (p : Program) :
    (s.run p).session.KeptBy (es ++ (s.run p).events) := by
  have hresults := h.results p
  rw [Run.events, List.append_assoc, ← List.append_assoc]
  cases (s.run p).halted? with
  | none => exact hresults.told (fun _ => rfl) rfl rfl
  | some i => exact hresults.told (fun _ => rfl) rfl rfl

end KeptBy

/-! ### Calls -/

/-- What can be asked of a session. -/
inductive Call where
  | statement (statement : Statement)
  | program (p : Program)
  | setting (setting : Setting)

/-- The session after a call, and what an observer is told of it. -/
def answer (s : Session) : Call → Session × List Event
  | .statement statement => ((s.process statement).1, (s.process statement).2.events)
  | .program p => ((s.run p).session, (s.run p).events)
  | .setting setting =>
    match s.set setting with
    | .ok t => (t, [])
    | .error _ => (s, [])

/-- The session after calls, and what an observer has been told. -/
def follow (s : Session) : List Call → Session × List Event
  | [] => (s, [])
  | call :: calls =>
    let (t, es) := s.answer call
    let (u, es') := t.follow calls
    (u, es ++ es')

/-- What is to be told of calls. -/
def entriesOf (s : Session) : List Call → List Event
  | [] => []
  | .statement statement :: calls => s.entry statement ++ (s.process statement).1.entriesOf calls
  | .program p :: calls => s.entries p ++ (s.run p).session.entriesOf calls
  | .setting setting :: calls => (s.answer (.setting setting)).1.entriesOf calls

/-- The events of the calls are their entries, call by call. -/
theorem events_follow (s : Session) (calls : List Call) :
    (s.follow calls).2 = s.entriesOf calls := by
  induction calls generalizing s with
  | nil => rfl
  | cons call calls ih =>
      have hstep : (s.follow (call :: calls)).2 =
          (s.answer call).2 ++ ((s.answer call).1.follow calls).2 := rfl
      rw [hstep, ih]
      cases call with
      | statement statement => rw [entriesOf, ← events_process]; rfl
      | program p => rw [entriesOf, ← events_run]; rfl
      | setting setting =>
          rw [entriesOf, answer]
          cases s.set setting <;> rfl

namespace KeptBy

variable {s : Session} {es : List Event}

theorem set (h : s.KeptBy es) {t : Session} {setting : Setting} (ht : s.set setting = .ok t) :
    t.KeptBy es := by
  obtain ⟨config, -, rfl⟩ := Except.map_eq_ok.mp ht
  exact { h with }

/-- A call extends the journal by its events. -/
theorem answer (h : s.KeptBy es) (call : Call) :
    (s.answer call).1.KeptBy (es ++ (s.answer call).2) := by
  cases call with
  | statement statement =>
      rw [Session.answer, events_process]
      exact h.process statement
  | program p => exact h.run p
  | setting setting =>
      rw [Session.answer]
      split
      · next ht => exact (h.set ht).told (fun _ => rfl) rfl rfl
      · exact h.told (fun _ => rfl) rfl rfl

/-- Calls extend the journal by their events, one after the other. -/
theorem follow (h : s.KeptBy es) (calls : List Call) :
    (s.follow calls).1.KeptBy (es ++ (s.follow calls).2) := by
  induction calls generalizing s es with
  | nil => exact h.told (fun _ => rfl) rfl rfl
  | cons call calls ih =>
      rw [Session.follow, ← List.append_assoc]
      exact ih (h.answer call)

end KeptBy

/-- A program begins with the results of its beginning. -/
theorem results_run_append (s : Session) (p q : Program) :
    (s.run p).results <+: (s.run (p ++ q)).results := by
  cases h : (s.run p).halted? with
  | none => rw [run_append h]; exact List.prefix_append _ _
  | some i => rw [run_append_of_halted h]

/-- **What an observer is told is a faithful journal.**  Whatever is asked of a session that was
fresh, of each statement the names that it declares are told and then its result, behind the
statement that halts a program the halt, and behind each program its end.  What has been told agrees
with the tables and the counters, also in the midst of a program. -/
theorem events_faithful (config : Config) (calls : List Call) :
    let s := (({ config } : Session).follow calls).1
    let es := (({ config } : Session).follow calls).2
    es = ({ config } : Session).entriesOf calls ∧ s.KeptBy es ∧
    ∀ front back, (s.run front).results <+: (s.run (front ++ back)).results ∧
      (s.run front).session.KeptBy (es ++ (s.run front).results.flatMap Result.events) := by
  intro s es
  have hkept : s.KeptBy es := (keptBy_fresh config).follow calls
  exact ⟨events_follow _ calls, hkept,
    fun front back => ⟨results_run_append s front back, hkept.results front⟩⟩

end Session

end PropBench
