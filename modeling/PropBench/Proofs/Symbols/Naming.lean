import PropBench.Proofs.Session.Journal
import PropBench.Proofs.Source.Naming
import PropBench.Proofs.Symbols.Failure
import PropBench.Proofs.Symbols.Safety

/-!
# Proofs — Symbols — Naming

The names that answers and faults mention.

* `Symbols.Named P`: the names that the tables can bring into an answer or a fault satisfy `P`.
* `Session.process_named`: a statement whose names do keeps that, and its answer, or its fault,
  mentions no other names.  In particular that is not the fault of a text.
-/

namespace PropBench

variable {P : String → Prop} {α β : Type}

/-! ### Faults and answers -/

/-- The fault is one of a statement, and the name in it satisfies `P`. -/
def Fault.Named (P : String → Prop) : Fault → Prop
  | .duplicate _ n | .unknown _ n | .unbound n => P n
  | .arityMismatch o _ _ | .noEntry o _ | .arityLimit o _ _ => P o
  | .depthLimit _ _ => True
  | .malformed _ => False

/-- The names in an answer satisfy `P`. -/
def Outcome.Named (P : String → Prop) : Outcome → Prop
  | .declared _ names => ∀ n ∈ names, P n
  | .evaluated f v _ => P f ∧ P v
  | .adequacy r => P r.opset

/-- If the work fails, the fault is named. -/
def Work.FailsNamed (P : String → Prop) (w : Work α) (s : Symbols) : Prop :=
  FailsOnly (Fault.Named P) (w.on s).1

/-! ### The checks -/

variable {space : Namespace}

namespace Symbols

variable {s t : Symbols} {config : Config}

theorem checkNames_named {test : String → Except Fault Unit} {seen names : List String}
    (htest : ∀ n ∈ names, FailsOnly (Fault.Named P) (test n)) (hnames : ∀ n ∈ names, P n) :
    FailsOnly (Fault.Named P) (checkNames space test seen names) :=
  checkNames_fails htest fun n hn _ => hnames n hn

theorem check_named (s : Symbols) {e : Expr} (he : e.Named P) :
    FailsOnly (Fault.Named P) (s.check e) := by
  induction he with
  | var h => exact Table.resolve_fails fun _ => h
  | formula h => exact (Table.resolve_fails fun _ => h).map _
  | not _ ih => exact ih
  | binary _ _ ihl ihr => exact ihl.bind fun _ _ => ihr
  | apply ho _ ih =>
      rw [check]
      refine (operatorFor_fails fun f hlacks => ?_).bind fun _ _ => checkList_fails ih
      cases hlacks <;> exact ho

/-! ### The tables -/

/-- The names in the formulas and operator sets satisfy `P`. -/
structure Named (P : String → Prop) (s : Symbols) : Prop where
  formulas : ∀ e ∈ s.formulas.entries, e.2.expr.Named P
  opsets : ∀ e ∈ s.opsets.entries, P e.2.name ∧ ∀ n, .custom n ∈ e.2.operators → P n

theorem Named.empty : Named P {} := ⟨nofun, nofun⟩

/-- What a statement adds to the tables has the names of the statement. -/
theorem Named.adds (hs : s.Named P) {statement : Statement} (hst : statement.Named P)
    {names : List String} (h : s.Adds statement space names t) : t.Named P := by
  cases h with
  | formula name e =>
      exact { hs with
        formulas := List.forall_mem_append.mpr ⟨hs.formulas, List.forall_mem_singleton.mpr hst.2⟩ }
  | @opset name identifiers operators hr =>
      refine { hs with opsets := List.forall_mem_append.mpr ⟨hs.opsets,
        List.forall_mem_singleton.mpr ⟨hst.1, fun n hn => ?_⟩⟩ }
      obtain ⟨i, hi, hin⟩ := exists_of_forall₂ hr.flip (mem_keepFirst_nil.mp hn)
      exact eq_of_resolveOperator hin ▸ hst.2 i hi
  | _ => exact ⟨hs.formulas, hs.opsets⟩

/-- A statement keeps the names in the tables within those used. -/
theorem Named.effect (hs : s.Named P) {statement : Statement} (hst : statement.Named P)
    {r : Except Fault Outcome} (h : Effect config s statement r t) : t.Named P := by
  rcases h with ⟨rfl, -⟩ | ⟨_, _, -, -, hadd⟩
  · exact hs
  · exact hs.adds hst hadd

theorem Named.formula (hs : s.Named P) {f : String} {g : Formula}
    (hg : s.formulas.find? f = some g) : g.expr.Named P := by
  exact hs.formulas _ (Table.mem_entries hg)

theorem Named.opset (hs : s.Named P) {n : String} {o : OperatorSet}
    (ho : s.opsets.find? n = some o) : P o.name ∧ ∀ m, .custom m ∈ o.operators → P m := by
  exact hs.opsets _ (Table.mem_entries ho)

/-! ### Evaluations and reports -/

theorem applyTable_named {o : String} (ho : P o) (operator : Operator) (input : List Bool) :
    FailsOnly (Fault.Named P) (applyTable o operator input) := by
  unfold applyTable
  split
  · exact .ok _
  · exact .error ho

/-- An evaluation names variables and operators of the expression and of the formulas in the
tables. -/
theorem Named.evaluate (hs : s.Named P) (hchecked : s.FormulasChecked) (v : Valuation) {e : Expr}
    (he : s.check e = .ok ()) : e.Named P → FailsOnly (Fault.Named P) (s.evaluate v e) := by
  have hkept := hchecked.depthsKept
  -- On the expression and the formulas in it, whose names are in the tables.
  refine hchecked.induct (motive := fun e => e.Named P → FailsOnly (Fault.Named P) (s.evaluate v e))
    ?var ?formula ?not ?binary ?apply e he
  case var =>
    rintro x _ ⟨hx⟩
    rw [evaluate_var, valueOf]
    split
    · exact .ok _
    · exact .error ‹P x›
  case formula =>
    rintro f g hg ih -
    rw [evaluate_formula hkept, Table.resolve_eq_ok_iff.mpr hg]
    exact ih (hs.formula hg)
  case not =>
    rintro e ih ⟨⟩
    rw [evaluate_not hkept]
    exact (ih ‹_›).bind fun _ _ => .ok _
  case binary =>
    rintro c l r ihl ihr ⟨⟩
    rw [evaluate_binary hkept]
    exact (ihl ‹_›).bind fun _ _ => (ihr ‹_›).bind fun _ _ => .ok _
  case apply =>
    rintro o operator args ho hn ih ⟨⟩
    rw [evaluate_apply hkept, operatorFor_ok_iff.mpr ⟨ho, hn⟩]
    exact (FailsOnly.mapM fun a ha => ih a ha (by simp_all)).bind
      fun _ _ => applyTable_named ‹P o› operator _

theorem Named.evaluateNamed (hs : s.Named P) (hchecked : s.FormulasChecked) {f v : String}
    (hf : P f) (hv : P v) : FailsOnly (Fault.Named P) (s.evaluateNamed f v) := by
  refine (Table.resolve_fails fun _ => hf).bind fun g hg =>
    (Table.resolve_fails fun _ => hv).bind fun w _ => ?_
  have hg := Table.resolve_eq_ok_iff.mp hg
  exact hs.evaluate hchecked w (hchecked f g hg).1 (hs.formula hg)

theorem function_named (s : Symbols) {o : OperatorRef} (ho : ∀ n, o = .custom n → P n) :
    FailsOnly (Fault.Named P) (s.function o) := by
  cases o with
  | builtin c => exact .ok _
  | custom name =>
      refine (Table.resolve_fails fun _ => ho name rfl).bind fun o _ => ?_
      split
      · exact .ok _
      · exact .error (ho name rfl)

theorem Named.checkAdequacyNamed (hs : s.Named P) {o : String} (ho : P o) :
    FailsOnly (Fault.Named P) (s.checkAdequacyNamed o) := by
  refine (Table.resolve_fails fun _ => ho).bind fun set hset => FailsOnly.map ?_ _
  have hmembers := (hs.opset (Table.resolve_eq_ok_iff.mp hset)).2
  exact .mapM fun r hr => (s.function_named fun n h => hmembers n (h ▸ hr)).map _

/-- A report names the operator set asked about. -/
theorem Named.report (hs : s.Named P) {o : String} {r : AdequacyReport}
    (h : s.checkAdequacyNamed o = .ok r) : P r.opset := by
  obtain ⟨set, hset, h⟩ := Except.bind_eq_ok.mp h
  obtain ⟨profiles, -, rfl⟩ := Except.map_eq_ok.mp h
  exact (hs.opset (Table.resolve_eq_ok_iff.mp hset)).1

/-! ### Statements -/

/-- Variables fail with their names. -/
theorem defineVariables_named {names : List String} (hnames : ∀ n ∈ names, P n) :
    (defineVariables names).FailsNamed P s := by
  refine .get_bind (.lift_bind ?_ fun _ h => ?_)
  · exact checkNames_named (fun n hn => fresh_fails fun _ => hnames n hn) hnames
  · simp only [checkNames_eq_ok_iff, fresh_eq_ok_iff] at h
    exact .of_ok (on_forM_defineVariable h.2.1 h.1)

/-- A formula fails with its name, or with one in its expression. -/
theorem defineFormula_named {f : String} {e : Expr} (hf : P f) (he : e.Named P) :
    (defineFormula config f e).FailsNamed P s :=
  .get_bind <| .lift_bind (fresh_fails fun _ => hf) fun _ _ =>
    .lift_bind (s.check_named he) fun _ _ =>
      .lift_bind (checkDepth_fails fun _ => trivial) fun _ _ =>
        .lift_bind (Table.declare_fails fun _ => hf) fun _ _ => .set _

theorem defineValuation_named {v : String} {assignments : List (String × Bool)} (hv : P v)
    (hvars : ∀ x ∈ assignments.map (·.1), P x) :
    (defineValuation v assignments).FailsNamed P s :=
  .get_bind <| .lift_bind (fresh_fails fun _ => hv) fun _ _ =>
    .lift_bind (checkNames_named (fun x hx => Table.resolve_fails fun _ => hvars x hx) hvars)
      fun _ _ => .lift_bind (Table.declare_fails fun _ => hv) fun _ _ => .set _

/-- An operator fails with its name, or with one of its parameters. -/
theorem defineOperator_named {o : Operator} (ho : P o.name)
    (hparameters : ∀ n ∈ o.parameters, P n) :
    (defineOperator config o).FailsNamed P s :=
  .get_bind <| .lift_bind (checkUnreserved_fails fun _ => ho) fun _ _ =>
    .lift_bind (fresh_fails fun _ => ho) fun _ _ =>
      .lift_bind (checkNames_named (fun _ _ => .ok ()) hparameters) fun _ _ =>
        .lift_bind (checkArity_fails fun _ => ho) fun _ _ =>
          .lift_bind (checkPatterns_fails fun _ _ _ _ => ho) fun _ _ =>
            .lift_bind (Table.declare_fails fun _ => ho) fun _ _ => .set _

theorem defineOpset_named {name : String} {identifiers : List String} (hname : P name)
    (hidentifiers : ∀ i ∈ identifiers, P i) : (defineOpset name identifiers).FailsNamed P s :=
  .get_bind <| .lift_bind (fresh_fails fun _ => hname) fun _ _ =>
    .lift_bind (.mapM fun i hi => resolveOperator_fails fun _ _ => hidentifiers i hi) fun _ _ =>
      .lift_bind (Table.declare_fails fun _ => hname) fun _ _ => .set _

/-- A statement fails with names that are used. -/
theorem execute_failsNamed (hs : s.Named P) (hchecked : s.FormulasChecked) {statement : Statement}
    (hst : statement.Named P) : (execute config statement).FailsNamed P s := by
  cases statement with
  | defineVariables names => exact (defineVariables_named hst).bind_pure
  | defineFormula f e => exact (defineFormula_named hst.1 hst.2).bind_pure
  | defineValuation v assignments => exact (defineValuation_named hst.1 hst.2).bind_pure
  | defineOperator o => exact (defineOperator_named hst.1 hst.2).bind_pure
  | defineOpset name identifiers => exact (defineOpset_named hst.1 hst.2).bind_pure
  | evaluate f v =>
      exact .get_bind (.lift_bind (hs.evaluateNamed hchecked hst.1 hst.2) fun _ _ => .ok _)
  | adequate o =>
      exact .get_bind (.lift_bind (hs.checkAdequacyNamed hst) fun _ _ => .ok _)

/-- A statement is answered with names that are used. -/
theorem execute_answer_named (hs : s.Named P) {statement : Statement} (hst : statement.Named P)
    {o : Outcome} (h : (execute config statement).on s = (.ok o, t)) : o.Named P := by
  cases execute_answers h with
  | vars names => exact hst
  | formula f e | valuation v assignments | operator o | opset name identifiers =>
      exact List.forall_mem_singleton.mpr hst.1
  | value f v b => exact hst
  | report o r =>
      obtain ⟨r', hr, h⟩ := Work.on_lift_bind_eq_ok.mp
        (show (do return .adequacy (← s.checkAdequacyNamed o) : Work Outcome).on s = _ from h)
      cases h
      exact hs.report hr

end Symbols

/-! ### Results -/

/-- The names in the answer, or in the fault, of a result satisfy `P`. -/
def Result.Named (P : String → Prop) (r : Result) : Prop :=
  (∀ o, r.outcome = .ok o → o.Named P) ∧ FailsOnly (Fault.Named P) r.outcome

/-- **Results mention only names that satisfy what those of the statement and of the tables do.** -/
theorem Session.process_named {s : Session} (hs : s.Reachable) (hnamed : s.symbols.Named P)
    {statement : Statement} (hst : statement.Named P) :
    (s.process statement).2.Named P ∧ (s.process statement).1.symbols.Named P := by
  refine ⟨⟨fun o ho => ?_, ?_⟩, hnamed.effect hst (s.process_effect statement)⟩
  · exact Symbols.execute_answer_named hnamed hst (Prod.ext ho rfl)
  · exact Symbols.execute_failsNamed hnamed hs.formulasChecked hst

end PropBench
