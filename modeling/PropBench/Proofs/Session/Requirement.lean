import PropBench.Proofs.Session.Journal
import PropBench.Proofs.Symbols.Depth
import PropBench.Proofs.Symbols.Failure
import PropBench.Proofs.Symbols.WellFormed

/-!
# Proofs — Session — Requirement

What a definition requires, and what it fails with.

* `Requirement`, `Statement.requirements`: the list of conditions for each kind of definition.
* `Requirement.Holds`: what a condition says of the tables and the limits.
* `Requirement.Breach`: how a condition is broken, with the fault that says so.
* `Session.definition_exact`: a definition succeeds exactly when its conditions hold, and else the
  fault is that of one which does not.
-/

namespace PropBench

/-- A condition of a definition. -/
inductive Requirement where
  /-- The name is not declared. -/
  | undeclared (space : Namespace) (name : String)
  /-- No two names are equal. -/
  | distinct (space : Namespace) (names : List String)
  /-- A name in an expression is declared, an operator with as many parameters as it is given
  arguments. -/
  | known (o : Occurrence)
  /-- The tree of the expression, references expanded, is within the limit on depths. -/
  | shallow (e : Expr)
  /-- The name is not that of a connective, in any case. -/
  | unreserved (name : String)
  /-- The operator has no more parameters than the limit allows. -/
  | narrow (o : Operator)
  /-- The entry, if it is a pattern, has a cell for each parameter of the operator. -/
  | fitting (o : Operator) (e : Entry)
  /-- The identifier is the name of a connective, in any case, or that of a declared operator. -/
  | identifies (identifier : String)

/-- The conditions of a definition.  A question has none. -/
def Statement.requirements : Statement → List Requirement
  | .defineVariables names => .distinct .vars names :: names.map (.undeclared .vars)
  | .defineFormula name e =>
    .undeclared .formulas name :: .shallow e :: e.occurrences.map .known
  | .defineValuation name assignments =>
    .undeclared .valuations name :: .distinct .vars (assignments.map (·.1)) ::
      (assignments.map (·.1)).map fun x => .known (.var x)
  | .defineOperator o =>
    .undeclared .operators o.name :: .unreserved o.name :: .distinct .parameters o.parameters ::
      .narrow o :: o.table.entries.map (.fitting o)
  | .defineOpset name identifiers =>
    .undeclared .opsets name :: identifiers.map .identifies
  | .evaluate _ _ | .adequate _ => []

namespace Requirement

variable {config : Config} {s : Symbols} {r : Requirement} {f : Fault}

/-- What a condition says of the tables and the limits. -/
def Holds (config : Config) (s : Symbols) : Requirement → Prop
  | .undeclared space name => s.contains space name = false
  | .distinct _ names => names.Nodup
  | .known o => s.Knows o
  | .shallow e => ∀ u, s.Unfolds e u → u.depth ≤ config.maxExpressionDepth
  | .unreserved name => name.toUpper ∉ Connective.names
  | .narrow o => o.arity ≤ config.maxOperatorArity
  | .fitting o e => ∀ cells b, e = .pattern cells b → cells.length = o.arity
  | .identifies i => i.toUpper ∈ Connective.names ∨ s.operators.contains i = true

/-- How a condition is broken, and the fault that says so. -/
inductive Breach (config : Config) (s : Symbols) : Requirement → Fault → Prop
  | declared {space : Namespace} {name : String} (h : s.contains space name = true) :
      Breach config s (.undeclared space name) (.duplicate space name)
  | repeated {space : Namespace} {names : List String} {name : String}
      (h : names.Duplicate name) : Breach config s (.distinct space names) (.duplicate space name)
  | lacks {o : Occurrence} {f : Fault} (h : s.Lacks o f) : Breach config s (.known o) f
  | deep {e u : Expr} (hu : s.Unfolds e u) (h : config.maxExpressionDepth < u.depth) :
      Breach config s (.shallow e) (.depthLimit u.depth config.maxExpressionDepth)
  | reserved {name : String} (h : name.toUpper ∈ Connective.names) :
      Breach config s (.unreserved name) (.duplicate .operators name)
  | wide {o : Operator} (h : config.maxOperatorArity < o.arity) :
      Breach config s (.narrow o) (.arityLimit o.name o.arity config.maxOperatorArity)
  | misfit {o : Operator} {cells : List Cell} {b : Bool} (h : cells.length ≠ o.arity) :
      Breach config s (.fitting o (.pattern cells b)) (.arityMismatch o.name o.arity cells.length)
  | unknown {i : String} (hreserved : i.toUpper ∉ Connective.names)
      (h : s.operators.contains i = false) :
      Breach config s (.identifies i) (.unknown .operators i)

/-- A breach is a reason not to hold. -/
theorem Breach.not_holds (h : r.Breach config s f) : ¬ r.Holds config s := by
  cases h with
  | declared h => simp [Holds, h]
  | repeated h => exact List.exists_duplicate_iff_not_nodup.mp ⟨_, h⟩
  | lacks h => exact h.not_knows
  | deep hu h => exact fun hall => Nat.not_lt.mpr (hall _ hu) h
  | reserved h => exact not_not_intro h
  | wide h => exact Nat.not_le.mpr h
  | misfit h => exact fun hall => h (hall _ _ rfl)
  | unknown hreserved h => simp [Holds, hreserved, h]

end Requirement

/-- Some condition of a statement is broken, and the fault says so. -/
def Statement.Breached (config : Config) (s : Symbols) (statement : Statement) (f : Fault) : Prop :=
  ∃ r ∈ statement.requirements, r.Breach config s f

namespace Symbols

variable {config : Config} {s : Symbols} {statement : Statement}

/-! ### Success -/

/-- An operator is found by its name, declared or built in. -/
theorem exists_resolveOperator_iff {i : String} :
    (∃ o, s.resolveOperator i = .ok o) ↔
      i.toUpper ∈ Connective.names ∨ s.operators.contains i = true := by
  by_cases hi : i.toUpper ∈ Connective.names
  · obtain ⟨c, hc⟩ := Option.ne_none_iff_exists'.mp (Connective.ofName?_ne_none_iff.mpr hi)
    exact iff_of_true ⟨_, resolveOperator_eq_ok_iff.mpr (.inl ⟨c, hc, rfl⟩)⟩ (.inl hi)
  · simp [resolveOperator_eq_ok_iff, Connective.ofName?_eq_none_iff.mpr hi, hi]

/-- The conditions of a definition hold of tables that admit it. -/
theorem Admits.holds (hs : s.DepthsKept) (h : s.Admits config statement) :
    ∀ r ∈ statement.requirements, r.Holds config s := by
  cases statement with
  | defineVariables names =>
      obtain ⟨hnodup, hfresh⟩ := h
      exact List.forall_mem_cons.mpr ⟨hnodup, List.forall_mem_map.mpr hfresh⟩
  | defineFormula name e =>
      obtain ⟨hfresh, hcheck, hdepth⟩ := h
      -- The tree of the expression has the depth that was checked.
      refine List.forall_mem_cons.mpr ⟨hfresh, List.forall_mem_cons.mpr ⟨fun u hu => ?_, ?_⟩⟩
      · exact (hu.depth_eq hs).trans_le hdepth
      · exact List.forall_mem_map.mpr (check_ok_iff.mp hcheck)
  | defineValuation name assignments =>
      obtain ⟨hfresh, hnodup, hvars⟩ := h
      exact List.forall_mem_cons.mpr ⟨hfresh, List.forall_mem_cons.mpr
        ⟨hnodup, List.forall_mem_map.mpr hvars⟩⟩
  | defineOperator o =>
      obtain ⟨hreserved, hfresh, hnodup, harity, hpatterns⟩ := h
      refine List.forall_mem_cons.mpr ⟨hfresh, List.forall_mem_cons.mpr
        ⟨Connective.ofName?_eq_none_iff.mp hreserved, List.forall_mem_cons.mpr
          ⟨hnodup, List.forall_mem_cons.mpr ⟨harity, List.forall_mem_map.mpr ?_⟩⟩⟩⟩
      rintro e he cells b rfl
      exact hpatterns cells b he
  | defineOpset name identifiers =>
      obtain ⟨hfresh, hidentifiers⟩ := h
      exact List.forall_mem_cons.mpr ⟨hfresh, List.forall_mem_map.mpr fun i hi =>
        exists_resolveOperator_iff.mp (hidentifiers i hi)⟩
  | evaluate f v => exact h.elim
  | adequate o => exact h.elim

/-! ### Failure -/

section Failure

variable {space : Namespace} {n : String}

theorem fresh_breached (h : .undeclared space n ∈ statement.requirements) :
    FailsOnly (statement.Breached config s) (s.fresh space n) :=
  fresh_fails fun hdeclared => ⟨_, h, .declared hdeclared⟩

theorem checkNames_breached {names : List String} {test : String → Except Fault Unit}
    (h : .distinct space names ∈ statement.requirements)
    (htest : ∀ n ∈ names, FailsOnly (statement.Breached config s) (test n)) :
    FailsOnly (statement.Breached config s) (checkNames space test [] names) :=
  checkNames_fails htest fun _ _ hrepeated =>
    ⟨_, h, .repeated (hrepeated.resolve_left List.not_mem_nil)⟩

/-- Variables fail to be defined for a breach alone. -/
theorem defineVariables_breached (names : List String) :
    FailsOnly (Statement.Breached config s (.defineVariables names))
      ((defineVariables names).on s).1 := by
  refine .get_bind (.lift_bind (checkNames_breached (by simp [Statement.requirements]) fun n hn =>
    fresh_breached (by simp [Statement.requirements, hn])) fun _ h => ?_)
  simp only [checkNames_eq_ok_iff, fresh_eq_ok_iff] at h
  exact .of_ok (on_forM_defineVariable h.2.1 h.1)

/-- A formula fails to be defined for a breach alone. -/
theorem defineFormula_breached (hs : s.DepthsKept) (name : String) (e : Expr) :
    FailsOnly (Statement.Breached config s (.defineFormula name e))
      ((defineFormula config name e).on s).1 := by
  refine .get_bind <| .lift_bind (fresh_breached (by simp [Statement.requirements]))
    fun _ hfresh => .lift_bind (check_fails fun o ho f hlacks => ?check) fun _ _ =>
      .lift_bind (checkDepth_fails fun hdeep => ?depth) fun _ _ =>
        .lift_bind (Table.declare_never_fails (fresh_eq_ok_iff.mp hfresh) _) fun _ _ => .set _
  case check =>
    exact ⟨.known o, by simp [Statement.requirements, ho], .lacks hlacks⟩
  case depth =>
    obtain ⟨u, hu⟩ := hs.exists_unfolds e
    rw [← hu.depth_eq hs] at hdeep ⊢
    exact ⟨.shallow e, by simp [Statement.requirements], .deep hu hdeep⟩

theorem defineValuation_breached (name : String) (assignments : List (String × Bool)) :
    FailsOnly (Statement.Breached config s (.defineValuation name assignments))
      ((defineValuation name assignments).on s).1 := by
  refine .get_bind <| .lift_bind (fresh_breached (by simp [Statement.requirements]))
    fun _ hfresh => .lift_bind (checkNames_breached (by simp [Statement.requirements]) fun x hx =>
      Table.resolve_fails fun hunknown => ?_) fun _ _ =>
        .lift_bind (Table.declare_never_fails (fresh_eq_ok_iff.mp hfresh) _) fun _ _ => .set _
  refine ⟨.known (.var x), ?_, .lacks (.var hunknown)⟩
  exact List.mem_cons_of_mem _ (List.mem_cons_of_mem _ (List.mem_map_of_mem hx))

/-- An operator fails to be defined for a breach alone. -/
theorem defineOperator_breached (o : Operator) :
    FailsOnly (Statement.Breached config s (.defineOperator o))
      ((defineOperator config o).on s).1 := by
  refine .get_bind <| .lift_bind (checkUnreserved_fails fun h => ?reserved) fun _ _ =>
    .lift_bind (fresh_breached (by simp [Statement.requirements])) fun _ hfresh =>
      .lift_bind (checkNames_breached (by simp [Statement.requirements]) fun _ _ => .ok ())
        fun _ _ => .lift_bind (checkArity_fails fun h => ?arity) fun _ _ =>
          .lift_bind (checkPatterns_fails fun cells b hmem h => ?patterns) fun _ _ =>
            .lift_bind (Table.declare_never_fails (fresh_eq_ok_iff.mp hfresh) _) fun _ _ => .set _
  case reserved =>
    exact ⟨.unreserved o.name, by simp [Statement.requirements],
      .reserved (Connective.ofName?_ne_none_iff.mp h)⟩
  case arity => exact ⟨.narrow o, by simp [Statement.requirements], .wide h⟩
  case patterns =>
    exact ⟨.fitting o (.pattern cells b), by simp [Statement.requirements, hmem], .misfit h⟩

theorem defineOpset_breached (name : String) (identifiers : List String) :
    FailsOnly (Statement.Breached config s (.defineOpset name identifiers))
      ((defineOpset name identifiers).on s).1 := by
  refine .get_bind <| .lift_bind (fresh_breached (by simp [Statement.requirements]))
    fun _ hfresh => .lift_bind (.mapM fun i hi => resolveOperator_fails fun hreserved h => ?_)
      fun _ _ => .lift_bind (Table.declare_never_fails (fresh_eq_ok_iff.mp hfresh) _)
        fun _ _ => .set _
  exact ⟨.identifies i, by simp [Statement.requirements, hi],
    .unknown (Connective.ofName?_eq_none_iff.mp hreserved) h⟩

/-- **A definition fails with the fault of a condition of its own.** -/
theorem execute_breached (hs : s.DepthsKept) (h : statement.kind.isDefinition = true) :
    FailsOnly (statement.Breached config s) ((execute config statement).on s).1 := by
  cases statement with
  | defineVariables names => exact (defineVariables_breached names).bind_pure
  | defineFormula name e => exact (defineFormula_breached hs name e).bind_pure
  | defineValuation name assignments => exact (defineValuation_breached name assignments).bind_pure
  | defineOperator o => exact (defineOperator_breached o).bind_pure
  | defineOpset name identifiers => exact (defineOpset_breached name identifiers).bind_pure
  | evaluate f v => cases h
  | adequate o => cases h

end Failure

end Symbols

namespace Session

variable {s : Session} {statement : Statement} {o : Outcome}

/-- The tables admit a definition that succeeds. -/
theorem admits_of_process (hdef : statement.kind.isDefinition = true)
    (h : (s.process statement).2.outcome = .ok o) : s.symbols.Admits s.config statement := by
  rcases s.process_effect statement with ⟨-, hno⟩ | ⟨_, _, -, hadm, -⟩
  · have hexecute : (Symbols.execute s.config statement).on s.symbols =
        (.ok o, (s.process statement).1.symbols) := Prod.ext h rfl
    cases Symbols.execute_answers hexecute with
    | value => cases hdef
    | report => cases hdef
    | _ => exact absurd h (hno _ _)
  · exact hadm

/-- **A definition succeeds exactly when what it requires holds.**  When it fails, the fault is that
of a condition which does not hold, with the name, the numbers and the limit that break it. -/
theorem definition_exact (hs : s.Reachable) (hdef : statement.kind.isDefinition = true) :
    ((∃ o, (s.process statement).2.outcome = .ok o) ↔
      ∀ r ∈ statement.requirements, r.Holds s.config s.symbols) ∧
    ∀ f, (s.process statement).2.outcome = .error f → ∃ r ∈ statement.requirements,
      r.Breach s.config s.symbols f ∧ ¬ r.Holds s.config s.symbols := by
  have hkept := hs.formulasChecked.depthsKept
  have hfails : ∀ f, (s.process statement).2.outcome = .error f → ∃ r ∈ statement.requirements,
      r.Breach s.config s.symbols f ∧ ¬ r.Holds s.config s.symbols := fun f hf => by
    obtain ⟨r, hr, hbreach⟩ := Symbols.execute_breached hkept hdef f hf
    exact ⟨r, hr, hbreach, hbreach.not_holds⟩
  refine ⟨⟨?_, fun hholds => ?_⟩, hfails⟩
  · rintro ⟨o, ho⟩
    exact (admits_of_process hdef ho).holds hkept
  · cases hr : (s.process statement).2.outcome with
    | ok o => exact ⟨o, rfl⟩
    | error f =>
        obtain ⟨r, hmem, -, hno⟩ := hfails f hr
        exact absurd (hholds r hmem) hno

/-- In the sample `first` has two parameters and there is no variable `r`: the fault of `first(r)`
is that of the operator, which comes first.  A set of `first` and of a connective in lower case is
defined, so that what it requires holds. -/
theorem sample_definition :
    let misapplied : Statement := .defineFormula "h" (.apply "first" [.var "r"])
    let set : Statement := .defineOpset "t" ["first", "not"]
    sampleSession.Reachable ∧ misapplied.kind.isDefinition = true ∧
      (sampleSession.process misapplied).2.outcome = .error (.arityMismatch "first" 2 1) ∧
      (∃ r ∈ misapplied.requirements,
        r.Breach sampleSession.config sampleSession.symbols (.arityMismatch "first" 2 1) ∧
          ¬ r.Holds sampleSession.config sampleSession.symbols) ∧
      ∀ r ∈ set.requirements, r.Holds sampleSession.config sampleSession.symbols := by
  intro misapplied set
  have hmisapplied := definition_exact reachable_sampleSession
    (show misapplied.kind.isDefinition = true from rfl)
  have hset := definition_exact reachable_sampleSession
    (show set.kind.isDefinition = true from rfl)
  have herror : (sampleSession.process misapplied).2.outcome =
      .error (.arityMismatch "first" 2 1) := by decide +kernel
  have hok : (sampleSession.process set).2.outcome = .ok (.declared .opsets ["t"]) := by
    decide +kernel
  exact ⟨reachable_sampleSession, rfl, herror, hmisapplied.2 _ herror, hset.1.mp ⟨_, hok⟩⟩

end Session

end PropBench
