import PropBench.Symbols.Check
import PropBench.Symbols.Work

/-!
# Symbols — Declaration

Declaring names.  Everything a declaration asks for is checked before a table is changed, in the
order of the definitions below.

* `defineVariables`: the names are fresh, and no two are equal.  They are declared one by one.
* `defineFormula`: the name is fresh, the expression passes `Symbols.check` and is not too deep.
* `defineValuation`: the name is fresh, the variables are declared, and no two are equal.
* `defineOperator`: the name is neither that of a connective, in any case, nor declared; no two
  parameters are equal; the arity is within the limit; every pattern has one cell for each
  parameter.
* `defineOpset`: the name is fresh, and each identifier is a connective, in any case, or a
  declared operator (`resolveOperator`).
-/

namespace PropBench

namespace Symbols

/-- A name is not declared in a namespace. -/
def fresh (s : Symbols) (space : Namespace) (name : String) : Except Fault Unit :=
  if s.contains space name then .error (.duplicate space name) else .ok ()

/-- Each name passes `test` and is none of those in front of it. -/
def checkNames (space : Namespace) (test : String → Except Fault Unit) (seen : List String) :
    List String → Except Fault Unit
  | [] => .ok ()
  | n :: ns => do
    test n
    if n ∈ seen then
      .error (.duplicate space n)
    else
      checkNames space test (n :: seen) ns

/-- Declares a variable. -/
def defineVariable (name : String) : Work Unit := do
  let s ← get
  let (_, vars) ← s.vars.declare name ()
  set { s with vars }

/-- Declares variables. -/
def defineVariables (names : List String) : Work Unit := do
  let s ← get
  checkNames .vars (s.fresh .vars) [] names
  names.forM defineVariable

/-- Declares a formula. -/
def defineFormula (config : Config) (name : String) (e : Expr) : Work Unit := do
  let s ← get
  s.fresh .formulas name
  s.check e
  let depth ← s.checkDepth config e
  let (_, formulas) ← s.formulas.declare name ⟨e, depth⟩
  set { s with formulas }

/-- Declares a valuation. -/
def defineValuation (name : String) (assignments : List (String × Bool)) : Work Unit := do
  let s ← get
  s.fresh .valuations name
  checkNames .vars s.vars.resolve [] (assignments.map (·.1))
  let (_, valuations) ← s.valuations.declare name ⟨name, assignments⟩
  set { s with valuations }

/-- The number of cells of the first pattern that has not one cell for each parameter. -/
def firstMisfit? (arity : Nat) : List Entry → Option Nat
  | [] => none
  | .pattern cells _ :: es => if cells.length = arity then firstMisfit? arity es else cells.length
  | .otherwise _ :: es => firstMisfit? arity es

/-- The name is not that of a connective, in any case. -/
def checkUnreserved (name : String) : Except Fault Unit :=
  if (Connective.ofName? name).isSome then .error (.duplicate .operators name) else .ok ()

/-- The operator has no more parameters than the limit allows. -/
def checkArity (config : Config) (o : Operator) : Except Fault Unit :=
  if config.maxOperatorArity < o.arity then
    .error (.arityLimit o.name o.arity config.maxOperatorArity)
  else
    .ok ()

/-- Every pattern of the operator has one cell for each parameter. -/
def checkPatterns (o : Operator) : Except Fault Unit :=
  match firstMisfit? o.arity o.table.entries with
  | some found => .error (.arityMismatch o.name o.arity found)
  | none => .ok ()

/-- Declares an operator. -/
def defineOperator (config : Config) (o : Operator) : Work Unit := do
  let s ← get
  checkUnreserved o.name
  s.fresh .operators o.name
  checkNames .parameters (fun _ => .ok ()) [] o.parameters
  checkArity config o
  checkPatterns o
  let (_, operators) ← s.operators.declare o.name o
  set { s with operators }

/-- The operator an identifier stands for. -/
def resolveOperator (s : Symbols) (identifier : String) : Except Fault OperatorRef :=
  match Connective.ofName? identifier with
  | some c => .ok (.builtin c)
  | none => (s.operators.resolve identifier).map fun _ => .custom identifier

/-- The operators that identifiers stand for. -/
def resolveOperators (s : Symbols) (identifiers : List String) : Except Fault (List OperatorRef) :=
  identifiers.mapM s.resolveOperator

/-- A list without the members that stand in it before. -/
def keepFirst (seen : List OperatorRef) : List OperatorRef → List OperatorRef
  | [] => []
  | o :: os => if o ∈ seen then keepFirst seen os else o :: keepFirst (o :: seen) os

/-- Declares an operator set.  Each operator is kept where it is named first. -/
def defineOpset (name : String) (identifiers : List String) : Work Unit := do
  let s ← get
  s.fresh .opsets name
  let operators ← s.resolveOperators identifiers
  let (_, opsets) ← s.opsets.declare name ⟨name, keepFirst [] operators⟩
  set { s with opsets }

end Symbols

end PropBench
