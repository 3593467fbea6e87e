import PropBench.Program.Expr
import PropBench.Program.Operator

/-!
# Program — Statement

The statements of a program.  Five kinds declare names, one evaluates a formula under a
valuation, and one asks whether an operator set is adequate.

* `Statement.kind` and `StatementKind.text`: the kind of a statement and its written form.
* `Valuation.value?`: the value a valuation gives to a variable.
-/

namespace PropBench

/-- A named list of variables with their values. -/
structure Valuation where
  name : String
  assignments : List (String × Bool)
  deriving DecidableEq, Repr, Inhabited

namespace Valuation

/-- The value of a variable, taken from its first assignment. -/
def value? (v : Valuation) (name : String) : Option Bool :=
  (v.assignments.find? fun a => a.1 == name).map (·.2)

/-- The variables that are assigned a value, in order. -/
def vars (v : Valuation) : List String := v.assignments.map (·.1)

end Valuation

/-- The statements. -/
inductive Statement where
  | defineVariables (names : List String)
  | defineFormula (name : String) (expr : Expr)
  | defineValuation (name : String) (assignments : List (String × Bool))
  | defineOperator (operator : Operator)
  | defineOpset (name : String) (identifiers : List String)
  | evaluate (formula valuation : String)
  | adequate (opset : String)
  deriving DecidableEq, Repr, Inhabited

/-- A program is a list of statements. -/
abbrev Program := List Statement

/-- The kinds of statement. -/
inductive StatementKind where
  | defineVariable
  | defineFormula
  | defineValuation
  | defineOperator
  | defineOpset
  | evaluate
  | adequate
  deriving DecidableEq, Repr, Inhabited

namespace StatementKind

/-- The keywords a statement of the kind begins with. -/
def text : StatementKind → String
  | .defineVariable => "DEFINE VARIABLE"
  | .defineFormula => "DEFINE FORMULA"
  | .defineValuation => "DEFINE VALUATION"
  | .defineOperator => "DEFINE OPERATOR"
  | .defineOpset => "DEFINE OPSET"
  | .evaluate => "EVALUATE"
  | .adequate => "ADEQUATE"

/-- The kind as a value in a record. -/
def key : StatementKind → String
  | .defineVariable => "define_variable"
  | .defineFormula => "define_formula"
  | .defineValuation => "define_valuation"
  | .defineOperator => "define_operator"
  | .defineOpset => "define_opset"
  | .evaluate => "evaluate"
  | .adequate => "adequate"

end StatementKind

/-- The kind of a statement. -/
def Statement.kind : Statement → StatementKind
  | .defineVariables _ => .defineVariable
  | .defineFormula _ _ => .defineFormula
  | .defineValuation _ _ => .defineValuation
  | .defineOperator _ => .defineOperator
  | .defineOpset _ _ => .defineOpset
  | .evaluate _ _ => .evaluate
  | .adequate _ => .adequate

end PropBench
