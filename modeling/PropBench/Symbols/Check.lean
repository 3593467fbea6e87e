import PropBench.Config
import PropBench.Symbols.Basic

/-!
# Symbols — Check

What is asked of an expression before it is declared or evaluated.

* `Symbols.operatorFor`: the operator that is applied to some number of arguments.
* `Symbols.check`: every name in it is declared, and every operator has as many arguments as its
  arity.  The first fault from left to right is reported.
* `Symbols.expandedDepth`: its depth when each reference is a node above the expanded expression
  of the formula.
* `Symbols.checkDepth`: that depth is within the limit.
-/

namespace PropBench

namespace Symbols

/-- The declared operator with a name, if `n` is its arity. -/
def operatorFor (s : Symbols) (o : String) (n : Nat) : Except Fault Operator := do
  let operator ← s.operators.resolve o
  if operator.arity = n then
    return operator
  else
    .error (.arityMismatch o operator.arity n)

mutual

/-- Every name of an expression is declared, and every operator has its arity. -/
def check (s : Symbols) : Expr → Except Fault Unit
  | .var x => s.vars.resolve x
  | .formula f => (s.formulas.resolve f).map fun _ => ()
  | .not e => check s e
  | .binary _ l r => do
    check s l
    check s r
  | .apply o args => do
    let _ ← s.operatorFor o args.length
    checkList s args

/-- The expressions of a list pass the check. -/
def checkList (s : Symbols) : List Expr → Except Fault Unit
  | [] => .ok ()
  | a :: as => do
    check s a
    checkList s as

end

mutual

/-- The depth of an expression with its references expanded.  A reference to a formula that is
not declared is a leaf. -/
def expandedDepth (s : Symbols) : Expr → Nat
  | .var _ => 1
  | .formula f => 1 + ((s.formulas.find? f).map Formula.depth).getD 0
  | .not e => 1 + expandedDepth s e
  | .binary _ l r => 1 + max (expandedDepth s l) (expandedDepth s r)
  | .apply _ args => 1 + expandedDepthList s args

/-- The greatest expanded depth in a list of expressions. -/
def expandedDepthList (s : Symbols) : List Expr → Nat
  | [] => 0
  | a :: as => max (expandedDepth s a) (expandedDepthList s as)

end

/-- The expanded depth of an expression, if it is within the limit. -/
def checkDepth (config : Config) (s : Symbols) (e : Expr) : Except Fault Nat :=
  if s.expandedDepth e ≤ config.maxExpressionDepth then
    .ok (s.expandedDepth e)
  else
    .error (.depthLimit (s.expandedDepth e) config.maxExpressionDepth)

end Symbols

end PropBench
