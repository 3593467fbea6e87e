import PropBench.Symbols.Check

/-!
# Symbols — Evaluation

The value of an expression under a valuation.  Both operands of a connective and all arguments of
an operator are evaluated, from left to right; a reference has the value of its formula's
expression under the same valuation.

* `Symbols.evalWithin` evaluates with calls nested at most `bound` deep, and has no answer if
  that is not enough.
* `Symbols.evaluate` takes the expanded depth as its bound.
* `Symbols.evaluateNamed` evaluates a declared formula under a declared valuation.
-/

namespace PropBench

/-- An evaluation: no answer within the bound, a fault, or a value. -/
abbrev Evaluation (α : Type) := ExceptT Fault Option α

namespace Evaluation

/-- The answer of a look-up. -/
def of {α : Type} (r : Except Fault α) : Evaluation α := ExceptT.mk (some r)

/-- The bound does not suffice. -/
def unfinished {α : Type} : Evaluation α := ExceptT.mk none

end Evaluation

namespace Symbols

/-- The value of a variable under a valuation. -/
def valueOf (v : Valuation) (x : String) : Except Fault Bool :=
  match v.value? x with
  | some b => .ok b
  | none => .error (.unbound x)

/-- The value of an operator at an input, by its table. -/
def applyTable (o : String) (operator : Operator) (input : List Bool) : Except Fault Bool :=
  match operator.table.value? input with
  | some b => .ok b
  | none => .error (.noEntry o input)

/-- The value of an expression, found with calls nested at most `bound` deep. -/
def evalWithin (s : Symbols) (v : Valuation) : Nat → Expr → Evaluation Bool
  | 0, _ => .unfinished
  | _ + 1, .var x => .of (valueOf v x)
  | bound + 1, .formula f => do
    let formula ← .of (s.formulas.resolve f)
    evalWithin s v bound formula.expr
  | bound + 1, .not e => do
    let b ← evalWithin s v bound e
    return !b
  | bound + 1, .binary c l r => do
    let a ← evalWithin s v bound l
    let b ← evalWithin s v bound r
    return c.apply a b
  | bound + 1, .apply o args => do
    let operator ← .of (s.operatorFor o args.length)
    let input ← args.mapM (evalWithin s v bound)
    .of (applyTable o operator input)

/-- The value of an expression under a valuation.  The expanded depth bounds the nesting of calls
in tables that declarations fill; in others an evaluation that goes deeper is a fault. -/
def evaluate (s : Symbols) (v : Valuation) (e : Expr) : Except Fault Bool :=
  match (s.evalWithin v (s.expandedDepth e) e).run with
  | some r => r
  | none => .error (.depthLimit (s.expandedDepth e + 1) (s.expandedDepth e))

/-- The value of a declared formula under a declared valuation. -/
def evaluateNamed (s : Symbols) (formula valuation : String) : Except Fault Bool := do
  let f ← s.formulas.resolve formula
  let v ← s.valuations.resolve valuation
  s.evaluate v f.expr

/-- The value of any expression of limited depth under a declared valuation. -/
def evaluateExpr (config : Config) (s : Symbols) (e : Expr) (valuation : String) :
    Except Fault Bool := do
  let v ← s.valuations.resolve valuation
  let _ ← s.checkDepth config e
  s.evaluate v e

end Symbols

end PropBench
