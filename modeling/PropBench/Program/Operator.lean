import PropBench.Logic.TruthTable

/-!
# Program — Operator

Declared operators, references to operators, and sets of operators.

* `Operator.arity`: the parameters of an operator only fix its arity; the cells of a pattern are
  matched with them by place.
* `OperatorRef`: a member of an operator set is a connective or a declared operator.
-/

namespace PropBench

/-- An operator given by a table. -/
structure Operator where
  name : String
  parameters : List String
  table : TruthTable
  deriving DecidableEq, Repr, Inhabited

/-- How many parameters an operator has. -/
def Operator.arity (o : Operator) : Nat := o.parameters.length

/-- A connective, or the name of a declared operator. -/
inductive OperatorRef where
  | builtin (c : Connective)
  | custom (name : String)
  deriving DecidableEq, Repr, Inhabited

namespace OperatorRef

/-- The name a member is written by. -/
def name : OperatorRef → String
  | .builtin c => c.name
  | .custom n => n

/-- The two kinds of reference, as a word. -/
def kind : OperatorRef → String
  | .builtin _ => "builtin"
  | .custom _ => "custom"

end OperatorRef

/-- A named list of operators. -/
structure OperatorSet where
  name : String
  operators : List OperatorRef
  deriving DecidableEq, Repr, Inhabited

end PropBench
