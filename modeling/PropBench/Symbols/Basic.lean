import PropBench.Program.Statement
import PropBench.Symbols.Table

/-!
# Symbols — Basic

The tables of a session, one for each namespace that holds declarations.
-/

namespace PropBench

/-- A declared formula, with the depth of its expression when every reference is expanded. -/
structure Formula where
  expr : Expr
  depth : Nat
  deriving DecidableEq, Repr, Inhabited

/-- The declared names and their definitions. -/
structure Symbols where
  vars : Table .vars Unit := {}
  formulas : Table .formulas Formula := {}
  valuations : Table .valuations Valuation := {}
  operators : Table .operators Operator := {}
  opsets : Table .opsets OperatorSet := {}
  deriving DecidableEq, Repr, Inhabited

namespace Symbols

/-- A name is declared in a namespace. -/
def contains (s : Symbols) (space : Namespace) (name : String) : Bool :=
  match space with
  | .vars => s.vars.contains name
  | .formulas => s.formulas.contains name
  | .valuations => s.valuations.contains name
  | .operators => s.operators.contains name
  | .opsets => s.opsets.contains name
  | .parameters => false

/-- The number of declared names. -/
def size (s : Symbols) : Nat :=
  s.vars.size + s.formulas.size + s.valuations.size + s.operators.size + s.opsets.size

/-- The declared names of a namespace, in order. -/
def names (s : Symbols) : Namespace → List String
  | .vars => s.vars.names
  | .formulas => s.formulas.names
  | .valuations => s.valuations.names
  | .operators => s.operators.names
  | .opsets => s.opsets.names
  | .parameters => []

end Symbols

end PropBench
