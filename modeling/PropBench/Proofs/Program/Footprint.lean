import PropBench.Proofs.Program.Occurrence
import PropBench.Program.Statement
import PropBench.Symbols.Namespace

/-!
# Proofs — Program — Footprint

The names that a statement has to do with, each in its namespace.

* `Statement.declarations`: those that it declares, in order.
* `Statement.mentions`: those that it uses.
-/

namespace PropBench

/-- The name of an occurrence, in its namespace. -/
def Occurrence.mention : Occurrence → Namespace × String
  | .var x => (.vars, x)
  | .formula f => (.formulas, f)
  | .operator o _ => (.operators, o)

namespace Statement

/-- The names that a statement declares, if it succeeds. -/
def declarations : Statement → List (Namespace × String)
  | .defineVariables names => names.map (.vars, ·)
  | .defineFormula name _ => [(.formulas, name)]
  | .defineValuation name _ => [(.valuations, name)]
  | .defineOperator o => [(.operators, o.name)]
  | .defineOpset name _ => [(.opsets, name)]
  | .evaluate _ _ | .adequate _ => []

/-- The names that a statement uses: those in an expression, the variables of a valuation, the
identifiers of a set, and what is asked about. -/
def mentions : Statement → List (Namespace × String)
  | .defineVariables _ | .defineOperator _ => []
  | .defineFormula _ e => e.occurrences.map Occurrence.mention
  | .defineValuation _ assignments => assignments.map fun a => (.vars, a.1)
  | .defineOpset _ identifiers => identifiers.map (.operators, ·)
  | .evaluate f v => [(.formulas, f), (.valuations, v)]
  | .adequate o => [(.opsets, o)]

end Statement

end PropBench
