import PropBench.Symbols.Adequacy
import PropBench.Symbols.Declaration
import PropBench.Symbols.Evaluation

/-!
# Session — Outcome

What a statement does to the tables of a session, and what it answers.

* `Symbols.execute` carries out a statement.  Only definitions change a table.
-/

namespace PropBench

/-- The answer of a statement that succeeds. -/
inductive Outcome where
  | declared (space : Namespace) (names : List String)
  | evaluated (formula valuation : String) (value : Bool)
  | adequacy (report : AdequacyReport)
  deriving DecidableEq, Repr, Inhabited

namespace Symbols

/-- Carries out a statement. -/
def execute (config : Config) : Statement → Work Outcome
  | .defineVariables names => do
    defineVariables names
    return .declared .vars names
  | .defineFormula name e => do
    defineFormula config name e
    return .declared .formulas [name]
  | .defineValuation name assignments => do
    defineValuation name assignments
    return .declared .valuations [name]
  | .defineOperator o => do
    defineOperator config o
    return .declared .operators [o.name]
  | .defineOpset name identifiers => do
    defineOpset name identifiers
    return .declared .opsets [name]
  | .evaluate f v => do
    let s ← get
    let b ← s.evaluateNamed f v
    return .evaluated f v b
  | .adequate o => do
    let s ← get
    let r ← s.checkAdequacyNamed o
    return .adequacy r

end Symbols

end PropBench
