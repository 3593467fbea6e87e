/-!
# Symbols — Namespace

Names are declared in namespaces, and the same name may be declared in each of them.
-/

namespace PropBench

/-- The namespaces.  Parameters belong to one operator and are never declared in a table. -/
inductive Namespace where
  | vars
  | formulas
  | valuations
  | operators
  | opsets
  | parameters
  deriving DecidableEq, Repr, Inhabited

/-- What a name of a namespace is called. -/
def Namespace.text : Namespace → String
  | .vars => "variable"
  | .formulas => "formula"
  | .valuations => "valuation"
  | .operators => "operator"
  | .opsets => "opset"
  | .parameters => "parameter"

end PropBench
