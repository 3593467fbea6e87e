import PropBench.Logic.Post
import PropBench.Symbols.Basic

/-!
# Symbols — Adequacy

The verdict on an operator set, by Post's criterion.  The function of a declared operator is
taken over all inputs of its arity, so an operator whose table leaves an input out has none.

* `Symbols.function`: the function of an operator.
* `Symbols.checkAdequacy`: the profile of each operator, the properties all of them share, and
  the verdict.  The first operator without a function is reported.
-/

namespace PropBench

/-- The profile of a member of an operator set. -/
structure OperatorProfile where
  operator : OperatorRef
  arity : Nat
  profile : PostProfile
  deriving DecidableEq, Repr, Inhabited

/-- The verdict on an operator set, with the properties that all of its members share. -/
structure AdequacyReport where
  opset : String
  adequate : Bool
  retained : List PostProperty
  operators : List OperatorProfile
  deriving DecidableEq, Repr, Inhabited

/-- The report on a set whose members have the given profiles. -/
def AdequacyReport.of (opset : String) (operators : List OperatorProfile) : AdequacyReport :=
  let shared := PropBench.retained (operators.map OperatorProfile.profile)
  ⟨opset, shared.isEmpty, shared, operators⟩

namespace Symbols

/-- The function of an operator. -/
def function (s : Symbols) : OperatorRef → Except Fault BooleanFunction
  | .builtin c => .ok (.ofConnective c)
  | .custom name => do
    let o ← s.operators.resolve name
    match o.table.function o.arity with
    | .ok f => .ok f
    | .error input => .error (.noEntry name input)

/-- The profile of an operator. -/
def profile (s : Symbols) (o : OperatorRef) : Except Fault OperatorProfile :=
  (s.function o).map fun f => ⟨o, f.arity, .of f⟩

/-- The report on an operator set. -/
def checkAdequacy (s : Symbols) (set : OperatorSet) : Except Fault AdequacyReport :=
  (set.operators.mapM s.profile).map (.of set.name)

/-- The report on a declared operator set. -/
def checkAdequacyNamed (s : Symbols) (opset : String) : Except Fault AdequacyReport := do
  s.checkAdequacy (← s.opsets.resolve opset)

end Symbols

end PropBench
