/-!
# Config

What can be set for a session.  The two limits have bounds, which every configuration keeps
(`Config.arity_le`, `Config.depth_pos`, `Config.depth_le`).

* `Config.set` changes one setting, or gives the bounds that the value is outside of.
-/

namespace PropBench

/-- The greatest limit that can be put on the arity of an operator. -/
def arityCeiling : Nat := 24

/-- The greatest limit that can be put on the depth of an expression. -/
def depthCeiling : Nat := 1024

/-- The settings of a session. -/
structure Config where
  /-- Stop a program after its first statement that fails. -/
  haltOnError : Bool := false
  /-- The greatest arity of a declared operator. -/
  maxOperatorArity : Nat := 16
  /-- The greatest depth of an expression that is read, declared or evaluated. -/
  maxExpressionDepth : Nat := 256
  /-- Keep a trace of the pieces read. -/
  traceLexemes : Bool := false
  arity_le : maxOperatorArity ≤ arityCeiling := by decide
  depth_pos : 1 ≤ maxExpressionDepth := by decide
  depth_le : maxExpressionDepth ≤ depthCeiling := by decide
  deriving DecidableEq, Repr

instance : Inhabited Config := ⟨{}⟩

/-- A setting with a value. -/
inductive Setting where
  | haltOnError (on : Bool)
  | maxOperatorArity (n : Nat)
  | maxExpressionDepth (n : Nat)
  | traceLexemes (on : Bool)
  deriving DecidableEq, Repr, Inhabited

/-- The name of a setting. -/
def Setting.name : Setting → String
  | .haltOnError _ => "halt_on_error"
  | .maxOperatorArity _ => "max_operator_arity"
  | .maxExpressionDepth _ => "max_expression_depth"
  | .traceLexemes _ => "trace_lexemes"

/-- The bounds of the setting `name`, which a value is outside of. -/
structure OutOfBounds where
  name : String
  least : Nat
  greatest : Nat
  deriving DecidableEq, Repr, Inhabited

/-- The wording of a value out of bounds. -/
def OutOfBounds.message (o : OutOfBounds) : String :=
  s!"{o.name} requires a value between {o.least} and {o.greatest}"

namespace Config

/-- Changes a setting, if the value is within its bounds. -/
def set (c : Config) (s : Setting) : Except OutOfBounds Config :=
  match s with
  | .haltOnError on => .ok { c with haltOnError := on }
  | .traceLexemes on => .ok { c with traceLexemes := on }
  | .maxOperatorArity n =>
    if h : n ≤ arityCeiling then
      .ok { c with maxOperatorArity := n, arity_le := h }
    else
      .error ⟨s.name, 0, arityCeiling⟩
  | .maxExpressionDepth n =>
    if h : 1 ≤ n ∧ n ≤ depthCeiling then
      .ok { c with maxExpressionDepth := n, depth_pos := h.1, depth_le := h.2 }
    else
      .error ⟨s.name, 1, depthCeiling⟩

/-- A setting with the value it has in a configuration. -/
def current (c : Config) : Setting → Setting
  | .haltOnError _ => .haltOnError c.haltOnError
  | .maxOperatorArity _ => .maxOperatorArity c.maxOperatorArity
  | .maxExpressionDepth _ => .maxExpressionDepth c.maxExpressionDepth
  | .traceLexemes _ => .traceLexemes c.traceLexemes

end Config

end PropBench
