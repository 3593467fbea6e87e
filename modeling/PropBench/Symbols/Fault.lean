import PropBench.Source.SyntaxError
import PropBench.Symbols.Namespace

/-!
# Symbols — Fault

Why a statement, or a question to a session, fails.

* `Fault.message` words a fault.
-/

namespace PropBench

/-- Why a statement or a question fails. -/
inductive Fault where
  /-- The name is declared already, or stands twice in one list. -/
  | duplicate (space : Namespace) (name : String)
  /-- The name is not declared. -/
  | unknown (space : Namespace) (name : String)
  /-- The valuation gives the variable no value. -/
  | unbound (name : String)
  /-- An operator is applied to, or has a pattern for, a number of arguments that is not its
  arity. -/
  | arityMismatch (operator : String) (expected found : Nat)
  /-- The table of the operator has no entry for the input. -/
  | noEntry (operator : String) (input : List Bool)
  /-- The operator has too many parameters. -/
  | arityLimit (operator : String) (arity limit : Nat)
  /-- The expression is too deep. -/
  | depthLimit (depth limit : Nat)
  /-- The text is no program. -/
  | malformed (e : SyntaxError)
  deriving DecidableEq, Repr, Inhabited

namespace Fault

/-- An input in parentheses, as digits. -/
def inputText (input : List Bool) : String :=
  "(" ++ ", ".intercalate (input.map fun b => if b then "1" else "0") ++ ")"

/-- The wording of a fault. -/
def message : Fault → String
  | .duplicate space name => s!"{space.text} '{name}' is already declared"
  | .unknown space name => s!"unknown {space.text} '{name}'"
  | .unbound name => s!"variable '{name}' has no value in the valuation"
  | .arityMismatch o expected found =>
    s!"operator '{o}' takes {expected} argument(s) but {found} were given"
  | .noEntry o input => s!"operator '{o}' has no entry for {inputText input}"
  | .arityLimit o arity limit => s!"operator '{o}' has arity {arity}, above the limit of {limit}"
  | .depthLimit depth limit => s!"expression has depth {depth}, above the limit of {limit}"
  | .malformed e => e.message

/-- The kind of a fault as a value in a record. -/
def key : Fault → String
  | .duplicate _ _ => "duplicate_declaration"
  | .unknown _ _ => "unknown_identifier"
  | .unbound _ => "unbound_variable"
  | .arityMismatch _ _ _ => "arity_mismatch"
  | .noEntry _ _ => "no_matching_entry"
  | .arityLimit _ _ _ => "arity_limit"
  | .depthLimit _ _ => "depth_limit"
  | .malformed _ => "parse"

end Fault

end PropBench
