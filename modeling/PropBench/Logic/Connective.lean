/-!
# Logic — Connective

Truth values are the Booleans.  There are five connectives: negation, and the four binary ones
(`Binary`).

* `Connective.name` is the upper-case name of a connective; `Connective.ofName?` finds a
  connective by any of its names, in any case.  Implication has two names, `IMPLIES` and `THEN`.
* `Binary.binding` and `Binary.groupsRight` say how a chain of binary connectives is grouped:
  the greater binding is the tighter one, and equal bindings group to the right or to the left.
-/

namespace PropBench

/-- The binary connectives. -/
inductive Binary where
  | and
  | or
  | implies
  | iff
  deriving DecidableEq, Repr, Inhabited

namespace Binary

/-- The value of a binary connective at two truth values. -/
def apply : Binary → Bool → Bool → Bool
  | .and, l, r => l && r
  | .or, l, r => l || r
  | .implies, l, r => !l || r
  | .iff, l, r => l == r

/-- The sign written between the operands. -/
def sign : Binary → String
  | .and => "&"
  | .or => "|"
  | .implies => "->"
  | .iff => "<->"

/-- The upper-case name. -/
def name : Binary → String
  | .and => "AND"
  | .or => "OR"
  | .implies => "IMPLIES"
  | .iff => "IFF"

/-- Of two binary connectives side by side, the one with the greater binding takes its operands
first. -/
def binding : Binary → Nat
  | .iff => 1
  | .implies => 2
  | .or => 3
  | .and => 4

/-- Equal connectives side by side are grouped to the right. -/
def groupsRight : Binary → Bool
  | .iff | .implies => true
  | .or | .and => false

end Binary

/-- The connectives. -/
inductive Connective where
  | not
  | binary (c : Binary)
  deriving DecidableEq, Repr, Inhabited

namespace Connective

/-- The connectives, in the order of their introduction. -/
def all : List Connective :=
  [.not, .binary .and, .binary .or, .binary .implies, .binary .iff]

/-- How many operands a connective takes. -/
def arity : Connective → Nat
  | .not => 1
  | .binary _ => 2

/-- The value of a connective at an input of its arity. -/
def valueAt? : Connective → List Bool → Option Bool
  | .not, [b] => some !b
  | .binary c, [l, r] => some (c.apply l r)
  | _, _ => none

/-- The upper-case name. -/
def name : Connective → String
  | .not => "NOT"
  | .binary c => c.name

/-- The connective with the given upper-case name. -/
def ofUpperName? : String → Option Connective
  | "NOT" => some .not
  | "AND" => some (.binary .and)
  | "OR" => some (.binary .or)
  | "IMPLIES" | "THEN" => some (.binary .implies)
  | "IFF" => some (.binary .iff)
  | _ => none

/-- The connective with the given name, in any case.  Only the letters `a` to `z` have an
upper-case form here. -/
def ofName? (name : String) : Option Connective :=
  ofUpperName? name.toUpper

end Connective

end PropBench
