import PropBench.Logic.BooleanFunction
import PropBench.Logic.Polynomial

/-!
# Logic — Post

Post's criterion.  A set of functions generates every Boolean function exactly when none of
five properties is shared by all of its members: each property is kept under composition, and
each is lacked by some function.

* `PostProperty.holdsFor` tests one property of one function.
* `PostProfile.of` is the five tests together.
* `retained` lists the properties that every profile of a list has; it is empty exactly for the
  adequate lists.
-/

namespace PropBench

/-- The five properties. -/
inductive PostProperty where
  | preservesFalse
  | preservesTrue
  | monotone
  | selfDual
  | affine
  deriving DecidableEq, Repr, Inhabited

namespace PostProperty

/-- The properties in their order. -/
def all : List PostProperty :=
  [.preservesFalse, .preservesTrue, .monotone, .selfDual, .affine]

/-- No raised argument lowers the output.  It is enough to raise one argument at a time. -/
def isMonotone (f : BooleanFunction) : Bool :=
  f.rows.all fun row _ =>
    f.arity.all fun k _ =>
      row.testBit k ||
        !(f.value? row == some true && f.value? (row ||| (1 <<< k)) == some false)

/-- The outputs at a row and at its complement differ. -/
def isSelfDual (f : BooleanFunction) : Bool :=
  f.rows.all fun row _ =>
    match f.value? row, f.value? (f.complementRow row) with
    | some a, some b => a != b
    | _, _ => false

/-- The polynomial has no conjunction of two or more arguments. -/
def isAffine (f : BooleanFunction) : Bool :=
  match degree? (polynomial f.outputs.toArray) with
  | none => true
  | some d => d ≤ 1

/-- The test of a property. -/
def holdsFor : PostProperty → BooleanFunction → Bool
  | .preservesFalse, f => f.value? 0 == some false
  | .preservesTrue, f => f.value? (f.rows - 1) == some true
  | .monotone, f => isMonotone f
  | .selfDual, f => isSelfDual f
  | .affine, f => isAffine f

/-- The short name. -/
def short : PostProperty → String
  | .preservesFalse => "T0"
  | .preservesTrue => "T1"
  | .monotone => "monotone"
  | .selfDual => "self-dual"
  | .affine => "affine"

/-- The name as a key of a record. -/
def key : PostProperty → String
  | .preservesFalse => "preserves_false"
  | .preservesTrue => "preserves_true"
  | .monotone => "monotone"
  | .selfDual => "self_dual"
  | .affine => "affine"

/-- The name as one word. -/
def word : PostProperty → String
  | .preservesFalse => "PreservesFalse"
  | .preservesTrue => "PreservesTrue"
  | .monotone => "Monotone"
  | .selfDual => "SelfDual"
  | .affine => "Affine"

end PostProperty

/-- Which of the five properties a function has. -/
structure PostProfile where
  preservesFalse : Bool
  preservesTrue : Bool
  monotone : Bool
  selfDual : Bool
  affine : Bool
  deriving DecidableEq, Repr, Inhabited

namespace PostProfile

/-- The profile of a function. -/
def of (f : BooleanFunction) : PostProfile where
  preservesFalse := PostProperty.preservesFalse.holdsFor f
  preservesTrue := PostProperty.preservesTrue.holdsFor f
  monotone := PostProperty.monotone.holdsFor f
  selfDual := PostProperty.selfDual.holdsFor f
  affine := PostProperty.affine.holdsFor f

/-- The entry of a profile for a property. -/
def holds (p : PostProfile) : PostProperty → Bool
  | .preservesFalse => p.preservesFalse
  | .preservesTrue => p.preservesTrue
  | .monotone => p.monotone
  | .selfDual => p.selfDual
  | .affine => p.affine

/-- The properties a profile has, in order. -/
def properties (p : PostProfile) : List PostProperty :=
  PostProperty.all.filter p.holds

/-- No property holds, so the function generates every function by itself. -/
def isSheffer (p : PostProfile) : Bool := p.properties.isEmpty

end PostProfile

/-- The properties every profile of a list has, in order; of the empty list, all of them. -/
def retained (profiles : List PostProfile) : List PostProperty :=
  PostProperty.all.filter fun property => profiles.all fun p => p.holds property

end PropBench
