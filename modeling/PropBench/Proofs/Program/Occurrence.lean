import Mathlib.Data.List.Basic
import PropBench.Program.Expr

/-!
# Proofs — Program — Occurrence

The names in an expression, from left to right, each with the way it is used.

* `Expr.occurrences`: all of them; an operator comes before the names in its arguments.
* `Expr.vars`: those of variables.
-/

namespace PropBench

/-- A name in an expression, with the way it is used. -/
inductive Occurrence where
  | var (name : String)
  | formula (name : String)
  | operator (name : String) (count : Nat)
  deriving DecidableEq, Repr

/-- The name of a variable. -/
def Occurrence.var? : Occurrence → Option String
  | .var x => some x
  | .formula _ | .operator _ _ => none

namespace Expr

mutual

/-- The names in an expression, from left to right. -/
def occurrences : Expr → List Occurrence
  | .var x => [.var x]
  | .formula f => [.formula f]
  | .not e => occurrences e
  | .binary _ l r => occurrences l ++ occurrences r
  | .apply o args => .operator o args.length :: occurrencesList args

/-- The names in a list of expressions. -/
def occurrencesList : List Expr → List Occurrence
  | [] => []
  | a :: as => occurrences a ++ occurrencesList as

end

theorem occurrencesList_eq (es : List Expr) : occurrencesList es = es.flatMap occurrences := by
  induction es with
  | nil => rfl
  | cons e es ih => rw [occurrencesList, ih, List.flatMap_cons]

/-- The variables of an expression, from left to right. -/
def vars (e : Expr) : List String := e.occurrences.filterMap Occurrence.var?

theorem vars_not (e : Expr) : (Expr.not e).vars = e.vars := rfl

theorem vars_binary (c : Binary) (l r : Expr) : (binary c l r).vars = l.vars ++ r.vars :=
  List.filterMap_append

theorem vars_apply (o : String) (args : List Expr) : (apply o args).vars = args.flatMap vars := by
  rw [vars, occurrences, occurrencesList_eq, List.filterMap_cons_none rfl, List.filterMap_flatMap]
  rfl

variable {P : Occurrence → Prop}

theorem forall_occurrences_binary {c : Binary} {l r : Expr} :
    (∀ o ∈ (binary c l r).occurrences, P o) ↔
      (∀ o ∈ l.occurrences, P o) ∧ ∀ o ∈ r.occurrences, P o := by
  rw [occurrences, List.forall_mem_append]

theorem forall_occurrences_apply {name : String} {args : List Expr} :
    (∀ o ∈ (apply name args).occurrences, P o) ↔
      P (.operator name args.length) ∧ ∀ a ∈ args, ∀ o ∈ a.occurrences, P o := by
  rw [occurrences, List.forall_mem_cons, occurrencesList_eq, List.forall_mem_flatMap]

end Expr

end PropBench
