import PropBench.Logic.Connective

/-!
# Program — Expression

Expressions: variables, references to formulas, negations, binary connectives, and operators
applied to arguments.

* `Expr.induct`: induction with a hypothesis for each argument of an application.
* `Expr.size` counts nodes, and `Expr.depth` those on a longest path; a reference is a leaf.
* `Expr.text` is the written form, in which each binary connective has its own parentheses.
-/

namespace PropBench

/-- Expressions. -/
inductive Expr where
  | var (name : String)
  | formula (name : String)
  | not (e : Expr)
  | binary (c : Binary) (l r : Expr)
  | apply (operator : String) (args : List Expr)
  deriving Repr, Inhabited

namespace Expr

/-- Induction on expressions, with a hypothesis for each argument of an application. -/
theorem induct {motive : Expr → Prop} (var : ∀ x, motive (.var x))
    (formula : ∀ f, motive (.formula f)) (not : ∀ e, motive e → motive (.not e))
    (binary : ∀ c l r, motive l → motive r → motive (.binary c l r))
    (apply : ∀ o args, (∀ a ∈ args, motive a) → motive (.apply o args)) : ∀ e, motive e :=
  @Expr.rec motive (fun args => ∀ a ∈ args, motive a) var formula not binary apply
    (by simp) (fun a as ha has => by simpa using ⟨ha, has⟩)

/-! ### Equality -/

mutual

/-- The same expression. -/
def same : Expr → Expr → Bool
  | .var x, .var y => x == y
  | .formula f, .formula g => f == g
  | .not a, .not b => same a b
  | .binary c a a', .binary d b b' => c == d && same a b && same a' b'
  | .apply o as, .apply p bs => o == p && sameList as bs
  | _, _ => false

/-- The same expressions, in the same order. -/
def sameList : List Expr → List Expr → Bool
  | [], [] => true
  | a :: as, b :: bs => same a b && sameList as bs
  | _, _ => false

end

theorem sameList_iff {as : List Expr} (h : ∀ a ∈ as, ∀ b, same a b = true ↔ a = b) :
    ∀ bs, sameList as bs = true ↔ as = bs := by
  induction as with
  | nil => intro bs; cases bs <;> simp [sameList]
  | cons a as ih =>
    intro bs
    cases bs with
    | nil => simp [sameList]
    | cons b bs =>
      simp only [sameList, Bool.and_eq_true, List.cons.injEq]
      rw [h a (by simp) b, ih (fun c hc => h c (by simp [hc])) bs]

theorem same_iff (a : Expr) : ∀ b, same a b = true ↔ a = b := by
  induction a using induct with
  | var x => intro b; cases b <;> simp [same]
  | formula f => intro b; cases b <;> simp [same]
  | not e ih => intro b; cases b <;> simp [same, ih]
  | binary c l r ihl ihr => intro b; cases b <;> simp [same, ihl, ihr, and_assoc]
  | apply o args ih => intro b; cases b <;> simp [same, sameList_iff ih]

instance : DecidableEq Expr := fun a b => decidable_of_iff (same a b = true) (same_iff a b)

/-! ### Size and depth -/

mutual

/-- The number of nodes. -/
def size : Expr → Nat
  | .var _ | .formula _ => 1
  | .not e => 1 + size e
  | .binary _ l r => 1 + size l + size r
  | .apply _ args => 1 + sizeList args

/-- The number of nodes of a list of expressions. -/
def sizeList : List Expr → Nat
  | [] => 0
  | a :: as => size a + sizeList as

end

mutual

/-- The number of nodes on a longest path from the root. -/
def depth : Expr → Nat
  | .var _ | .formula _ => 1
  | .not e => 1 + depth e
  | .binary _ l r => 1 + max (depth l) (depth r)
  | .apply _ args => 1 + depthList args

/-- The greatest depth in a list of expressions. -/
def depthList : List Expr → Nat
  | [] => 0
  | a :: as => max (depth a) (depthList as)

end

/-! ### The written form -/

mutual

/-- The written form of an expression. -/
def text : Expr → String
  | .var x => x
  | .formula f => "@" ++ f
  | .not e => "!" ++ text e
  | .binary c l r => "(" ++ text l ++ " " ++ c.sign ++ " " ++ text r ++ ")"
  | .apply o args => o ++ "(" ++ ", ".intercalate (textList args) ++ ")"

/-- The written forms of a list of expressions. -/
def textList : List Expr → List String
  | [] => []
  | a :: as => text a :: textList as

end

/-- An expression with `n` negations put in front of it. -/
def negate : Nat → Expr → Expr
  | 0, e => e
  | n + 1, e => .not (negate n e)

end Expr

end PropBench
