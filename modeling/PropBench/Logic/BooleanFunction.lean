import PropBench.Logic.Connective

/-!
# Logic — Boolean function

A Boolean function of `n` arguments is the vector of its outputs, one for each of two to the power
of `n` rows.  At row `i` argument `k` is bit `k` of `i` (`inputAt`), and `rowOf` is the row of an
input.

* `rowOf_inputAt`, `inputAt_rowOf`: rows and inputs correspond.
* `BooleanFunction.ofFnM` fills the outputs row by row; in a monad with failure it stops at the
  first row that fails.
* `BooleanFunction.ofConnective` is the function of a connective.
-/

namespace PropBench

/-- The input of the given arity at a row: argument `k` is bit `k` of the row. -/
def inputAt (arity row : Nat) : List Bool :=
  (List.range arity).map row.testBit

/-- The row of an input: bit `k` of the row is argument `k`. -/
def rowOf : List Bool → Nat
  | [] => 0
  | b :: bs => b.toNat + 2 * rowOf bs

/-- The number of rows of a function of the given arity: two to its power. -/
def rowCount (arity : Nat) : Nat := Nat.pow 2 arity

theorem rowCount_succ (n : Nat) : rowCount (n + 1) = 2 * rowCount n :=
  Nat.mul_comm (Nat.pow 2 n) 2

/-! ### Rows and inputs -/

@[simp] theorem length_inputAt (n row : Nat) : (inputAt n row).length = n := by
  simp [inputAt]

/-- The first argument is the lowest bit of a row. -/
theorem inputAt_succ (n row : Nat) :
    inputAt (n + 1) row = row.testBit 0 :: inputAt n (row / 2) := by
  simp [inputAt, List.range_succ_eq_map, Nat.testBit_succ, Function.comp_def]

/-- Every input has its row in the table. -/
theorem rowOf_lt (input : List Bool) : rowOf input < rowCount input.length := by
  induction input with
  | nil => exact Nat.one_pos
  | cons b bs ih =>
    rw [rowOf, List.length_cons, rowCount_succ]
    have := b.toNat_le
    omega

/-- The row of an input gives the input back. -/
theorem inputAt_rowOf (input : List Bool) : inputAt input.length (rowOf input) = input := by
  induction input with
  | nil => rfl
  | cons b bs ih =>
    have hb : (b.toNat + 2 * rowOf bs).testBit 0 = b := by
      cases b <;> simp [Nat.testBit_zero]
    have hr : (b.toNat + 2 * rowOf bs) / 2 = rowOf bs := by
      have := b.toNat_lt
      omega
    rw [rowOf, List.length_cons, inputAt_succ, hb, hr, ih]

/-- The input of a row in the table gives the row back. -/
theorem rowOf_inputAt {n row : Nat} (h : row < rowCount n) : rowOf (inputAt n row) = row := by
  induction n generalizing row with
  | zero =>
    have h0 : row = 0 := Nat.lt_one_iff.1 h
    rw [h0]
    rfl
  | succ n ih =>
    rw [rowCount_succ] at h
    rw [inputAt_succ, rowOf, ih (by omega), Nat.toNat_testBit]
    omega

/-! ### Functions -/

/-- A Boolean function, as the outputs at its rows. -/
structure BooleanFunction where
  arity : Nat
  outputs : Vector Bool (rowCount arity)
  deriving DecidableEq, Repr

namespace BooleanFunction

/-- The function with `f` as its value at each input; the inputs are visited in the order of
their rows. -/
def ofFnM {m : Type → Type} [Monad m] (arity : Nat) (f : List Bool → m Bool) :
    m BooleanFunction := do
  return ⟨arity, ← Vector.ofFnM fun row => f (inputAt arity row)⟩

/-- The function of a connective. -/
def ofConnective : Connective → BooleanFunction
  | .not => ⟨1, #v[true, false]⟩
  | .binary c => ⟨2, Vector.ofFn fun row => c.apply (row.val.testBit 0) (row.val.testBit 1)⟩

/-- The number of rows. -/
def rows (f : BooleanFunction) : Nat := rowCount f.arity

/-- The output at a row, if the function has that row. -/
def value? (f : BooleanFunction) (row : Nat) : Option Bool := f.outputs[row]?

/-- The input at a row. -/
def input (f : BooleanFunction) (row : Nat) : List Bool := inputAt f.arity row

/-- The row at which each argument is the opposite of what it is at `row`. -/
def complementRow (f : BooleanFunction) (row : Nat) : Nat := row ^^^ (f.rows - 1)

end BooleanFunction

end PropBench
