import PropBench.Proofs.Logic.Post
import PropBench.Proofs.Logic.Transform

/-!
# Proofs — Logic — Decision

The five tests decide the definitions of the five properties, which are said of all inputs, or of
all sets of arguments.

* `BooleanFunction.valueAt`: the value at an input.
* `PostProperty.IsOf`: the definition of a property.
* `PostProperty.test?`: a test that makes all its look-ups, and has no answer when one is beyond the
  last row.
* `PostProperty.holdsFor_iff_isOf`: a test succeeds exactly at the functions with the property, and
  looks up none but rows of the function.
-/

namespace PropBench

/-! ### Inputs -/

theorem rowOf_ofFn_lt {n : Nat} (x : Fin n → Bool) : rowOf (List.ofFn x) < rowCount n := by
  simpa using rowOf_lt (List.ofFn x)

theorem testBit_rowOf_ofFn {n : Nat} (x : Fin n → Bool) (k : Fin n) :
    (rowOf (List.ofFn x)).testBit k = x k := by
  rw [testBit_rowOf]
  simp [List.getD]

namespace BooleanFunction

variable {f : BooleanFunction}

/-- The value at an input. -/
def valueAt (f : BooleanFunction) (x : Fin f.arity → Bool) : Bool :=
  f.outputs.get ⟨rowOf (List.ofFn x), rowOf_ofFn_lt x⟩

theorem valueAt_eq_output (x : Fin f.arity → Bool) :
    f.valueAt x = f.output (rowOf (List.ofFn x)) :=
  f.outputs_get ⟨rowOf (List.ofFn x), rowOf_ofFn_lt x⟩

/-- Argument `k` is bit `k` of the row. -/
theorem output_eq_valueAt {row : Nat} (h : row < f.rows) :
    f.output row = f.valueAt fun k => row.testBit k := by
  rw [valueAt_eq_output]
  refine congrArg f.output (row_ext h (rowOf_ofFn_lt _) fun k hk => ?_)
  exact (testBit_rowOf_ofFn (fun k : Fin f.arity => row.testBit k) ⟨k, hk⟩).symm

/-- Keeping a relation, said of inputs. -/
theorem preserves_iff {R : (Fin 4 → Bool) → Prop} : f.Preserves R ↔
    ∀ x : Fin 4 → Fin f.arity → Bool, (∀ k, R fun i => x i k) → R fun i => f.valueAt (x i) := by
  constructor
  · intro h x hx
    simp only [valueAt_eq_output]
    refine h _ (fun i => rowOf_ofFn_lt (x i)) fun k hk => ?_
    simpa only [testBit_rowOf_ofFn (x _) ⟨k, hk⟩] using hx ⟨k, hk⟩
  · intro h r hr hk
    simp only [output_eq_valueAt (hr _)]
    exact h _ fun k => hk k k.isLt

end BooleanFunction

/-! ### Definitions -/

namespace PostProperty

variable {f : BooleanFunction}

/-- The definition of each property, for a function of `n` arguments. -/
def IsOf {n : Nat} : PostProperty → ((Fin n → Bool) → Bool) → Prop
  | .preservesFalse, g => g (fun _ => false) = false
  | .preservesTrue, g => g (fun _ => true) = true
  | .monotone, g => ∀ x y, (∀ k, x k ≤ y k) → g x ≤ g y
  | .selfDual, g => ∀ x, g (fun k => !x k) = !g x
  | .affine, g => ∃ (c : Bool) (S : Finset (Fin n)), ∀ x, g x = (c ^^ ∑ k ∈ S, x k)

/-- The affine functions are the sums of a constant and some of the arguments. -/
theorem keeps_affine_iff_isOf : f.Keeps .affine ↔ affine.IsOf f.valueAt := by
  constructor
  · intro h
    -- The arguments that occur are those with a coefficient.
    refine ⟨coefficient f 0,
      Finset.univ.filter fun k : Fin f.arity => coefficient f (2 ^ k.val) = true, fun x => ?_⟩
    rw [BooleanFunction.valueAt_eq_output, output_eq_affine (keeps_affine_iff_weight.mp h)
      (rowOf_ofFn_lt x), Finset.sum_filter, Finset.sum_range]
    refine congrArg (coefficient f 0 + ·) (Finset.sum_congr rfl fun k _ => ?_)
    rw [testBit_rowOf_ofFn]
    cases coefficient f (2 ^ k.val) with
    | false => rw [Bool.and_false, if_neg Bool.false_ne_true]; rfl
    | true => rw [Bool.and_true, if_pos rfl]
  · rintro ⟨c, S, hg⟩
    refine BooleanFunction.preserves_iff.mpr fun x hx => ?_
    -- The sums of arguments add up as the arguments do, whatever the function is.
    have hsum : ∑ k ∈ S, x 3 k = ∑ k ∈ S, x 0 k + ∑ k ∈ S, x 1 k + ∑ k ∈ S, x 2 k := by
      rw [← Finset.sum_add_distrib, ← Finset.sum_add_distrib]
      exact Finset.sum_congr rfl fun k _ => hx k
    show f.valueAt (x 3) = (f.valueAt (x 0) ^^ f.valueAt (x 1) ^^ f.valueAt (x 2))
    rw [hg, hg, hg, hg, hsum]
    generalize ∑ k ∈ S, x 0 k = s₀
    generalize ∑ k ∈ S, x 1 k = s₁
    generalize ∑ k ∈ S, x 2 k = s₂
    clear hg
    revert c s₀ s₁ s₂
    decide

/-- A property kept in the table is the property of the function. -/
theorem keeps_iff_isOf (p : PostProperty) : f.Keeps p ↔ p.IsOf f.valueAt := by
  cases p with
  | preservesFalse =>
      -- One row stands for all four, as each of them is all false.
      refine BooleanFunction.preserves_iff.trans ⟨fun h => h (fun _ _ => false) fun _ => rfl, ?_⟩
      intro h x hx
      have : x 0 = fun _ => false := funext hx
      show f.valueAt (x 0) = false
      rw [this]
      exact h
  | preservesTrue =>
      refine BooleanFunction.preserves_iff.trans ⟨fun h => h (fun _ _ => true) fun _ => rfl, ?_⟩
      intro h x hx
      have : x 0 = fun _ => true := funext hx
      show f.valueAt (x 0) = true
      rw [this]
      exact h
  | monotone =>
      refine BooleanFunction.preserves_iff.trans ⟨fun h x y hxy => ?_, fun h x hx => ?_⟩
      · exact Bool.le_iff_imp.mpr (h ![x, y, x, x] fun k => Bool.le_iff_imp.mp (hxy k))
      · exact Bool.le_iff_imp.mp (h (x 0) (x 1) fun k => Bool.le_iff_imp.mpr (hx k))
  | selfDual =>
      refine BooleanFunction.preserves_iff.trans ⟨fun h x => ?_, fun h x hx => ?_⟩
      · exact h ![x, fun k => !x k, x, x] fun k => rfl
      · have : x 1 = fun k => !x 0 k := funext hx
        show f.valueAt (x 1) = _
        rw [this]
        exact h (x 0)
  | affine => exact keeps_affine_iff_isOf

/-! ### Look-ups -/

/-- The test of a property that makes all its look-ups, and has no answer when one of them is beyond
the last row. -/
def test? (f : BooleanFunction) : PostProperty → Option Bool
  | .preservesFalse => (f.value? 0).map (· == false)
  | .preservesTrue => (f.value? (f.rows - 1)).map (· == true)
  | .monotone => do
    let rows ← (List.range f.rows).mapM fun row =>
      ((List.range f.arity).filter fun k => !row.testBit k).mapM fun k => do
        return !(← f.value? row) || (← f.value? (row ||| 1 <<< k))
    return rows.all fun raised => raised.all id
  | .selfDual => do
    let rows ← (List.range f.rows).mapM fun row => do
      return (← f.value? row) != (← f.value? (f.complementRow row))
    return rows.all id
  | .affine => do
    let coefficients ← polynomialInPlace? f.outputs.toArray
    match degree? coefficients with
    | none => return true
    | some d => return d ≤ 1

/-- A list is mapped as a whole, if each of its items has a value. -/
theorem mapM_eq_some_map {α β : Type} {g : α → Option β} {h : α → β} {as : List α}
    (hg : ∀ a ∈ as, g a = some (h a)) : as.mapM g = some (as.map h) := by
  induction as with
  | nil => rfl
  | cons a as ih =>
      rw [List.mapM_cons, hg a (by simp), ih fun b hb => hg b (by simp [hb])]
      rfl

/-- The test looks up no row beyond the last, and gives the answer. -/
theorem test?_monotone : monotone.test? f = some (holdsFor monotone f) := by
  have hrow (row : Nat) (hrow : row < f.rows) :
      ((List.range f.arity).filter fun k => !row.testBit k).mapM (fun k => do
        return !(← f.value? row) || (← f.value? (row ||| 1 <<< k))) =
      some (((List.range f.arity).filter fun k => !row.testBit k).map fun k =>
        !f.output row || f.output (raise row k)) := by
    refine mapM_eq_some_map fun k hk => ?_
    have hk : k < f.arity := List.mem_range.mp (List.mem_filter.mp hk).1
    have hraise : f.value? (row ||| 1 <<< k) = some (f.output (raise row k)) :=
      f.value?_of_lt (raise_lt_rowCount hrow hk)
    rw [f.value?_of_lt hrow, hraise]
    rfl
  rw [test?, mapM_eq_some_map fun row h => hrow row (List.mem_range.mp h)]
  refine congrArg some (Bool.eq_iff_iff.mpr ?_)
  rw [holdsFor_iff_keeps, keeps_monotone_iff]
  simp only [List.all_map, List.all_eq_true, List.mem_range, Function.comp_apply, List.mem_filter]
  constructor
  · intro h row k hrow hk hbit hout
    simpa [hout] using h row hrow k ⟨hk, by simp [hbit]⟩
  · intro h row hrow k hk
    have := h row k hrow hk.1 (by simpa using hk.2)
    cases hout : f.output row with
    | false => rfl
    | true => exact this hout

/-- The complement of a row is in the table, so that the test has an answer. -/
theorem test?_selfDual : selfDual.test? f = some (holdsFor selfDual f) := by
  have hrow (row : Nat) (hrow : row < f.rows) :
      (do return (← f.value? row) != (← f.value? (f.complementRow row))) =
        some (f.output row != f.output (f.complementRow row)) := by
    rw [f.value?_of_lt hrow, f.value?_of_lt (f.complementRow_lt hrow)]
    rfl
  rw [test?, mapM_eq_some_map fun row h => hrow row (List.mem_range.mp h)]
  refine congrArg some (Bool.eq_iff_iff.mpr ?_)
  rw [holdsFor_iff_keeps, keeps_selfDual_iff]
  simp only [List.all_map, List.all_eq_true, List.mem_range, Function.comp_apply]
  refine forall₂_congr fun row _ => ?_
  cases f.output row <;> cases f.output (f.complementRow row) <;> simp

/-- All look-ups are at rows of the function. -/
theorem test?_eq (p : PostProperty) : p.test? f = some (p.holdsFor f) := by
  cases p with
  | preservesFalse =>
      rw [test?, holdsFor, f.value?_of_lt (zero_lt_rowCount _)]
      rfl
  | preservesTrue =>
      rw [test?, holdsFor, show f.value? (f.rows - 1) = _ from f.value?_of_lt (last_lt _)]
      rfl
  | monotone => exact test?_monotone
  | selfDual => exact test?_selfDual
  | affine =>
      rw [test?, polynomialInPlace?_eq, holdsFor, isAffine]
      show (match degree? (polynomial f.outputs.toArray) with
        | none => some true
        | some d => some (decide (d ≤ 1))) = _
      cases degree? (polynomial f.outputs.toArray) <;> rfl

/-- **Each test decides the definition of its property**, said of all inputs, with argument `k` of
an input as bit `k` of its row, and no row that it looks up is beyond the last. -/
theorem holdsFor_iff_isOf (p : PostProperty) (f : BooleanFunction) :
    (p.holdsFor f = true ↔ p.IsOf f.valueAt) ∧ p.test? f = some (p.holdsFor f) ∧
    ∀ row, row < f.rows → f.value? row = some (f.valueAt fun k => row.testBit k) := by
  refine ⟨(holdsFor_iff_keeps p).trans (keeps_iff_isOf p), test?_eq p, fun row hrow => ?_⟩
  rw [f.value?_of_lt hrow, BooleanFunction.output_eq_valueAt hrow]

end PostProperty

end PropBench
