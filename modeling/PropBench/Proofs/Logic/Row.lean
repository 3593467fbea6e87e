import Mathlib
import PropBench.Logic.BooleanFunction

/-!
# Proofs — Logic — Row

Rows as sets of arguments: argument `k` is true at a row when bit `k` is set.  A row of arity `n`
is determined by its bits below `n` (`row_ext`), and a number without bits from `n` on is such a
row (`row_lt`).

* `toggle` turns one argument; `raise` makes one true.
* `testBit_rowOf`: the bits of the row of an input are the input.
-/

namespace PropBench

/-- A row with argument `k` turned. -/
def toggle (i k : Nat) : Nat := i ^^^ (1 <<< k)

/-- A row with argument `k` made true. -/
def raise (i k : Nat) : Nat := i ||| (1 <<< k)

@[simp] theorem testBit_toggle (i k l : Nat) :
    (toggle i k).testBit l = if l = k then !i.testBit k else i.testBit l := by
  rw [toggle, Nat.testBit_xor, Nat.one_shiftLeft, Nat.testBit_two_pow]
  by_cases h : k = l
  · subst h; simp
  · simp [h, Ne.symm h]

@[simp] theorem testBit_raise (i k l : Nat) :
    (raise i k).testBit l = (i.testBit l || decide (l = k)) := by
  rw [raise, Nat.testBit_or, Nat.one_shiftLeft, Nat.testBit_two_pow]
  simp only [eq_comm]

theorem toggle_lt {i k : Nat} (h : i.testBit k = true) : toggle i k < i := by
  refine Nat.lt_of_testBit k ?_ h fun l hl => ?_
  · simp [h]
  · simp [Nat.ne_of_gt hl]

theorem lt_raise {i k : Nat} (h : i.testBit k = false) : i < raise i k := by
  refine Nat.lt_of_testBit k h ?_ fun l hl => ?_
  · simp
  · simp [Nat.ne_of_gt hl]

@[simp] theorem toggle_toggle (i k : Nat) : toggle (toggle i k) k = i := by
  rw [toggle, toggle, Nat.xor_assoc, Nat.xor_self, Nat.xor_zero]

theorem toggle_comm (i k l : Nat) : toggle (toggle i k) l = toggle (toggle i l) k := by
  simp only [toggle]
  rw [Nat.xor_assoc, Nat.xor_comm (1 <<< k), ← Nat.xor_assoc]

theorem toggle_injective (k : Nat) : Function.Injective fun i : Nat => toggle i k :=
  fun i j h => by rw [← toggle_toggle i k, ← toggle_toggle j k]; exact congrArg (toggle · k) h

/-! ### The rows of an arity -/

theorem testBit_eq_false_of_lt {n i k : Nat} (h : i < rowCount n) (hk : n ≤ k) :
    i.testBit k = false :=
  Nat.testBit_lt_two_pow (Nat.lt_of_lt_of_le h (Nat.pow_le_pow_right Nat.two_pos hk))

theorem lt_arity_of_testBit {n i k : Nat} (h : i < rowCount n) (hk : i.testBit k = true) :
    k < n := by
  by_contra hle
  rw [testBit_eq_false_of_lt h (not_lt.mp hle)] at hk; cases hk

theorem row_lt {n i : Nat} (h : ∀ k, n ≤ k → i.testBit k = false) : i < rowCount n := by
  by_contra hle
  obtain ⟨k, hk, hb⟩ := Nat.exists_ge_and_testBit_of_ge_two_pow (not_lt.mp hle)
  rw [h k hk] at hb; cases hb

/-- Rows with the same arguments are the same. -/
theorem row_ext {n i j : Nat} (hi : i < rowCount n) (hj : j < rowCount n)
    (h : ∀ k, k < n → i.testBit k = j.testBit k) : i = j :=
  Nat.eq_of_testBit_eq fun k => by
    by_cases hk : k < n
    · exact h k hk
    · rw [testBit_eq_false_of_lt hi (not_lt.mp hk), testBit_eq_false_of_lt hj (not_lt.mp hk)]

theorem zero_lt_rowCount (n : Nat) : 0 < rowCount n := Nat.two_pow_pos n

theorem last_lt (n : Nat) : rowCount n - 1 < rowCount n :=
  Nat.sub_lt (zero_lt_rowCount n) Nat.one_pos

theorem testBit_last (n k : Nat) : (rowCount n - 1).testBit k = decide (k < n) :=
  Nat.testBit_two_pow_sub_one n k

theorem toggle_lt_rowCount {n i k : Nat} (hi : i < rowCount n) (hk : k < n) :
    toggle i k < rowCount n :=
  row_lt fun l hl => by
    rw [testBit_toggle, if_neg (by omega)]
    exact testBit_eq_false_of_lt hi hl

theorem raise_lt_rowCount {n i k : Nat} (hi : i < rowCount n) (hk : k < n) :
    raise i k < rowCount n :=
  row_lt fun l hl => by
    rw [testBit_raise, testBit_eq_false_of_lt hi hl, decide_eq_false (by omega)]; rfl

/-! ### The row of an input -/

/-- The bits of a row are the values of the input. -/
theorem testBit_rowOf (input : List Bool) (k : Nat) :
    (rowOf input).testBit k = input.getD k false := by
  induction input generalizing k with
  | nil => simp [rowOf]
  | cons b bs ih =>
      cases k with
      | zero => rw [rowOf, Nat.testBit_zero]; cases b <;> simp
      | succ k =>
          have hr : (b.toNat + 2 * rowOf bs) / 2 = rowOf bs := by
            have := b.toNat_lt
            omega
          rw [rowOf, Nat.testBit_succ, hr, ih]; rfl

theorem getD_inputAt {n row k : Nat} (hk : k < n) :
    (inputAt n row).getD k false = row.testBit k := by
  simp [inputAt, List.getD, hk]

theorem rowOf_eq {input : List Bool} {n i : Nat} (hn : input.length = n) (hi : i < rowCount n)
    (h : ∀ k, k < n → input.getD k false = i.testBit k) : rowOf input = i :=
  row_ext (hn ▸ rowOf_lt input) hi fun k hk => (testBit_rowOf input k).trans (h k hk)

/-- The row of an input is the one with the input for its bits. -/
theorem rowOf_eq_iff {input : List Bool} {i : Nat} :
    rowOf input = i ↔
      i < rowCount input.length ∧ ∀ k, (h : k < input.length) → i.testBit k = input[k] := by
  constructor
  · rintro rfl
    refine ⟨rowOf_lt input, fun k hk => ?_⟩
    rw [testBit_rowOf, List.getD_eq_getElem _ _ hk]
  · rintro ⟨hi, hbits⟩
    refine rowOf_eq rfl hi fun k hk => ?_
    rw [hbits k hk, List.getD_eq_getElem _ _ hk]

end PropBench
