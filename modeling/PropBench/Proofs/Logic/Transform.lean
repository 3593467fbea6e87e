import PropBench.Proofs.Logic.Polynomial

/-!
# Proofs — Logic — Transform

The transform from outputs to the coefficients of a polynomial, for lists of any length.

* `polynomialInPlace?`: the transform with every entry written over in its turn, so that a pass
  reads what it has written before.  It has no answer when an index is out of range.
* `polynomialInPlace?_eq`: that never happens, and the answer is `polynomial`.
* `polynomialValue`: the value of the polynomial with given coefficients.
* `polynomial_exact`: the coefficients are sums of outputs and the outputs sums of coefficients, and
  they are the only ones whose polynomial has the outputs as its values.
-/

namespace PropBench

/-! ### In place -/

/-- Adds to the entry at an index that has the bit the entry at the index without it. -/
def addInPlace? (bit : Nat) (d : Array Bool) (i : Nat) : Option (Array Bool) :=
  if i &&& bit = 0 then
    some d
  else do
    let a ← d[i]?
    let b ← d[i ^^^ bit]?
    return d.setIfInBounds i (a ^^ b)

/-- One pass, over the indices below `length` in their order. -/
def passInPlace? (length bit : Nat) (d : Array Bool) : Option (Array Bool) :=
  (List.range length).foldlM (addInPlace? bit) d

/-- The passes for the bits from number `k` on, as long as the bit is below `length`. -/
def passesInPlace? (length k : Nat) (d : Array Bool) : Option (Array Bool) :=
  if 1 <<< k < length then do
    passesInPlace? length (k + 1) (← passInPlace? length (1 <<< k) d)
  else
    some d
termination_by length - 1 <<< k
decreasing_by
  have : 1 <<< k < 1 <<< (k + 1) := by simp [Nat.shiftLeft_eq, Nat.pow_succ]
  omega

/-- The transform, in place. -/
def polynomialInPlace? (outputs : Array Bool) : Option (Array Bool) :=
  passesInPlace? outputs.size 0 outputs

theorem getD_of_lt {d : Array Bool} {i : Nat} (h : i < d.size) : d[i]? = some (d.getD i false) := by
  simp [Array.getD, h]

theorem getD_setIfInBounds {d : Array Bool} {m : Nat} (h : m < d.size) (b : Bool) (i : Nat) :
    (d.setIfInBounds m b).getD i false = if i = m then b else d.getD i false := by
  simp only [Array.getD_eq_getD_getElem?, Array.getElem?_setIfInBounds]
  by_cases hi : m = i
  · subst hi
    simp [h]
  · rw [if_neg hi, if_neg (Ne.symm hi)]

theorem and_bit_eq_zero_iff {i k : Nat} : i &&& 1 <<< k = 0 ↔ i.testBit k = false := by
  rw [Nat.one_shiftLeft, Nat.and_two_pow]
  cases i.testBit k <;> simp

/-- One entry is written over, with what the pass reads at that time. -/
theorem addInPlace?_eq_some {d : Array Bool} {m : Nat} (h : m < d.size) (k : Nat) :
    ∃ d', addInPlace? (1 <<< k) d m = some d' ∧ d'.size = d.size ∧
      ∀ i, d'.getD i false = if i = m then
          (if m.testBit k then (d.getD m false ^^ d.getD (toggle m k) false) else d.getD m false)
        else d.getD i false := by
  cases hbit : m.testBit k with
  | false =>
      refine ⟨d, by rw [addInPlace?, if_pos (and_bit_eq_zero_iff.mpr hbit)], rfl, fun i => ?_⟩
      by_cases hi : i = m
      · rw [hi, if_pos rfl, if_neg Bool.false_ne_true]
      · rw [if_neg hi]
  | true =>
      have hread : d[m ^^^ 1 <<< k]? = some (d.getD (toggle m k) false) :=
        getD_of_lt ((toggle_lt hbit).trans h)
      have hne : ¬ m &&& 1 <<< k = 0 := by
        rw [and_bit_eq_zero_iff, hbit]
        exact Bool.noConfusion
      refine ⟨d.setIfInBounds m (d.getD m false ^^ d.getD (toggle m k) false), ?_, by simp,
        getD_setIfInBounds h _⟩
      rw [addInPlace?, if_neg hne, getD_of_lt h, hread]
      rfl

/-- An index at a time: those in front of `m` hold what the pass puts there, and the others what
they held before. -/
theorem foldlM_addInPlace? (a : Array Bool) (k : Nat) {m : Nat} (hm : m ≤ a.size) :
    ∃ d, (List.range m).foldlM (addInPlace? (1 <<< k)) a = some d ∧ d.size = a.size ∧
      ∀ i, d.getD i false =
        if i < m then (addAlong a k).getD i false else a.getD i false := by
  induction m with
  | zero => exact ⟨a, rfl, rfl, fun i => (if_neg i.not_lt_zero).symm⟩
  | succ m ih =>
      obtain ⟨d, hd, hsize, hget⟩ := ih (Nat.le_of_succ_le hm)
      obtain ⟨d', hd', hsize', hget'⟩ := addInPlace?_eq_some (hsize ▸ hm : m < d.size) k
      refine ⟨d', by rw [List.range_succ, List.foldlM_append, hd]; simpa using hd',
        hsize'.trans hsize, fun i => ?_⟩
      -- The entry without the bit is in front, but the pass has not changed it.
      have hread : m.testBit k = true → d.getD (toggle m k) false = a.getD (toggle m k) false := by
        intro hbit
        have hlt : toggle m k < m := toggle_lt hbit
        rw [hget, if_pos hlt, getD_addAlong a k _ (hlt.trans hm), testBit_toggle, if_pos rfl, hbit,
          if_neg (by simp)]
      rw [hget']
      by_cases hi : i = m
      · subst hi
        rw [if_pos rfl, if_pos i.lt_succ_self, getD_addAlong a k i hm, hget, if_neg (lt_irrefl i)]
        cases hbit : i.testBit k with
        | false => rfl
        | true => rw [if_pos rfl, if_pos rfl, hread hbit]
      · have hiff : i < m + 1 ↔ i < m := by omega
        rw [if_neg hi, hget]
        simp only [hiff]

/-- A pass in place is a pass: what it reads it has not written. -/
theorem passInPlace?_eq (a : Array Bool) (k : Nat) :
    passInPlace? a.size (1 <<< k) a = some (addAlong a k) := by
  obtain ⟨d, hd, hsize, hget⟩ := foldlM_addInPlace? a k le_rfl
  rw [passInPlace?, hd]
  refine congrArg some (array_ext_getD (by simpa using hsize) fun i hi => ?_)
  rw [hget, if_pos (hsize ▸ hi)]

/-- Passes for bits that no index has change nothing. -/
theorem passes_eq_polynomial {a : Array Bool} {k : Nat} (h : a.size ≤ 1 <<< k) :
    passes k a = polynomial a := by
  refine array_ext_getD (by simp [size_polynomial]) fun i hi => ?_
  rw [size_passes] at hi
  rw [getD_passes a k i hi, getD_polynomial hi, agreeing_log2]
  rw [Nat.one_shiftLeft] at h
  exact hi.trans_le h

/-- The loop over the steps makes the passes that are left. -/
theorem passesInPlace?_eq (a : Array Bool) (k : Nat) :
    passesInPlace? a.size k (passes k a) = some (polynomial a) := by
  induction h : a.size - 1 <<< k using Nat.strong_induction_on generalizing k with
  | _ d ih =>
      rw [passesInPlace?]
      split
      · next hlt =>
          have hpass := passInPlace?_eq (passes k a) k
          rw [size_passes, ← passes_succ] at hpass
          rw [hpass]
          have hgrow : 1 <<< k < 1 <<< (k + 1) := by simp [Nat.shiftLeft_eq, Nat.pow_succ]
          exact ih _ (by omega) (k + 1) rfl
      · next hle => rw [passes_eq_polynomial (not_lt.mp hle)]

/-- **No index is out of range**, and an entry that a pass reads is as it was before the pass. -/
theorem polynomialInPlace?_eq (outputs : Array Bool) :
    polynomialInPlace? outputs = some (polynomial outputs) :=
  passesInPlace?_eq outputs 0

/-! ### The value of a polynomial -/

/-- The conjunction of the arguments in an index. -/
def conjunction (i : Nat) (x : Nat → Bool) : Bool :=
  (List.range (i.log2 + 1)).all fun k => !i.testBit k || x k

/-- The value of the polynomial with the given coefficients: the sum of the conjunctions whose
coefficient is true. -/
def polynomialValue (c : Array Bool) (x : Nat → Bool) : Bool :=
  ∑ i ∈ Finset.range c.size, (c.getD i false && conjunction i x)

/-- A conjunction is true where all of its arguments are. -/
theorem conjunction_eq_true_iff {i : Nat} {x : Nat → Bool} :
    conjunction i x = true ↔ ∀ k, i.testBit k = true → x k = true := by
  rw [conjunction, List.all_eq_true]
  refine ⟨fun h k hk => ?_, fun h k _ => ?_⟩
  · have := h k (List.mem_range.mpr (lt_of_testBit hk))
    rwa [hk, Bool.not_true, Bool.false_or] at this
  · cases hk : i.testBit k with
    | false => rfl
    | true => exact h k hk

/-- At a row the conjunctions of its subindices are true, and no others. -/
theorem polynomialValue_row {c : Array Bool} {row : Nat} (h : row < c.size) :
    polynomialValue c row.testBit = (polynomial c).getD row false := by
  have hsub : subindices row ⊆ Finset.range c.size := fun j hj =>
    Finset.mem_range.mpr ((le_of_testBit (mem_subindices.mp hj)).trans_lt h)
  rw [getD_polynomial h, polynomialValue]
  symm
  refine Finset.sum_subset_zero_on_sdiff hsub (fun i hi => ?_) fun i hi => ?_
  · have : conjunction i row.testBit = false := by
      rw [Bool.eq_false_iff, Ne, conjunction_eq_true_iff, ← mem_subindices]
      exact (Finset.mem_sdiff.mp hi).2
    rw [this, Bool.and_false]
    rfl
  · rw [conjunction_eq_true_iff.mpr (mem_subindices.mp hi), Bool.and_true]

/-- The polynomial with the given coefficients has the outputs as its values. -/
theorem polynomialValue_eq_iff {c outputs : Array Bool} (h : c.size = outputs.size) :
    (∀ row, row < outputs.size → polynomialValue c row.testBit = outputs.getD row false) ↔
      c = polynomial outputs := by
  constructor
  · intro hvalue
    have : polynomial c = outputs := array_ext_getD (by rw [size_polynomial, h]) fun row hrow => by
      rw [size_polynomial] at hrow
      rw [← polynomialValue_row hrow, hvalue row (h ▸ hrow)]
    rw [← this, polynomial_polynomial]
  · rintro rfl row hrow
    rw [polynomialValue_row (h.symm ▸ hrow), polynomial_polynomial]

/-- **The transform is correct at every length.**  In place it never leaves the list.  The
coefficient at an index is the sum of the outputs at its subindices, and the output the same sum of
the coefficients, so the transform is its own inverse.  The polynomial with these coefficients has
the outputs as its values, and no other with as many coefficients has. -/
theorem polynomial_exact (outputs : Array Bool) :
    polynomialInPlace? outputs = some (polynomial outputs) ∧
    (polynomial outputs).size = outputs.size ∧
    (∀ i, i < outputs.size →
      (polynomial outputs)[i]? = some (∑ j ∈ subindices i, outputs.getD j false) ∧
      outputs[i]? = some (∑ j ∈ subindices i, (polynomial outputs).getD j false)) ∧
    polynomial (polynomial outputs) = outputs ∧
    ∀ c : Array Bool, c.size = outputs.size →
      ((∀ row, row < outputs.size → polynomialValue c row.testBit = outputs.getD row false) ↔
        c = polynomial outputs) := by
  refine ⟨polynomialInPlace?_eq outputs, size_polynomial outputs, fun i hi => ⟨?_, ?_⟩,
    polynomial_polynomial outputs, fun c hc => polynomialValue_eq_iff hc⟩
  · rw [getD_of_lt (by rwa [size_polynomial]), getD_polynomial hi]
  · have h := getD_polynomial (a := polynomial outputs) (i := i) (by rwa [size_polynomial])
    rw [polynomial_polynomial] at h
    rw [getD_of_lt hi, h]

end PropBench
