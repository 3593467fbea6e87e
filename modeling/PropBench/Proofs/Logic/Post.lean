import PropBench.Logic.Post
import PropBench.Proofs.Logic.BooleanFunction
import PropBench.Proofs.Logic.Polynomial

/-!
# Proofs — Logic — Post

Each of the five properties is the keeping of a relation on truth values (`PostProperty.Relates`):
applied at related arguments, a function with the property gives related outputs
(`BooleanFunction.Keeps`).  Four places are enough for all five relations; those that need fewer
leave the rest free.

* `holdsFor_iff_keeps`: the test of a property succeeds exactly at the functions that keep its
  relation.
* `keeps_monotone_iff`, `keeps_selfDual_iff`, `keeps_affine_iff`: the relations said of single
  rows.  A function is affine when the outputs at the corners of each square of rows, two
  arguments varying, add up to false (`SquaresVanish`).
-/

namespace PropBench

theorem all_iff {n : Nat} {p : (i : Nat) → i < n → Bool} :
    n.all p = true ↔ ∀ i, ∀ h : i < n, p i h = true := by
  rw [Nat.all_eq_finRange_all, List.all_eq_true]
  exact ⟨fun h i hi => h ⟨i, hi⟩ (List.mem_finRange _), fun h i _ => h i.1 i.2⟩

/-- The relation on truth values that the functions with a property keep. -/
def PostProperty.Relates : PostProperty → (Fin 4 → Bool) → Prop
  | .preservesFalse, t => t 0 = false
  | .preservesTrue, t => t 0 = true
  | .monotone, t => t 0 = true → t 1 = true
  | .selfDual, t => t 1 = !t 0
  | .affine, t => t 3 = (t 0 ^^ t 1 ^^ t 2)

/-- Applied at each place to related arguments, the function gives related outputs. -/
def BooleanFunction.Preserves (f : BooleanFunction) (R : (Fin 4 → Bool) → Prop) : Prop :=
  ∀ r : Fin 4 → Nat, (∀ i, r i < rowCount f.arity) →
    (∀ k, k < f.arity → R fun i => (r i).testBit k) → R fun i => f.output (r i)

/-- The function keeps the relation of a property. -/
def BooleanFunction.Keeps (f : BooleanFunction) (p : PostProperty) : Prop := f.Preserves p.Relates

/-- The relation is kept at inputs given place by place. -/
theorem BooleanFunction.Preserves.output {f : BooleanFunction} {R : (Fin 4 → Bool) → Prop}
    (h : f.Preserves R) {bs : List (Fin 4 → Bool)} (hn : bs.length = f.arity)
    (hbs : ∀ b ∈ bs, R b) : R fun i => f.output (rowOf (bs.map fun b => b i)) := by
  refine h _ (fun i => ?_) fun k hk => ?_
  · rw [← hn, ← List.length_map fun b : Fin 4 → Bool => b i]
    exact rowOf_lt _
  · have hk' : k < bs.length := hn ▸ hk
    simp only [testBit_rowOf, List.getD, List.getElem?_map, List.getElem?_eq_getElem hk']
    exact hbs _ (List.getElem_mem hk')

namespace PostProperty

variable {f : BooleanFunction}

/-- The first row has all arguments false. -/
theorem keeps_preservesFalse_iff : f.Keeps .preservesFalse ↔ f.output 0 = false := by
  refine ⟨fun h => h (fun _ => 0) (fun _ => zero_lt_rowCount _) fun _ _ => Nat.zero_testBit _,
    fun h r hr hk => ?_⟩
  have : r 0 = 0 := row_ext (hr 0) (zero_lt_rowCount _) fun k hlt => by
    rw [Nat.zero_testBit]; exact hk k hlt
  simp only [Relates, this]; exact h

/-- The last row has all arguments true. -/
theorem keeps_preservesTrue_iff : f.Keeps .preservesTrue ↔ f.output (f.rows - 1) = true := by
  refine ⟨fun h => h (fun _ => f.rows - 1) (fun _ => last_lt _) fun k hk => ?_, fun h r hr hk => ?_⟩
  · exact (testBit_last _ k).trans (decide_eq_true hk)
  · have : r 0 = f.rows - 1 := row_ext (hr 0) (last_lt _) fun k hlt => by
      exact (hk k hlt).trans ((testBit_last _ k).trans (decide_eq_true hlt)).symm
    simp only [Relates, this]; exact h

/-- Arguments raised one at a time reach every row above the given one. -/
theorem output_mono_of_raise
    (h : ∀ a k, a < f.rows → k < f.arity → a.testBit k = false → f.output a = true →
      f.output (raise a k) = true) {b : Nat} (hb : b < f.rows) :
    ∀ a, (∀ k, a.testBit k = true → b.testBit k = true) → f.output a = true →
      f.output b = true := by
  intro a
  induction hd : b - a using Nat.strong_induction_on generalizing a with
  | _ d ih =>
      intro hab ha
      by_cases e : a = b
      · rwa [← e]
      obtain ⟨k, hk⟩ := Nat.exists_testBit_ne_of_ne e
      have hak : a.testBit k = false := by
        cases hak : a.testBit k with
        | false => rfl
        | true => rw [hak, hab k hak] at hk; exact absurd rfl hk
      -- Where they differ the bit is on in `b`, so it can be raised in `a`.
      have hbk : b.testBit k = true := by
        cases hbk : b.testBit k with
        | true => rfl
        | false => rw [hak, hbk] at hk; exact absurd rfl hk
      have hkn : k < f.arity := lt_arity_of_testBit hb hbk
      have hsub : ∀ l, (raise a k).testBit l = true → b.testBit l = true := fun l hl => by
        rw [testBit_raise, Bool.or_eq_true, decide_eq_true_eq] at hl
        rcases hl with hl | rfl
        · exact hab l hl
        · exact hbk
      have hlt : a < raise a k := lt_raise hak
      have hle : raise a k ≤ b := le_of_testBit hsub
      exact ih _ (by omega) _ rfl hsub (h a k ((hlt.trans_le hle).trans hb) hkn hak ha)

/-- It is enough to compare rows that differ in one argument. -/
theorem keeps_monotone_iff : f.Keeps .monotone ↔ ∀ a k, a < f.rows → k < f.arity →
    a.testBit k = false → f.output a = true → f.output (raise a k) = true := by
  constructor
  · intro h a k ha hk _
    refine h ![a, raise a k, 0, 0] ?_ fun l _ => ?_
    · intro i
      fin_cases i
      exacts [ha, raise_lt_rowCount ha hk, zero_lt_rowCount _, zero_lt_rowCount _]
    · show a.testBit l = true → (raise a k).testBit l = true
      intro hl
      rw [testBit_raise, hl]; rfl
  · intro h r hr hk
    refine output_mono_of_raise h (hr 1) (r 0) fun k hk' => ?_
    exact hk k (lt_arity_of_testBit (hr 0) hk') hk'

/-- Each row is compared with its complement. -/
theorem keeps_selfDual_iff : f.Keeps .selfDual ↔
    ∀ a, a < f.rows → f.output (f.complementRow a) = !f.output a := by
  constructor
  · intro h a ha
    refine h ![a, f.complementRow a, 0, 0] ?_ fun k hk => ?_
    · intro i
      fin_cases i
      exacts [ha, f.complementRow_lt ha, zero_lt_rowCount _, zero_lt_rowCount _]
    · show (f.complementRow a).testBit k = !a.testBit k
      rw [f.testBit_complementRow, decide_eq_true hk, Bool.xor_true]
  · intro h r hr hk
    have : r 1 = f.complementRow (r 0) :=
      row_ext (hr 1) (f.complementRow_lt (hr 0)) fun k hlt => by
        rw [f.testBit_complementRow, decide_eq_true hlt, Bool.xor_true]; exact hk k hlt
    simp only [Relates, this]; exact h _ (hr 0)

/-- The coefficients of the polynomial of a function. -/
def coefficient (f : BooleanFunction) (i : Nat) : Bool :=
  (polynomial f.outputs.toArray).getD i false

theorem coefficient_eq_sum {i : Nat} (hi : i < f.rows) :
    coefficient f i = ∑ j ∈ subindices i, f.output j :=
  getD_polynomial (f.size_outputs.symm ▸ hi)

/-- An output is the same sum of coefficients, as the transform undoes itself. -/
theorem output_eq_sum {i : Nat} (hi : i < f.rows) :
    f.output i = ∑ j ∈ subindices i, coefficient f j := by
  have h := getD_polynomial (a := polynomial f.outputs.toArray) (i := i)
    (by rwa [size_polynomial, f.size_outputs])
  rwa [polynomial_polynomial] at h

/-- The outputs at the corners of each square of rows, two arguments varying, add up to false. -/
def SquaresVanish (f : BooleanFunction) : Prop :=
  ∀ j k l, k ≠ l → k < f.arity → l < f.arity → j < f.rows → j.testBit k = false →
    j.testBit l = false → (f.output j ^^ f.output (toggle j l) ^^
      (f.output (toggle j k) ^^ f.output (toggle (toggle j l) k))) = false

/-- Three corners of a square add up to the fourth, and so do their outputs. -/
theorem squaresVanish_of_keeps (h : f.Keeps .affine) : SquaresVanish f := by
  intro j k l _ hk hl hj _ _
  have hjk := toggle_lt_rowCount hj hk
  have hjl := toggle_lt_rowCount hj hl
  have hjkl := toggle_lt_rowCount hjl hk
  -- The rows at four corners: the last has the bits that an odd number of the others have.
  have e : f.output (toggle (toggle j l) k) =
      (f.output j ^^ f.output (toggle j l) ^^ f.output (toggle j k)) := by
    refine h ![j, toggle j l, toggle j k, toggle (toggle j l) k] (fun m => ?_)
      fun m _ => ?_
    · fin_cases m
      exacts [hj, hjl, hjk, hjkl]
    · show (toggle (toggle j l) k).testBit m =
        (j.testBit m ^^ (toggle j l).testBit m ^^ (toggle j k).testBit m)
      simp only [toggle, Nat.testBit_xor]
      cases j.testBit m <;> cases (1 <<< l).testBit m <;> cases (1 <<< k).testBit m <;> rfl
  rw [e]
  generalize f.output j = x
  generalize f.output (toggle j l) = y
  generalize f.output (toggle j k) = z
  revert x y z; decide

/-- A conjunction of two arguments or more does not occur: its coefficient is a sum over squares. -/
theorem coefficient_eq_false (h : SquaresVanish f) {i k l : Nat} (hi : i < f.rows)
    (hkl : k ≠ l) (hk : i.testBit k = true) (hl : i.testBit l = true) :
    coefficient f i = false := by
  have hlt : ∀ m, i.testBit m = true → m < f.arity := fun _ => lt_arity_of_testBit hi
  have hl' : (toggle i k).testBit l = true := by rw [testBit_toggle, if_neg hkl.symm, hl]
  -- What is summed up are the squares that vary `k` and `l`.
  rw [coefficient_eq_sum hi, sum_subindices hk, sum_subindices hl']
  refine Finset.sum_eq_zero fun j hj => ?_
  have hb : ∀ m, j.testBit m = true → (toggle (toggle i k) l).testBit m = true :=
    mem_subindices.mp hj
  have hjk : j.testBit k = false := by
    by_contra hm
    have := hb k (Bool.eq_true_of_not_eq_false hm)
    rw [testBit_toggle, if_neg hkl, testBit_toggle, if_pos rfl, hk] at this; cases this
  have hjl : j.testBit l = false := by
    by_contra hm
    have := hb l (Bool.eq_true_of_not_eq_false hm)
    rw [testBit_toggle, if_pos rfl, hl'] at this; cases this
  have hji : j < f.rows :=
    (le_of_testBit hb).trans_lt (((toggle_lt hl').trans (toggle_lt hk)).trans hi)
  exact (add_add_add_comm _ _ _ _).trans (h j k l hkl (hlt k hk) (hlt l hl) hji hjk hjl)

/-- Where no conjunction has two arguments, the output is a sum of arguments and a constant. -/
theorem output_eq_affine (h : ∀ i, coefficient f i = true → weight i ≤ 1) {row : Nat}
    (hr : row < f.rows) :
    f.output row =
      coefficient f 0 + ∑ k ∈ Finset.range f.arity, (row.testBit k && coefficient f (2 ^ k)) := by
  have hsub : insert 0 (((Finset.range f.arity).filter fun k => row.testBit k = true).image (2 ^ ·))
      ⊆ subindices row := by
    intro j hj
    rw [Finset.mem_insert, Finset.mem_image] at hj
    rcases hj with rfl | ⟨k, hk, rfl⟩
    · exact mem_subindices.mpr fun _ h => by rw [Nat.zero_testBit] at h; cases h
    · refine mem_subindices.mpr fun m hm => ?_
      rw [Nat.testBit_two_pow, decide_eq_true_eq] at hm
      exact hm ▸ (Finset.mem_filter.mp hk).2
  -- The subindices left out have two bits on, so their coefficients are false.
  rw [output_eq_sum hr, ← Finset.sum_subset hsub, Finset.sum_insert, Finset.sum_image,
    Finset.sum_filter]
  · refine congrArg _ (Finset.sum_congr rfl fun k _ => ?_)
    cases row.testBit k <;> rfl
  · exact fun a _ b _ hab => Nat.pow_right_injective le_rfl hab
  · intro h0
    obtain ⟨k, -, hk⟩ := Finset.mem_image.mp h0
    exact (Nat.two_pow_pos k).ne' hk
  · intro j hj hne
    by_contra hc
    have hw : ¬ 2 ≤ weight j :=
      not_le.mpr (Nat.lt_succ_of_le (h j (Bool.eq_true_of_not_eq_false hc)))
    rw [Finset.mem_insert, not_or] at hne
    obtain ⟨k, hk⟩ := Nat.exists_testBit_of_ne_zero hne.1
    refine hne.2 (Finset.mem_image.mpr ⟨k, Finset.mem_filter.mpr ⟨Finset.mem_range.mpr ?_, ?_⟩, ?_⟩)
    · exact lt_arity_of_testBit hr (mem_subindices.mp hj k hk)
    · exact mem_subindices.mp hj k hk
    · refine Nat.eq_of_testBit_eq fun l => ?_
      rw [Nat.testBit_two_pow]
      by_cases e : k = l
      · rw [decide_eq_true e, ← e, hk]
      · cases hl : j.testBit l with
        | false => exact decide_eq_false e
        | true => exact absurd (two_le_weight.mpr ⟨k, l, e, hk, hl⟩) hw

/-- Where the squares vanish, no conjunction has two arguments. -/
theorem weight_le_of_squaresVanish (h : SquaresVanish f) {i : Nat}
    (hc : coefficient f i = true) : weight i ≤ 1 := by
  by_contra hw
  obtain ⟨k, l, hkl, hk, hl⟩ := two_le_weight.mp (Nat.succ_le_of_lt (not_le.mp hw))
  have hi : i < f.rows := by
    by_contra hle
    have : ¬ i < (polynomial f.outputs.toArray).size := by rwa [size_polynomial, f.size_outputs]
    simp [coefficient, Array.getD, this] at hc
  rw [coefficient_eq_false h hi hkl hk hl] at hc; cases hc

/-- A sum of arguments and a constant keeps sums of three. -/
theorem keeps_affine_of_weight (h : ∀ i, coefficient f i = true → weight i ≤ 1) :
    f.Keeps .affine := by
  intro r hr hk
  show f.output (r 3) = (f.output (r 0) ^^ f.output (r 1) ^^ f.output (r 2))
  have hlin : ∀ k ∈ Finset.range f.arity, ((r 3).testBit k && coefficient f (2 ^ k)) =
      ((r 0).testBit k && coefficient f (2 ^ k)) + ((r 1).testBit k && coefficient f (2 ^ k)) +
        ((r 2).testBit k && coefficient f (2 ^ k)) := fun k hlt => by
    have e : (r 3).testBit k = ((r 0).testBit k ^^ (r 1).testBit k ^^ (r 2).testBit k) :=
      hk k (Finset.mem_range.mp hlt)
    rw [e, Bool.and_xor_distrib_right, Bool.and_xor_distrib_right]; rfl
  rw [output_eq_affine h (hr 0), output_eq_affine h (hr 1), output_eq_affine h (hr 2),
    output_eq_affine h (hr 3), Finset.sum_congr rfl hlin, Finset.sum_add_distrib,
    Finset.sum_add_distrib]
  generalize coefficient f 0 = c
  generalize ∑ k ∈ Finset.range f.arity, ((r 0).testBit k && coefficient f (2 ^ k)) = s₀
  generalize ∑ k ∈ Finset.range f.arity, ((r 1).testBit k && coefficient f (2 ^ k)) = s₁
  generalize ∑ k ∈ Finset.range f.arity, ((r 2).testBit k && coefficient f (2 ^ k)) = s₂
  revert c s₀ s₁ s₂; decide

/-- Affine functions are told by the squares of rows. -/
theorem keeps_affine_iff : f.Keeps .affine ↔ SquaresVanish f :=
  ⟨squaresVanish_of_keeps, fun h => keeps_affine_of_weight fun _ => weight_le_of_squaresVanish h⟩

/-- Affine functions are told by the degree of their polynomial. -/
theorem keeps_affine_iff_weight : f.Keeps .affine ↔ ∀ i, coefficient f i = true → weight i ≤ 1 :=
  ⟨fun h _ => weight_le_of_squaresVanish (squaresVanish_of_keeps h), keeps_affine_of_weight⟩

/-- **The tests.**  A test succeeds exactly at the functions that keep the relation. -/
theorem holdsFor_iff_keeps (p : PostProperty) : p.holdsFor f = true ↔ f.Keeps p := by
  cases p with
  | preservesFalse =>
      rw [keeps_preservesFalse_iff, holdsFor, f.value?_of_lt (zero_lt_rowCount _)]
      simp
  | preservesTrue =>
      have hv : f.value? (f.rows - 1) = some (f.output (f.rows - 1)) := f.value?_of_lt (last_lt _)
      rw [keeps_preservesTrue_iff, holdsFor, hv]
      simp
  | monotone =>
      rw [keeps_monotone_iff, holdsFor, isMonotone, all_iff]
      have hv : ∀ a k, a < f.rows → k < f.arity →
          f.value? (a ||| (1 <<< k)) = some (f.output (raise a k)) :=
        fun a k ha hk => f.value?_of_lt (raise_lt_rowCount ha hk)
      refine forall_congr' fun a => ⟨fun h k ha hk hak hf => ?_, fun h ha => ?_⟩
      · have := all_iff.mp (h ha) k hk
        rw [hak, f.value?_of_lt ha, hf, hv a k ha hk] at this
        simpa using this
      · refine all_iff.mpr fun k hk => ?_
        rw [f.value?_of_lt ha, hv a k ha hk]
        -- A bit that is on already leaves the test nothing to compare.
        cases hak : a.testBit k with
        | true => rfl
        | false =>
            cases hf : f.output a with
            | false => rfl
            | true => rw [h k ha hk hak hf]; rfl
  | selfDual =>
      rw [keeps_selfDual_iff, holdsFor, isSelfDual, all_iff]
      refine forall_congr' fun a => forall_congr' fun ha => ?_
      rw [f.value?_of_lt ha, f.value?_of_lt (f.complementRow_lt ha)]
      cases f.output a <;> cases f.output (f.complementRow a) <;> simp
  | affine =>
      refine Iff.trans ?_ (degree?_le_iff.trans keeps_affine_iff_weight.symm)
      rw [holdsFor, isAffine]
      cases degree? (polynomial f.outputs.toArray) <;> simp

end PostProperty

/-! ### Profiles -/

theorem PostProperty.mem_all (p : PostProperty) : p ∈ PostProperty.all := by cases p <;> decide

theorem PostProfile.holds_of (f : BooleanFunction) (p : PostProperty) :
    (PostProfile.of f).holds p = p.holdsFor f := by
  cases p <;> rfl

/-- A property is retained if every profile has it. -/
theorem mem_retained {p : PostProperty} {profiles : List PostProfile} :
    p ∈ retained profiles ↔ ∀ profile ∈ profiles, profile.holds p = true := by
  rw [retained, List.mem_filter, List.all_eq_true]
  exact ⟨fun h => h.2, fun h => ⟨p.mem_all, h⟩⟩

end PropBench
