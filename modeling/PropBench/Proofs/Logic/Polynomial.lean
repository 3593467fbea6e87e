import PropBench.Logic.Polynomial
import PropBench.Proofs.Logic.Row

/-!
# Proofs — Logic — Polynomial

What the polynomial of a list of outputs is.  Truth values are added by exclusive or, so a sum over
a finite set of indices is the exclusive or of its terms.

* `getD_polynomial`: the coefficient at `i` is the sum of the outputs at the subindices of `i`, the
  numbers whose set bits are among those of `i`.
* `polynomial_polynomial`: the transform undoes itself, so the outputs are the same sums of the
  coefficients.
* `degree?_le_iff`: the degree bounds the number of arguments of each conjunction.

Both follow from one pass (`addAlong`) after another: the passes below `m` add up the subindices
that agree with `i` from bit `m` on (`agreeing`).
-/

namespace PropBench

/-! ### Subindices -/

/-- The numbers whose set bits are among those of `i`. -/
def subindices (i : Nat) : Finset Nat := (Finset.range (i + 1)).filter fun j => j &&& i = j

/-- A subindex has no bit that the index has not. -/
theorem mem_subindices {i j : Nat} :
    j ∈ subindices i ↔ ∀ k, j.testBit k = true → i.testBit k = true := by
  simp only [subindices, Finset.mem_filter, Finset.mem_range]
  refine ⟨fun h k hk => ?_, fun h => ?_⟩
  · rw [← h.2, Nat.testBit_and, Bool.and_eq_true] at hk
    exact hk.2
  · have hj : j &&& i = j := Nat.eq_of_testBit_eq fun k => by
      rw [Nat.testBit_and]
      cases hk : j.testBit k with
      | false => rfl
      | true => simp [h k hk]
    exact ⟨Nat.lt_succ_of_le (hj ▸ Nat.and_le_right), hj⟩

theorem le_of_testBit {i j : Nat} (h : ∀ k, j.testBit k = true → i.testBit k = true) : j ≤ i :=
  Nat.le_of_lt_succ (Finset.mem_range.mp (Finset.mem_filter.mp (mem_subindices.mpr h)).1)

/-- The members of `subindices i` that agree with `i` from bit `m` on. -/
def agreeing (m i : Nat) : Finset Nat := (subindices i).filter fun j => j >>> m = i >>> m

/-- From bit `m` on a subindex may have to agree with the index. -/
theorem mem_agreeing {m i j : Nat} :
    j ∈ agreeing m i ↔ j ∈ subindices i ∧ ∀ k, m ≤ k → j.testBit k = i.testBit k := by
  rw [agreeing, Finset.mem_filter]
  refine and_congr_right fun _ => ⟨fun h k hk => ?_, fun h => Nat.eq_of_testBit_eq fun k => ?_⟩
  · have := congrArg (Nat.testBit · (k - m)) h
    simpa [Nat.testBit_shiftRight, Nat.add_sub_cancel' hk] using this
  · rw [Nat.testBit_shiftRight, Nat.testBit_shiftRight]
    exact h _ (Nat.le_add_right m k)

/-- What agrees with the index in all bits is the index. -/
theorem agreeing_zero (i : Nat) : agreeing 0 i = {i} := by
  ext j
  rw [mem_agreeing, Finset.mem_singleton]
  refine ⟨fun h => Nat.eq_of_testBit_eq fun k => h.2 k k.zero_le, ?_⟩
  rintro rfl
  exact ⟨mem_subindices.mpr fun _ h => h, fun _ _ => rfl⟩

/-- No bit of the index is so high that agreement beyond it asks for anything. -/
theorem agreeing_log2 (i m : Nat) (h : i < 2 ^ m) : agreeing m i = subindices i := by
  ext j
  rw [mem_agreeing]
  refine ⟨fun h => h.1, fun hj => ⟨hj, fun k hk => ?_⟩⟩
  have hi : i.testBit k = false :=
    Nat.testBit_lt_two_pow (Nat.lt_of_lt_of_le h (Nat.pow_le_pow_right Nat.two_pos hk))
  cases hjk : j.testBit k with
  | false => exact hi.symm
  | true => exact (mem_subindices.mp hj k hjk).symm

/-- A bit that is not set leaves the subindices no choice. -/
theorem agreeing_succ_of_not {m i : Nat} (h : i.testBit m = false) :
    agreeing (m + 1) i = agreeing m i := by
  ext j
  rw [mem_agreeing, mem_agreeing]
  refine and_congr_right fun hj => ⟨fun hk k hm => ?_, fun hk k hm => hk k (by omega)⟩
  by_cases e : k = m
  · subst e
    cases hjk : j.testBit k with
    | false => exact h.symm
    | true => exact (mem_subindices.mp hj k hjk).symm
  · exact hk k (by omega)

/-- A bit that is set doubles the subindices: it may be kept or dropped. -/
theorem agreeing_succ {m i : Nat} (h : i.testBit m = true) :
    agreeing (m + 1) i = (agreeing m i).disjUnion (agreeing m (toggle i m))
      (Finset.disjoint_left.mpr fun j h₁ h₂ => by
        have e₁ := (mem_agreeing.mp h₁).2 m le_rfl
        have e₂ := (mem_agreeing.mp h₂).2 m le_rfl
        rw [testBit_toggle, if_pos rfl, e₁, h] at e₂; cases e₂) := by
  ext j
  simp only [Finset.mem_disjUnion, mem_agreeing, mem_subindices, testBit_toggle]
  grind

/-- A sum over subindices, split by a bit. -/
theorem sum_subindices {i k : Nat} (h : i.testBit k = true) (g : Nat → Bool) :
    ∑ j ∈ subindices i, g j = ∑ j ∈ subindices (toggle i k), (g j + g (toggle j k)) := by
  -- The subindices with the bit on are those without it, with the bit switched on.
  have hd : Disjoint (subindices (toggle i k))
      ((subindices (toggle i k)).image (toggle · k)) := by
    refine Finset.disjoint_left.mpr fun j hj hj' => ?_
    obtain ⟨l, hl, rfl⟩ := Finset.mem_image.mp hj'
    have h₁ := mem_subindices.mp hj k
    have h₂ := mem_subindices.mp hl k
    simp only [testBit_toggle, if_pos, h] at h₁ h₂
    cases hb : l.testBit k <;> simp_all
  have hu : subindices i = subindices (toggle i k) ∪
      (subindices (toggle i k)).image (toggle · k) := by
    ext j
    simp only [Finset.mem_union, Finset.mem_image, mem_subindices, testBit_toggle]
    constructor
    · intro hj
      cases hb : j.testBit k with
      | false => exact .inl fun l hl => by by_cases e : l = k <;> simp_all
      | true =>
          refine .inr ⟨toggle j k, fun l hl => ?_, toggle_toggle j k⟩
          rw [testBit_toggle] at hl
          by_cases e : l = k <;> simp_all
    · rintro (hj | ⟨j, hj, rfl⟩) l hl
      · have := hj l hl
        by_cases e : l = k <;> simp_all
      · rw [testBit_toggle] at hl
        by_cases e : l = k <;> simp_all
  rw [hu, Finset.sum_union hd, Finset.sum_image fun _ _ _ _ e => toggle_injective k e,
    Finset.sum_add_distrib]

/-- A pass adds to each coefficient with the bit set the one without. -/
theorem getD_addAlong (a : Array Bool) (k i : Nat) (hi : i < a.size) :
    (addAlong a k).getD i false =
      if i.testBit k then (a.getD i false ^^ a.getD (toggle i k) false) else a.getD i false := by
  simp [addAlong, Array.getD, hi, toggle]

@[simp] theorem size_addAlong (a : Array Bool) (k : Nat) : (addAlong a k).size = a.size := by
  simp [addAlong]

/-- The passes for the bits below `m`. -/
def passes (m : Nat) (a : Array Bool) : Array Bool := (List.range m).foldl addAlong a

theorem passes_succ (m : Nat) (a : Array Bool) : passes (m + 1) a = addAlong (passes m a) m := by
  simp [passes, List.range_succ]

@[simp] theorem size_passes (m : Nat) (a : Array Bool) : (passes m a).size = a.size := by
  induction m with
  | zero => rfl
  | succ m ih => rw [passes_succ, size_addAlong, ih]

/-- The passes below `m` add up the subindices that agree with the index from `m` on. -/
theorem getD_passes (a : Array Bool) (m : Nat) :
    ∀ i, i < a.size → (passes m a).getD i false = ∑ j ∈ agreeing m i, a.getD j false := by
  induction m with
  | zero => intro i _; rw [agreeing_zero, Finset.sum_singleton]; rfl
  | succ m ih =>
      intro i hi
      rw [passes_succ, getD_addAlong _ _ _ (by simpa using hi)]
      cases h : i.testBit m with
      | false => rw [if_neg Bool.false_ne_true, ih i hi, agreeing_succ_of_not h]
      | true =>
          rw [if_pos rfl, ih i hi, ih _ ((toggle_lt h).trans hi), agreeing_succ h,
            Finset.sum_disjUnion]
          rfl

theorem size_polynomial (a : Array Bool) : (polynomial a).size = a.size := size_passes _ a

/-- A coefficient is the sum of the outputs at its subindices. -/
theorem getD_polynomial {a : Array Bool} {i : Nat} (hi : i < a.size) :
    (polynomial a).getD i false = ∑ j ∈ subindices i, a.getD j false := by
  have h : i < 2 ^ (a.size.log2 + 1) := hi.trans Nat.lt_log2_self
  rw [← agreeing_log2 _ _ h]
  exact getD_passes a _ i hi

/-! ### The transform undoes itself -/

theorem array_ext_getD {a b : Array Bool} (hs : a.size = b.size)
    (h : ∀ i, i < a.size → a.getD i false = b.getD i false) : a = b :=
  Array.ext hs fun i h₁ h₂ => by simpa [Array.getD, h₁, h₂] using h i h₁

/-- A pass undoes itself. -/
theorem addAlong_addAlong (a : Array Bool) (k : Nat) : addAlong (addAlong a k) k = a := by
  refine array_ext_getD (by simp) fun i hi => ?_
  simp only [size_addAlong] at hi
  rw [getD_addAlong _ _ _ (by simpa using hi), getD_addAlong a k i hi]
  cases h : i.testBit k with
  | false => rfl
  | true =>
      rw [if_pos rfl, if_pos rfl, getD_addAlong a k _ ((toggle_lt h).trans hi), testBit_toggle,
        if_pos rfl, h, if_neg (by simp), Bool.xor_assoc, Bool.xor_self, Bool.xor_false]

/-- Passes along two bits may be swapped. -/
theorem addAlong_comm (a : Array Bool) (k l : Nat) :
    addAlong (addAlong a k) l = addAlong (addAlong a l) k := by
  by_cases hkl : k = l
  · rw [hkl]
  refine array_ext_getD (by simp) fun i hi => ?_
  simp only [size_addAlong] at hi
  have hlt : ∀ m, i.testBit m = true → toggle i m < a.size := fun m h => (toggle_lt h).trans hi
  rw [getD_addAlong (addAlong a k) l i (by simpa using hi),
    getD_addAlong (addAlong a l) k i (by simpa using hi), getD_addAlong a k i hi,
    getD_addAlong a l i hi]
  have hl' : (toggle i k).testBit l = i.testBit l := by rw [testBit_toggle, if_neg (Ne.symm hkl)]
  have hk' : (toggle i l).testBit k = i.testBit k := by rw [testBit_toggle, if_neg hkl]
  cases hk : i.testBit k <;> cases hl : i.testBit l
  · rfl
  · rw [getD_addAlong a k _ (hlt l hl), hk', hk]; rfl
  · rw [getD_addAlong a l _ (hlt k hk), hl', hl]; rfl
  · rw [getD_addAlong a l _ (hlt k hk), getD_addAlong a k _ (hlt l hl), hl', hk', hk, hl,
      toggle_comm]
    simp only [if_pos]
    rw [Bool.xor_assoc, Bool.xor_assoc, Bool.xor_left_comm (a.getD (toggle i k) false)]

/-- A pass may be made before the others or after them. -/
theorem passes_addAlong (m k : Nat) (a : Array Bool) :
    passes m (addAlong a k) = addAlong (passes m a) k := by
  induction m with
  | zero => rfl
  | succ m ih => rw [passes_succ, passes_succ, ih, addAlong_comm]

/-- The passes undo themselves, one by one. -/
theorem passes_passes (m : Nat) (a : Array Bool) : passes m (passes m a) = a := by
  induction m with
  | zero => rfl
  | succ m ih =>
      rw [passes_succ m a, passes_succ, passes_addAlong, addAlong_addAlong, ih]

/-- The transform undoes itself. -/
theorem polynomial_polynomial (a : Array Bool) : polynomial (polynomial a) = a := by
  show passes ((polynomial a).size.log2 + 1) (polynomial a) = a
  rw [size_polynomial]
  exact passes_passes _ a

/-! ### Degree -/

/-- The bits of an index are below its logarithm, or at it. -/
theorem lt_of_testBit {i k : Nat} (h : i.testBit k = true) : k < i.log2 + 1 :=
  Nat.lt_succ_of_le ((Nat.le_log2 fun h0 => by simp [h0] at h).mpr (Nat.ge_two_pow_of_testBit h))

/-- A weight of two or more shows in two bits that are set. -/
theorem two_le_weight {i : Nat} :
    2 ≤ weight i ↔ ∃ k l, k ≠ l ∧ i.testBit k = true ∧ i.testBit l = true := by
  have hmem : ∀ k,
      k ∈ (List.range (i.log2 + 1)).filter i.testBit ↔ i.testBit k = true := fun k => by
    rw [List.mem_filter, List.mem_range]
    exact ⟨fun h => h.2, fun h => ⟨lt_of_testBit h, h⟩⟩
  have hc : weight i = ((List.range (i.log2 + 1)).filter i.testBit).toFinset.card :=
    (List.toFinset_card_of_nodup (List.nodup_range.filter _)).symm
  rw [hc, Nat.succ_le_iff, Finset.one_lt_card]
  simp only [List.mem_toFinset, hmem]
  constructor
  · rintro ⟨k, hk, l, hl, hkl⟩; exact ⟨k, l, hkl, hk, hl⟩
  · rintro ⟨k, l, hkl, hk, hl⟩; exact ⟨k, hk, l, hl, hkl⟩

/-- A polynomial has no conjunction of more than `d` arguments. -/
theorem degree?_le_iff {c : Array Bool} {d : Nat} :
    (∀ n, degree? c = some n → n ≤ d) ↔
      ∀ i, c.getD i false = true → weight i ≤ d := by
  have hlt : ∀ i, c.getD i false = true → i < c.size := fun i hi => by
    by_contra hle
    simp [Array.getD, hle] at hi
  constructor
  · intro h i hi
    cases hd : degree? c with
    | none =>
        simp only [degree?, List.max?_eq_none_iff, List.map_eq_nil_iff, List.filter_eq_nil_iff,
          List.mem_range] at hd
        exact absurd hi (hd i (hlt i hi))
    | some n =>
        exact (List.max?_le_iff hd).mp (h n hd) _
          (List.mem_map.mpr ⟨i, List.mem_filter.mpr ⟨List.mem_range.mpr (hlt i hi), hi⟩, rfl⟩)
  · intro h n hn
    have := List.max?_mem hn
    obtain ⟨i, hi, rfl⟩ := List.mem_map.mp this
    exact h i (List.mem_filter.mp hi).2

end PropBench
