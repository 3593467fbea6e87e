import PropBench.Proofs.Logic.BooleanFunction

/-!
# Proofs — Logic — Truth table

The inputs that a table has no entry for.

* `TruthTable.uncovered_eq`: the loop over the rows counts those without an entry, and keeps the
  first; with an otherwise entry there are none.
* `TruthTable.FirstUncovered`: the input without an entry in the least row.
* `TruthTable.uncovered_exact`: what is counted, what is kept and what the function of the table
  fails with.
-/

namespace PropBench

namespace TruthTable

variable {t : TruthTable} {n : Nat} {input : List Bool}

/-- The value of a table without the index of the entry. -/
theorem value?_eq_find? (t : TruthTable) (input : List Bool) :
    t.value? input = (t.entries.find? fun e => e.isMatch input).map Entry.value := by
  have hfind : (t.entries.find? fun e => e.isMatch input) =
      (t.entries.zipIdx.find? fun e => e.1.isMatch input).map Prod.fst := by
    conv_lhs => rw [← List.zipIdx_map_fst 0 t.entries]
    rw [List.find?_map]
    rfl
  rw [value?, firstMatch?, hfind, Option.map_map, Option.map_map]
  rfl

theorem isSome_value?_iff :
    (t.value? input).isSome = true ↔ ∃ e ∈ t.entries, e.isMatch input = true := by
  rw [value?_eq_find?, Option.isSome_map, List.find?_isSome]

theorem value?_eq_none_iff : t.value? input = none ↔ ¬ ∃ e ∈ t.entries, e.isMatch input = true := by
  rw [← isSome_value?_iff, Option.not_isSome_iff_eq_none]

/-- An otherwise entry matches every input, wherever it stands. -/
theorem isSome_value?_of_hasOtherwise (h : t.hasOtherwise = true) (input : List Bool) :
    (t.value? input).isSome = true := by
  obtain ⟨e, he, hotherwise⟩ := List.any_eq_true.mp h
  refine isSome_value?_iff.mpr ⟨e, he, ?_⟩
  cases e with
  | pattern cells b => cases hotherwise
  | otherwise b => rfl

/-! ### Rows without an entry -/

/-- No entry matches the input at a row. -/
def isUncovered (t : TruthTable) (n row : Nat) : Bool := (t.value? (inputAt n row)).isNone

/-- What the loop has found when it has visited the first `m` rows. -/
theorem fold_uncovered (t : TruthTable) (n m : Nat) :
    m.fold (fun row _ (u : Uncovered) =>
        match t.value? (inputAt n row) with
        | some _ => u
        | none => ⟨u.count + 1, u.first?.or (some (inputAt n row))⟩) ⟨0, none⟩ =
      ⟨(List.range m).countP (t.isUncovered n),
        ((List.range m).find? (t.isUncovered n)).map (inputAt n)⟩ := by
  induction m with
  | zero => rfl
  | succ m ih =>
      rw [Nat.fold_succ, ih, List.range_succ, List.countP_append, List.find?_append,
        List.countP_singleton, List.find?_singleton, isUncovered]
      cases h : t.value? (inputAt n m) with
      | some b => simp
      | none => simp

/-- **What is reported of a table**: the number of rows without an entry, and the input at the first
of them. -/
theorem uncovered_eq (t : TruthTable) (n : Nat) :
    t.uncovered n = ⟨(List.range (rowCount n)).countP (t.isUncovered n),
      ((List.range (rowCount n)).find? (t.isUncovered n)).map (inputAt n)⟩ := by
  unfold uncovered
  split
  · next h =>
      have hnone : ∀ row, t.isUncovered n row = false := fun row => by
        have hsome := isSome_value?_of_hasOtherwise h (inputAt n row)
        rw [isUncovered, ← Option.not_isSome, hsome]
        rfl
      have hcount : (List.range (rowCount n)).countP (t.isUncovered n) = 0 :=
        List.countP_eq_zero.mpr fun row _ => by simp [hnone]
      have hfind : (List.range (rowCount n)).find? (t.isUncovered n) = none :=
        List.find?_eq_none.mpr fun row _ => by simp [hnone]
      rw [hcount, hfind]
      rfl
  · exact fold_uncovered t n (rowCount n)

theorem first?_uncovered_eq_none_iff :
    (t.uncovered n).first? = none ↔ (t.uncovered n).count = 0 := by
  rw [uncovered_eq, Option.map_eq_none_iff, List.find?_eq_none, List.countP_eq_zero]

/-! ### Inputs without an entry -/

/-- Of the inputs of the arity that no entry matches, the one in the least row. -/
structure FirstUncovered (t : TruthTable) (n : Nat) (input : List Bool) : Prop where
  length : input.length = n
  uncovered : t.value? input = none
  least : ∀ other : List Bool, other.length = n → t.value? other = none →
    rowOf input ≤ rowOf other

/-- The first uncovered input is that of the least uncovered row. -/
theorem firstUncovered_iff :
    t.FirstUncovered n input ↔ ∃ row, row < rowCount n ∧ inputAt n row = input ∧
      t.value? input = none ∧ ∀ r, r < row → t.isUncovered n r = false := by
  constructor
  · rintro ⟨rfl, hnone, hleast⟩
    refine ⟨rowOf input, rowOf_lt input, inputAt_rowOf input, hnone, fun r hr => ?_⟩
    refine Bool.eq_false_iff.mpr fun huncovered => ?_
    have hle := hleast _ (length_inputAt input.length r) (Option.isNone_iff_eq_none.mp huncovered)
    rw [rowOf_inputAt (hr.trans (rowOf_lt input))] at hle
    exact absurd hr (Nat.not_lt.mpr hle)
  · rintro ⟨row, hrow, rfl, hnone, hbefore⟩
    refine ⟨length_inputAt n row, hnone, fun other hn hother => ?_⟩
    rw [rowOf_inputAt hrow]
    by_contra hlt
    have hcovered := hbefore (rowOf other) (Nat.lt_of_not_le hlt)
    rw [isUncovered, ← hn, inputAt_rowOf, hother] at hcovered
    cases hcovered

/-- The example given is the first uncovered input. -/
theorem first?_uncovered_eq_some_iff :
    (t.uncovered n).first? = some input ↔ t.FirstUncovered n input := by
  rw [uncovered_eq, Option.map_eq_some_iff, firstUncovered_iff]
  refine exists_congr fun row => ?_
  rw [List.find?_range_eq_some]
  constructor
  · rintro ⟨⟨hrow, hmem, hbefore⟩, rfl⟩
    exact ⟨List.mem_range.mp hmem, rfl, Option.isNone_iff_eq_none.mp hrow, fun r hr => by
      simpa using hbefore r hr⟩
  · rintro ⟨hrow, rfl, hnone, hbefore⟩
    exact ⟨⟨Option.isNone_iff_eq_none.mpr hnone, List.mem_range.mpr hrow, fun r hr => by
      simpa using hbefore r hr⟩, rfl⟩

/-- The inputs without an entry are those at the rows without one. -/
theorem setOf_uncovered (t : TruthTable) (n : Nat) :
    {input | input.length = n ∧ t.value? input = none} =
      inputAt n '' {row | row ∈ (List.range (rowCount n)).filter (t.isUncovered n)} := by
  ext input
  simp only [Set.mem_ofPred_eq, Set.mem_image, List.mem_filter, List.mem_range, isUncovered,
    Option.isNone_iff_eq_none]
  constructor
  · rintro ⟨rfl, hnone⟩
    exact ⟨rowOf input, ⟨rowOf_lt input, by rwa [inputAt_rowOf]⟩, inputAt_rowOf input⟩
  · rintro ⟨row, ⟨-, hnone⟩, rfl⟩
    exact ⟨length_inputAt n row, hnone⟩

/-- The number given counts the uncovered inputs. -/
theorem encard_uncovered (t : TruthTable) (n : Nat) :
    {input | input.length = n ∧ t.value? input = none}.encard = (t.uncovered n).count := by
  have hinj : Set.InjOn (inputAt n)
      {row | row ∈ (List.range (rowCount n)).filter (t.isUncovered n)} := by
    intro i hi j hj h
    have hlt : ∀ {r}, r ∈ (List.range (rowCount n)).filter (t.isUncovered n) → r < rowCount n :=
      fun hr => List.mem_range.mp (List.mem_of_mem_filter hr)
    rw [← rowOf_inputAt (hlt hi), ← rowOf_inputAt (hlt hj), h]
  have hnodup : ((List.range (rowCount n)).filter (t.isUncovered n)).Nodup :=
    List.nodup_range.filter _
  rw [setOf_uncovered, hinj.encard_image, encard_setOf_mem hnodup,
    ← List.countP_eq_length_filter, uncovered_eq]

/-! ### The function of a table -/

/-- The function of a table fails at the first uncovered input. -/
theorem function_eq_error_iff :
    t.function n = .error input ↔ t.FirstUncovered n input := by
  rw [function, BooleanFunction.ofFnM_eq_error, firstUncovered_iff]
  refine exists_congr fun row => and_congr_right fun _ => ?_
  rw [← and_assoc]
  refine and_congr ?_ (forall₂_congr fun r _ => ?_)
  · constructor
    · intro h
      split at h
      · cases h
      · next hnone => cases h; exact ⟨rfl, hnone⟩
    · rintro ⟨rfl, hnone⟩
      rw [hnone]
  · rw [isUncovered]
    cases t.value? (inputAt n r) <;> simp

/-- **Reporting agrees with matching.**  Counted are the inputs of the arity that no entry matches,
and kept is the one of them in the least row, if there is any.  The table has a function exactly
when there is none, with the value of the table as its output at every row; else that input is what
the function fails with. -/
theorem uncovered_exact (t : TruthTable) (n : Nat) :
    {input | input.length = n ∧ t.value? input = none}.encard = (t.uncovered n).count ∧
    (∀ input, (t.uncovered n).first? = some input ↔ t.FirstUncovered n input) ∧
    ((t.uncovered n).first? = none ↔ (t.uncovered n).count = 0) ∧
    ((∃ f, t.function n = .ok f) ↔ (t.uncovered n).count = 0) ∧
    (∀ f, t.function n = .ok f → f.arity = n ∧ f.outputs.toArray.size = 2 ^ n ∧
      ∀ row, row < 2 ^ n → f.value? row = t.value? (inputAt n row)) ∧
    ∀ input, t.function n = .error input ↔ t.FirstUncovered n input := by
  refine ⟨encard_uncovered t n, fun _ => first?_uncovered_eq_some_iff,
    first?_uncovered_eq_none_iff, ?_, fun f hf => ?_, fun _ => function_eq_error_iff⟩
  · rw [← first?_uncovered_eq_none_iff]
    cases hfunction : t.function n with
    | ok f =>
        refine iff_of_true ⟨f, rfl⟩ (Option.eq_none_iff_forall_ne_some.mpr fun input h => ?_)
        rw [function_eq_error_iff.mpr (first?_uncovered_eq_some_iff.mp h)] at hfunction
        cases hfunction
    | error input =>
        simp [first?_uncovered_eq_some_iff.mpr (function_eq_error_iff.mp hfunction)]
  · obtain ⟨rfl, hvalue⟩ := function_eq_ok.mp hf
    refine ⟨rfl, f.size_outputs, fun row hrow => ?_⟩
    rw [hvalue _ (length_inputAt f.arity row), rowOf_inputAt hrow, f.value?_of_lt hrow]

/-- A pattern for one argument matches no input of two. -/
example :
    uncovered ⟨[.pattern [.value true, .blank] true, .pattern [.blank] false]⟩ 2 =
      ⟨2, some [false, false]⟩ := by decide

end TruthTable

end PropBench
