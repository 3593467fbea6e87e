import PropBench.Logic.TruthTable
import PropBench.Proofs.Except
import PropBench.Proofs.Logic.Row

/-!
# Proofs — Logic — BooleanFunction

The outputs of a function, and functions that are found value by value.

* `BooleanFunction.ofFnM_eq_ok`: filling the outputs succeeds exactly when each value does;
  `BooleanFunction.ofFnM_eq_error`: it fails at the first row whose value does.
* `TruthTable.function_eq_ok`: a table has the function `f` when it has, at each input of the
  arity, an entry with the output of `f`.
-/

namespace PropBench

namespace BooleanFunction

/-- The output at a row. -/
def output (f : BooleanFunction) (row : Nat) : Bool := f.outputs.toArray.getD row false

theorem size_outputs (f : BooleanFunction) : f.outputs.toArray.size = f.rows :=
  f.outputs.size_toArray

theorem value?_of_lt (f : BooleanFunction) {row : Nat} (h : row < rowCount f.arity) :
    f.value? row = some (f.output row) := by
  simp [value?, output, Array.getD, h]

theorem outputs_get (f : BooleanFunction) (row : Fin (rowCount f.arity)) :
    f.outputs[row] = f.output row := by
  simp [output, Array.getD]

/-- The complement of a row flips the bits of the arguments, and no others. -/
theorem testBit_complementRow (f : BooleanFunction) (row k : Nat) :
    (f.complementRow row).testBit k = (row.testBit k ^^ decide (k < f.arity)) := by
  rw [complementRow, rows, Nat.testBit_xor, testBit_last]

theorem complementRow_lt (f : BooleanFunction) {row : Nat} (h : row < rowCount f.arity) :
    f.complementRow row < rowCount f.arity :=
  row_lt fun k hk => by
    rw [testBit_complementRow, testBit_eq_false_of_lt h hk, decide_eq_false (not_lt.mpr hk)]; rfl

/-! ### Functions found value by value -/

variable {ε : Type} {n : Nat} {f : BooleanFunction} {g : List Bool → Except ε Bool}

/-- A function made row by row has at each row what was made for its input. -/
theorem ofFnM_eq_ok_rows :
    ofFnM n g = .ok f ↔
      f.arity = n ∧ ∀ row, row < rowCount n → g (inputAt n row) = .ok (f.output row) := by
  rw [ofFnM, Except.bind_eq_ok]
  constructor
  · rintro ⟨v, hv, h⟩
    cases h
    refine ⟨rfl, fun row hrow => ?_⟩
    rw [← outputs_get _ ⟨row, hrow⟩]
    exact Except.ofFnM_eq_ok.mp hv ⟨row, hrow⟩
  · rintro ⟨rfl, h⟩
    refine ⟨f.outputs, Except.ofFnM_eq_ok.mpr fun row => ?_, rfl⟩
    rw [outputs_get]; exact h row row.isLt

/-- A function made row by row has at each input what was made for it. -/
theorem ofFnM_eq_ok :
    ofFnM n g = .ok f ↔
      f.arity = n ∧ ∀ input, input.length = n → g input = .ok (f.output (rowOf input)) := by
  rw [ofFnM_eq_ok_rows]
  refine and_congr_right fun _ => ⟨fun h input hn => ?_, fun h row hrow => ?_⟩
  · have hg := h (rowOf input) (hn ▸ rowOf_lt input)
    rwa [← hn, inputAt_rowOf] at hg
  · rw [h _ (length_inputAt n row), rowOf_inputAt hrow]

/-- Filling the outputs succeeds when each value is found. -/
theorem exists_ofFnM (h : ∀ input, input.length = n → ∃ b, g input = .ok b) :
    ∃ f, ofFnM n g = .ok f := by
  obtain ⟨v, hv⟩ := Except.exists_ofFnM_eq_ok.mpr fun row : Fin (rowCount n) =>
    h (inputAt n row) (length_inputAt n row)
  exact ⟨_, Except.bind_eq_ok.mpr ⟨v, hv, rfl⟩⟩

/-- Filling the outputs fails at the first row whose value is not found. -/
theorem ofFnM_eq_error {e : ε} :
    ofFnM n g = .error e ↔ ∃ row, row < rowCount n ∧ g (inputAt n row) = .error e ∧
      ∀ r, r < row → ∃ b, g (inputAt n r) = .ok b := by
  rw [ofFnM, Except.bind_eq_error, Except.ofFnM_eq_error]
  constructor
  · rintro (⟨row, he, hbefore⟩ | ⟨v, -, h⟩)
    · exact ⟨row, row.isLt, he, fun r hr => hbefore ⟨r, hr.trans row.isLt⟩ hr⟩
    · cases h
  · rintro ⟨row, hrow, he, hbefore⟩
    exact .inl ⟨⟨row, hrow⟩, he, fun r hr => hbefore r hr⟩

end BooleanFunction

/-- A table is a function if each input finds its entry. -/
theorem TruthTable.function_eq_ok {t : TruthTable} {n : Nat} {f : BooleanFunction} :
    t.function n = .ok f ↔
      f.arity = n ∧ ∀ input, input.length = n → t.value? input = some (f.output (rowOf input)) := by
  rw [function, BooleanFunction.ofFnM_eq_ok]
  refine and_congr_right fun _ => forall₂_congr fun input _ => ?_
  cases t.value? input <;> simp

/-- The output of the function of a connective at an input of its arity. -/
theorem Connective.valueAt?_eq (c : Connective) {input : List Bool} (h : input.length = c.arity) :
    c.valueAt? input = some ((BooleanFunction.ofConnective c).output (rowOf input)) := by
  cases c with
  | not =>
      obtain ⟨a, rfl⟩ := List.length_eq_one_iff.mp h
      cases a <;> rfl
  | binary c =>
      obtain ⟨a, b, rfl⟩ := List.length_eq_two.mp h
      revert a b; cases c <;> decide

end PropBench
