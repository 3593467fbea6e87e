import PropBench.Proofs.Session.Reachable
import PropBench.Proofs.Symbols.Composition

/-!
# Proofs — Session — Application

A declared operator is looked at in two ways: its table is asked for one input when an expression is
evaluated, and for all inputs of its arity when its function is found.

* `Symbols.evaluate_uncovered`: an operator without a function is refused with the first input at
  which its evaluation fails, with the same fault.
* `Session.applied_value`: in a reachable session, the value of an applied operator is the output of
  its function.
-/

namespace PropBench

namespace Symbols

variable {s : Symbols} {name : String} {args : List Expr} {input : List Bool} {v : Valuation}

/-- Where an operator has no function, its evaluation fails at the input that is named. -/
theorem evaluate_uncovered (hs : s.DepthsKept)
    (hf : s.function (.custom name) = .error (.noEntry name input))
    (hargs : List.Forall₂ (fun a b => s.evaluate v a = .ok b) args input) :
    s.evaluate v (.apply name args) = .error (.noEntry name input) := by
  obtain ⟨operator, ho, hfirst⟩ := function_custom_eq_noEntry.mp hf
  have harity : operator.arity = args.length := hfirst.length.symm.trans hargs.length_eq.symm
  rw [evaluate_apply hs, operatorFor_ok_iff.mpr ⟨ho, harity⟩, Except.mapM_eq_ok.mpr hargs]
  show applyTable name operator input = _
  rw [applyTable, hfirst.uncovered]

end Symbols

namespace Session

variable {s : Session}

/-- **The evaluator and the checker see one operator.**  Where an operator has a function, and is
applied to as many expressions as the function has arguments, the value is the output at the row
whose bits are the values of the expressions, the first one lowest.  The function has an output for
every row, and the input at that row is those values. -/
theorem applied_value (hs : s.Reachable) {o : OperatorRef} {f : BooleanFunction}
    (hf : s.symbols.function o = .ok f) {args : List Expr} {e : Expr} (he : e.IsApplied o args)
    (hn : args.length = f.arity) {v : Valuation} {input : List Bool}
    (hargs : List.Forall₂ (fun a b => s.symbols.evaluate v a = .ok b) args input) :
    f.outputs.toArray.size = 2 ^ f.arity ∧
      (∃! row, row < 2 ^ f.arity ∧
        ∀ k, (h : k < input.length) → row.testBit k = input[k]) ∧
      ∀ row, row < 2 ^ f.arity →
        (∀ k, (h : k < input.length) → row.testBit k = input[k]) →
        f.input row = input ∧
          ∃ b, f.value? row = some b ∧ s.symbols.evaluate v e = .ok b := by
  have hlength : input.length = f.arity := hargs.length_eq.symm.trans hn
  have hrow : ∀ {row}, rowOf input = row ↔ row < 2 ^ f.arity ∧
      ∀ k, (h : k < input.length) → row.testBit k = input[k] := hlength ▸ rowOf_eq_iff
  refine ⟨f.size_outputs, ⟨rowOf input, hrow.mp rfl, fun row h => (hrow.mpr h).symm⟩,
    fun row hlt hbits => ?_⟩
  obtain rfl := hrow.mpr ⟨hlt, hbits⟩
  refine ⟨?_, f.output (rowOf input), f.value?_of_lt hlt, ?_⟩
  · rw [BooleanFunction.input, ← hlength, inputAt_rowOf]
  · exact Symbols.evaluate_applied hs.formulasChecked.depthsKept hf he hn hargs

/-- In the sample `first(!p, p)` is applied to different values: where `p` is true the row is the
third, with the output false, and not the second, with the output true. -/
theorem sample_applied :
    sampleSession.Reachable ∧
      sampleSession.symbols.function (.custom "first") = .ok ⟨2, #v[false, true, false, true]⟩ ∧
      BooleanFunction.input ⟨2, #v[false, true, false, true]⟩ 2 = [false, true] ∧
      sampleSession.symbols.evaluate ⟨"v", [("p", true)]⟩
        (.apply "first" [.not (.var "p"), .var "p"]) = .ok false := by
  have hf : sampleSession.symbols.function (.custom "first") =
      .ok ⟨2, #v[false, true, false, true]⟩ := by decide +kernel
  have hargs : List.Forall₂
      (fun a b => sampleSession.symbols.evaluate ⟨"v", [("p", true)]⟩ a = .ok b)
      [.not (.var "p"), .var "p"] [false, true] :=
    .cons (by decide +kernel) (.cons (by decide +kernel) .nil)
  obtain ⟨-, -, hvalue⟩ := applied_value reachable_sampleSession hf (.apply "first" _) rfl hargs
  obtain ⟨hinput, b, hb, he⟩ := hvalue 2 (by decide) (by decide)
  cases hb
  exact ⟨reachable_sampleSession, hf, hinput, he⟩

end Session

end PropBench
