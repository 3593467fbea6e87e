import PropBench.Proofs.Session.Reachable
import PropBench.Proofs.Symbols.Safety

/-!
# Proofs — Session — Safety

The declared formulas of a reachable session do not go wrong (`Session.formula_safe`): a formula
and a valuation that are declared pass to `Symbols.evaluate` an expression that passes the check.
-/

namespace PropBench

theorem Symbols.evaluateNamed_eq {s : Symbols} {f v : String} {g : Formula} {w : Valuation}
    (hf : s.formulas.find? f = some g) (hv : s.valuations.find? v = some w) :
    s.evaluateNamed f v = s.evaluate w g.expr := by
  rw [evaluateNamed, Table.resolve_eq_ok_iff.mpr hf, Table.resolve_eq_ok_iff.mpr hv]
  rfl

namespace Session

variable {s : Session}

/-- **Declared formulas do not go wrong.**  A declared formula has a value under a declared
valuation, or a variable has none there, or an operator's table leaves an input out.  If no table of
an operator in the formula's expansion does, it has a value exactly when the valuation gives one to
every variable of the expansion, and else the first one without is reported. -/
theorem formula_safe (hs : s.Reachable) {f v : String} {g : Formula} {w : Valuation}
    (hf : s.symbols.formulas.find? f = some g) (hv : s.symbols.valuations.find? v = some w) :
    ((∃ b, s.symbols.evaluateNamed f v = .ok b) ∨
      (∃ x, s.symbols.evaluateNamed f v = .error (.unbound x)) ∨
      ∃ o input, s.symbols.evaluateNamed f v = .error (.noEntry o input)) ∧
    ((∀ o n operator, .operator o n ∈ (s.symbols.expand g.expr).occurrences →
        s.symbols.operators.find? o = some operator → operator.IsTotal) →
      ((∃ b, s.symbols.evaluateNamed f v = .ok b) ↔
        ∀ x ∈ (s.symbols.expand g.expr).vars, (w.value? x).isSome = true) ∧
      ∀ x, ((s.symbols.expand g.expr).vars.find? fun y => (w.value? y).isNone) = some x →
        s.symbols.evaluateNamed f v = .error (.unbound x)) := by
  have hchecked := (hs.formulasChecked f g hf).1
  rw [Symbols.evaluateNamed_eq hf hv]
  constructor
  · have hsafe := hs.formulasChecked.evaluate_safe w hchecked
    cases h : s.symbols.evaluate w g.expr with
    | ok b => exact .inl ⟨b, rfl⟩
    | error e =>
        have hmissing := hsafe e h
        cases e with
        | unbound x => exact .inr (.inl ⟨x, rfl⟩)
        | noEntry o input => exact .inr (.inr ⟨o, input, rfl⟩)
        | _ => exact hmissing.elim
  · intro htotal
    -- The tables that occur are total, so what is needed are the variables alone.
    have hneeds := hs.formulasOrdered.evaluate_needs hs.namesDistinct w hchecked fun o ho => by
      cases o with
      | operator o n => exact fun operator => htotal o n operator ho
      | _ => trivial
    exact ⟨hneeds.ok_iff, fun _ => hneeds.eq_error⟩

theorem sample_operators_total {o : String} {operator : Operator}
    (h : sampleSession.symbols.operators.find? o = some operator) : operator.IsTotal := by
  have hall : ∀ e ∈ sampleSession.symbols.operators.entries, e.2.table.hasOtherwise = true := by
    decide +kernel
  exact Operator.isTotal_of_hasOtherwise (hall _ (Table.mem_entries h))

/-- In the sample `g` is `!first(p, q)`, references expanded.  The table of `first` passes over its
second argument; that `v` has no value for it is reported all the same. -/
theorem sample_safe :
    sampleSession.Reachable ∧
      sampleSession.symbols.evaluateNamed "g" "v" = .error (.unbound "q") := by
  have hsafe := formula_safe reachable_sampleSession
    (show sampleSession.symbols.formulas.find? "g" = some ⟨.not (.formula "f"), 4⟩ by
      decide +kernel)
    (show sampleSession.symbols.valuations.find? "v" = some ⟨"v", [("p", true)]⟩ by
      decide +kernel)
  have htotal := hsafe.2 fun _ _ _ _ h => sample_operators_total h
  exact ⟨reachable_sampleSession, htotal.2 "q" (by decide +kernel)⟩

end Session

end PropBench
