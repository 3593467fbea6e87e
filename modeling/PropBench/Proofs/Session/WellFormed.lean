import PropBench.Proofs.Session.Reachable

/-!
# Proofs — Session — Well-formed tables

The tables of a reachable session are well formed (`Session.symbols_wellFormed`): each part of it
is kept by every step of a statement.
-/

namespace PropBench

/-- Well-formed tables. -/
structure Symbols.WellFormed (s : Symbols) : Prop where
  /-- The variables in a formula are declared, the operators are declared with as many parameters
  as they are given arguments, and the formulas it refers to are declared before it. -/
  formulas : ∀ before name f after, s.formulas.entries = before ++ (name, f) :: after →
    ∀ o ∈ f.expr.occurrences, (s.withFormulas before).Knows o
  valuations : s.ValuationsProper
  operators : s.OperatorsProper
  opsets : s.OpsetsProper

namespace Session

variable {s : Session}

/-- **Well-formedness of the tables is an invariant of every run.** -/
theorem symbols_wellFormed (hs : s.Reachable) : s.symbols.WellFormed where
  formulas before name f after h :=
    Symbols.check_ok_iff.mp (hs.formulasOrdered before name f after h).1
  valuations := hs.valuationsProper
  operators := hs.operatorsProper
  opsets := hs.opsetsProper

/-- The tables of a session with names in every namespace are well formed. -/
theorem sample_wellFormed :
    (sampleSession.symbols.names .formulas = ["f", "g"] ∧
      sampleSession.symbols.names .valuations = ["v"] ∧
      sampleSession.symbols.names .operators = ["first"] ∧
      sampleSession.symbols.names .opsets = ["s"]) ∧
    sampleSession.Reachable ∧ sampleSession.symbols.WellFormed :=
  ⟨by decide +kernel, reachable_sampleSession, symbols_wellFormed reachable_sampleSession⟩

end Session

end PropBench
