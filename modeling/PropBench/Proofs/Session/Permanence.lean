import PropBench.Proofs.Session.Reachable

/-!
# Proofs — Session — Permanence

What a declared name means never changes (`Session.meaning_permanent`).

* `Symbols.Extends.evaluate`: an expression that passes the check has the same value, or the same
  fault, in an extension of the tables.
* `Symbols.Extends.checkAdequacy`: the report on a set of declared operators, or the fault, is the
  same.
-/

namespace PropBench

namespace Symbols

variable {s t : Symbols}

/-- An expression that passes the check has the same value in an extension. -/
theorem Extends.evaluate (h : s.Extends t) (hs : s.FormulasChecked) (ht : t.DepthsKept)
    (v : Valuation) (e : Expr) (he : s.check e = .ok ()) : t.evaluate v e = s.evaluate v e := by
  have hs' := hs.depthsKept
  -- The induction follows references in `s`: that `t` has more formulas does not matter.
  refine hs.induct (motive := fun e => t.evaluate v e = s.evaluate v e) ?var ?formula ?not ?binary
    ?apply e he
  case var => intro x _; rw [evaluate_var, evaluate_var]
  case formula =>
    intro f g hg ih
    rw [evaluate_formula ht, evaluate_formula hs',
      Table.resolve_eq_ok_iff.mpr (h.formulas f g hg), Table.resolve_eq_ok_iff.mpr hg]
    exact ih
  case not => intro e ih; rw [evaluate_not ht, evaluate_not hs', ih]
  case binary =>
    intro c l r ihl ihr
    rw [evaluate_binary ht, evaluate_binary hs', ihl, ihr]
  case apply =>
    intro o operator args ho hn ih
    rw [evaluate_apply ht, evaluate_apply hs', Except.mapM_congr ih,
      operatorFor_ok_iff.mpr ⟨h.operators o operator ho, hn⟩, operatorFor_ok_iff.mpr ⟨ho, hn⟩]

/-- The function of a declared operator is the same in an extension. -/
theorem Extends.function (h : s.Extends t) {o : OperatorRef} (ho : s.HasOperator o) :
    t.function o = s.function o := by
  cases o with
  | builtin c => rfl
  | custom n =>
      obtain ⟨operator, hn⟩ := exists_resolve_iff.mpr ho
      have ht := Table.resolve_eq_ok_iff.mpr
        (h.operators n operator (Table.resolve_eq_ok_iff.mp hn))
      rw [Symbols.function, Symbols.function, hn, ht]

/-- Later definitions change no report on operators that were there. -/
theorem Extends.checkAdequacy (h : s.Extends t) {set : OperatorSet}
    (hset : ∀ o ∈ set.operators, s.HasOperator o) :
    t.checkAdequacy set = s.checkAdequacy set := by
  have hprofile : ∀ o ∈ set.operators, t.profile o = s.profile o := fun o ho => by
    rw [Symbols.profile, Symbols.profile, h.function (hset o ho)]
  rw [Symbols.checkAdequacy, Symbols.checkAdequacy, Except.mapM_congr hprofile]

/-- Later definitions change no value of a formula that was there. -/
theorem Extends.evaluateNamed (h : s.Extends t) (hs : s.FormulasChecked) (ht : t.DepthsKept)
    {f v : String} (hf : s.formulas.contains f = true) (hv : s.valuations.contains v = true) :
    t.evaluateNamed f v = s.evaluateNamed f v := by
  obtain ⟨g, hg⟩ := Option.isSome_iff_exists.mp hf
  obtain ⟨w, hw⟩ := Option.isSome_iff_exists.mp hv
  rw [Symbols.evaluateNamed, Symbols.evaluateNamed,
    Table.resolve_eq_ok_iff.mpr (h.formulas f g hg), Table.resolve_eq_ok_iff.mpr hg,
    Table.resolve_eq_ok_iff.mpr (h.valuations v w hw), Table.resolve_eq_ok_iff.mpr hw]
  exact h.evaluate hs ht w g.expr (hs f g hg).1

/-- Later definitions change no report on an operator set that was there. -/
theorem Extends.checkAdequacyNamed (h : s.Extends t) (hs : s.OpsetsProper) {o : String}
    (ho : s.opsets.contains o = true) : t.checkAdequacyNamed o = s.checkAdequacyNamed o := by
  obtain ⟨set, hset⟩ := Option.isSome_iff_exists.mp ho
  rw [Symbols.checkAdequacyNamed, Symbols.checkAdequacyNamed,
    Table.resolve_eq_ok_iff.mpr (h.opsets o _ hset), Table.resolve_eq_ok_iff.mpr hset]
  exact h.checkAdequacy (hs.hasOperator hset)

end Symbols

namespace Session

variable {s t : Session}

/-- **The meaning of a declared name never changes.**  Whatever further statements do, a name that
is declared keeps its definition, a formula its value under a valuation and a set its report, and
an expression its depth when the formulas it refers to are declared. -/
theorem meaning_permanent (hs : s.Reachable) (h : s.LeadsTo t) :
    s.symbols.Extends t.symbols ∧
    (∀ f v, s.symbols.formulas.contains f = true → s.symbols.valuations.contains v = true →
      t.symbols.evaluateNamed f v = s.symbols.evaluateNamed f v) ∧
    (∀ o, s.symbols.opsets.contains o = true →
      t.symbols.checkAdequacyNamed o = s.symbols.checkAdequacyNamed o) ∧
    ∀ e : Expr, (∀ f, .formula f ∈ e.occurrences → s.symbols.formulas.contains f = true) →
      t.symbols.expandedDepth e = s.symbols.expandedDepth e := by
  have hext := h.symbols_extend
  have hkept := (h.reachable hs).formulasChecked.depthsKept
  refine ⟨hext, fun f v hf hv => ?_, fun o ho => ?_, hext.expandedDepth_of_references⟩
  · exact hext.evaluateNamed hs.formulasChecked hkept hf hv
  · exact hext.checkAdequacyNamed hs.opsetsProper ho

/-- The sample after a second definition of `f`, which fails, and one of a new name. -/
def laterSession : Session :=
  (sampleSession.run [.defineFormula "f" (.var "q"), .defineFormula "h" (.formula "f")]).session

theorem leadsTo_laterSession : sampleSession.LeadsTo laterSession :=
  LeadsTo.refl.run _

/-- In the sample `f` evaluates as under its first definition. -/
theorem sample_permanent :
    sampleSession.Reachable ∧ sampleSession.LeadsTo laterSession ∧
      laterSession.symbols.names .formulas = ["f", "g", "h"] ∧
      laterSession.symbols.evaluateNamed "f" "v" = sampleSession.symbols.evaluateNamed "f" "v" :=
  ⟨reachable_sampleSession, leadsTo_laterSession, by decide +kernel,
    (meaning_permanent reachable_sampleSession leadsTo_laterSession).2.1 "f" "v"
      (by decide +kernel) (by decide +kernel)⟩

end Session

end PropBench
