import PropBench.Proofs.Session.Safety

/-!
# Proofs — Session — Inlining

An expression has the value of its expansion (`Symbols.FormulasOrdered.evaluate_expand`), and fails
as that does: which fault comes first does not depend on the references.

* `Session.inlining_preserves`: in a reachable session, and for a formula that was just defined,
  its expression and a reference to it.
-/

namespace PropBench

namespace Symbols

variable {s t : Symbols} {config : Config} {f v : String} {g : Formula} {e : Expr}

/-- **Inlining keeps the value**, and the fault if there is none. -/
theorem FormulasOrdered.evaluate_expand (hs : s.FormulasOrdered) (hn : s.NamesDistinct)
    (v : Valuation) (he : s.ReferencesDeclared e) :
    s.evaluate v (s.expand e) = s.evaluate v e := by
  have hkept := hs.checked.depthsKept
  refine ReferencesDeclared.induct hs.checked
    (motive := fun e => s.evaluate v (s.expand e) = s.evaluate v e) ?var ?formula ?not ?binary
    ?apply e he
  case var => exact fun _ => rfl
  case formula =>
    intro f g hg ih
    rw [expand_formula hs hn hg, ih, evaluate_formula hkept, Table.resolve_eq_ok_iff.mpr hg]
    rfl
  case not =>
    intro e ih
    rw [expand_not, evaluate_not hkept, evaluate_not hkept, ih]
  case binary =>
    intro c l r ihl ihr
    rw [expand_binary, evaluate_binary hkept, evaluate_binary hkept, ihl, ihr]
  case apply =>
    intro o args ih
    have hargs : (args.map s.expand).mapM (s.evaluate v) = args.mapM (s.evaluate v) :=
      List.mapM_map.trans (Except.mapM_congr ih)
    rw [expand_apply, evaluate_apply hkept, evaluate_apply hkept, List.length_map, hargs]

/-- Within the limit an expression is evaluated as it stands. -/
theorem evaluateExpr_eq {w : Valuation} (hv : s.valuations.find? v = some w)
    (he : s.expandedDepth e ≤ config.maxExpressionDepth) :
    s.evaluateExpr config e v = s.evaluate w e := by
  rw [evaluateExpr, Table.resolve_eq_ok_iff.mpr hv, checkDepth_ok_iff.mpr ⟨he, rfl⟩]
  rfl

/-- A formula, its expression and a reference to it are evaluated alike. -/
structure EvaluatedAlike (config : Config) (s : Symbols) (f : String) (e : Expr) (v : String) :
    Prop where
  expr : s.expandedDepth e ≤ config.maxExpressionDepth →
    s.evaluateExpr config e v = s.evaluateNamed f v
  reference : s.expandedDepth (.formula f) ≤ config.maxExpressionDepth →
    s.evaluateExpr config (.formula f) v = s.evaluateNamed f v

/-- A formula has the value of the expression that it names. -/
theorem DepthsKept.evaluatedAlike (hs : s.DepthsKept) (hf : s.formulas.find? f = some g)
    (hv : s.valuations.contains v = true) : EvaluatedAlike config s f g.expr v := by
  obtain ⟨w, hw⟩ := Option.isSome_iff_exists.mp hv
  refine ⟨fun hd => ?_, fun hd => ?_⟩
  · rw [evaluateExpr_eq hw hd, evaluateNamed_eq hf hw]
  · rw [evaluateExpr_eq hw hd, evaluateNamed_eq hf hw, evaluate_formula hs,
      Table.resolve_eq_ok_iff.mpr hf]
    rfl

/-- The definition of a formula that succeeds was admitted, and added the formula. -/
theorem adds_of_execute {answer : Outcome}
    (h : (execute config (.defineFormula f e)).on s = (.ok answer, t)) :
    s.Admits config (.defineFormula f e) ∧ s.Adds (.defineFormula f e) .formulas [f] t := by
  rcases Work.on_bind_pure (defineFormula_clean f e s) h with ⟨_, hanswer, -⟩ | ⟨_, -, ht⟩
  · cases hanswer
  · obtain ⟨hadm, rfl⟩ := defineFormula_eq_ok.mp ht
    exact ⟨hadm, .formula f e⟩

end Symbols

namespace Session

variable {s t : Session} {f : String} {e : Expr}

/-- A formula that was defined has its expression, which was within the limit. -/
theorem defined_of_process {answer : Outcome}
    (h : (s.process (.defineFormula f e)).2.outcome = .ok answer) :
    (∃ g, (s.process (.defineFormula f e)).1.symbols.formulas.find? f = some g ∧ g.expr = e) ∧
      (s.process (.defineFormula f e)).1.symbols.expandedDepth e ≤
        s.config.maxExpressionDepth := by
  have hexecute : (Symbols.execute s.config (.defineFormula f e)).on s.symbols =
      (.ok answer, (s.process (.defineFormula f e)).1.symbols) := Prod.ext h rfl
  obtain ⟨⟨hfresh, hcheck, hdepth⟩, hadd⟩ := Symbols.adds_of_execute hexecute
  refine ⟨?_, (hadd.extends.expandedDepth e hcheck).trans_le hdepth⟩
  generalize (s.process (.defineFormula f e)).1.symbols = t at hadd
  cases hadd
  have hnone : s.symbols.formulas.find? f = none := by
    simpa [Table.contains] using hfresh
  refine ⟨⟨e, s.symbols.expandedDepth e⟩, ?_, rfl⟩
  rw [Table.find?_append, hnone]
  simp [Table.find?]

/-- **Inlining keeps evaluation.**  In place of a reference to a formula can stand the expression of
the formula: an expression that refers to declared formulas only has an expansion without
references, with the same value under every valuation, or the same fault.  So after the definition
of a formula, and ever since, the formula, its expression and a reference to it are evaluated alike
under every declared valuation. -/
theorem inlining_preserves (hs : s.Reachable) :
    (∀ f g, s.symbols.formulas.find? f = some g →
      s.symbols.expand (.formula f) = s.symbols.expand g.expr) ∧
    (∀ e, s.symbols.ReferencesDeclared e →
      (∀ f, .formula f ∉ (s.symbols.expand e).occurrences) ∧
        ∀ v, s.symbols.evaluate v (s.symbols.expand e) = s.symbols.evaluate v e) ∧
    ∀ f e answer, (s.process (.defineFormula f e)).2.outcome = .ok answer →
      (s.process (.defineFormula f e)).1.symbols.expandedDepth e ≤
        (s.process (.defineFormula f e)).1.config.maxExpressionDepth ∧
      ∀ t : Session, (s.process (.defineFormula f e)).1.LeadsTo t →
        ∀ v, t.symbols.valuations.contains v = true →
          Symbols.EvaluatedAlike t.config t.symbols f e v := by
  have hordered := hs.formulasOrdered
  have hnames := hs.namesDistinct
  refine ⟨fun f g => Symbols.expand_formula hordered hnames, fun e he => ⟨?_, fun v => ?_⟩,
    fun f e answer hanswer => ?_⟩
  · exact Symbols.expand_closed hordered hnames he
  · exact hordered.evaluate_expand hnames v he
  · obtain ⟨⟨g, hg, rfl⟩, hdepth⟩ := defined_of_process hanswer
    refine ⟨hdepth, fun t ht v hv => ?_⟩
    -- The formula keeps its definition, whatever the limit is later.
    have hkept := (ht.reachable (hs.process _)).formulasChecked.depthsKept
    exact hkept.evaluatedAlike (ht.symbols_extend.formulas f g hg) hv

/-- In the sample `@g` expands to `!first(p, q)`, and has the same fault: `v` has no value for `q`.
With `h` defined to be `@g & @f`, the same fault comes of `h`, of `@g & @f` and of `@h`. -/
theorem sample_inlining :
    sampleSession.Reachable ∧
      sampleSession.symbols.expand (.formula "g") =
        .not (.apply "first" [.var "p", .var "q"]) ∧
      sampleSession.symbols.evaluate ⟨"v", [("p", true)]⟩
          (sampleSession.symbols.expand (.formula "g")) =
        sampleSession.symbols.evaluate ⟨"v", [("p", true)]⟩ (.formula "g") ∧
      let t := (sampleSession.process
        (.defineFormula "h" (.binary .and (.formula "g") (.formula "f")))).1
      t.symbols.evaluateNamed "h" "v" = .error (.unbound "q") ∧
        t.symbols.evaluateExpr t.config (.binary .and (.formula "g") (.formula "f")) "v" =
          t.symbols.evaluateNamed "h" "v" ∧
        t.symbols.evaluateExpr t.config (.formula "h") "v" =
          t.symbols.evaluateNamed "h" "v" := by
  obtain ⟨-, hexpand, hdefine⟩ := inlining_preserves reachable_sampleSession
  have hg : sampleSession.symbols.ReferencesDeclared (.formula "g") := fun f hf => by
    obtain rfl : f = "g" := by simpa [Expr.occurrences] using hf
    decide +kernel
  obtain ⟨hdepth, halike⟩ := hdefine "h" (.binary .and (.formula "g") (.formula "f"))
    (.declared .formulas ["h"]) (by decide +kernel)
  have hv := halike _ .refl "v" (by decide +kernel)
  exact ⟨reachable_sampleSession, by decide +kernel, (hexpand _ hg).2 _, by decide +kernel,
    hv.expr hdepth, hv.reference (by decide +kernel)⟩

end Session

end PropBench
