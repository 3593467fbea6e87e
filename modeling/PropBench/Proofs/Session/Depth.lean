import PropBench.Proofs.Session.Reachable
import PropBench.Proofs.Symbols.Depth

/-!
# Proofs — Session — Depth

The depths kept with the formulas of a reachable session (`Session.depths_exact`).

* `Session.formula_of_process`: a statement that gives a meaning to the name of a formula defines
  that formula, and the depth kept with it is within the limit set then.
* `Session.Declares`: the statement that declared a formula, on the way to a session.
-/

namespace PropBench

namespace Session

variable {r s : Session} {f : String} {g : Formula}

/-- Only the definition of a formula gives its name a meaning. -/
theorem formula_of_process {statement : Statement} (hfresh : r.symbols.formulas.find? f = none)
    (h : (r.process statement).1.symbols.formulas.find? f = some g) :
    statement = .defineFormula f g.expr ∧ g.depth ≤ r.config.maxExpressionDepth := by
  have heffect : Symbols.Effect r.config r.symbols statement (r.process statement).2.outcome
      (r.process statement).1.symbols := Symbols.execute_effect rfl
  generalize (r.process statement).1.symbols = t at h heffect
  rcases heffect with ⟨rfl, -⟩ | ⟨_, _, -, hadm, hadd⟩
  · rw [hfresh] at h; cases h
  · cases hadd with
    | formula name e =>
        obtain ⟨rfl, rfl⟩ := Table.find?_append_singleton hfresh h
        exact ⟨rfl, hadm.2.2⟩
    | _ => exact absurd (hfresh.symm.trans h) nofun

/-- The formula `f` of the session `s` was declared in the session `r`, which led to `s`. -/
structure Declares (r s : Session) (f : String) (g : Formula) : Prop where
  reachable : r.Reachable
  fresh : r.symbols.formulas.find? f = none
  declared : (r.process (.defineFormula f g.expr)).1.symbols.formulas.find? f = some g
  leadsTo : (r.process (.defineFormula f g.expr)).1.LeadsTo s

/-- The depth stored was within the limit when the formula was declared. -/
theorem Declares.depth_le (h : r.Declares s f g) : g.depth ≤ r.config.maxExpressionDepth :=
  (formula_of_process h.fresh h.declared).2

/-- Every formula of a reachable session was declared on the way to it. -/
theorem Reachable.exists_declares (hs : s.Reachable) (hf : s.symbols.formulas.find? f = some g) :
    ∃ r : Session, r.Declares s f g := by
  induction hs with
  | fresh config => cases hf
  | @process s hs statement ih =>
      cases hold : s.symbols.formulas.find? f with
      | none =>
          obtain ⟨rfl, -⟩ := formula_of_process hold hf
          exact ⟨s, hs, hold, hf, .refl⟩
      | some g' =>
          have hkept := (process_step s statement).extends.formulas f g' hold
          rw [hf] at hkept
          cases hkept
          obtain ⟨r, hr⟩ := ih hold
          exact ⟨r, { hr with leadsTo := hr.leadsTo.process statement }⟩
  | set _ h ih =>
      rw [set_symbols h] at hf
      obtain ⟨r, hr⟩ := ih hf
      exact ⟨r, { hr with leadsTo := hr.leadsTo.set h }⟩

/-- **Kept depths are true depths, and evaluation ends within them.**  The depth kept with a formula
is that of the tree of its expression; it was within the limit when the formula was declared, and so
is below the ceiling of all limits.  Every expression has one tree, with the expanded depth for its
depth.  Evaluation calls itself on parts and through references no deeper than that, so with this
bound, or any greater one, it has an answer, and always the same. -/
theorem depths_exact (hs : s.Reachable) :
    (∀ f g, s.symbols.formulas.find? f = some g →
      (∀ u, s.symbols.Unfolds g.expr u → g.depth = u.depth) ∧
      (∃ r : Session, r.Declares s f g) ∧
      (∀ r : Session, r.Declares s f g → g.depth ≤ r.config.maxExpressionDepth) ∧
      g.depth ≤ depthCeiling) ∧
    (∀ e, (∃! u, s.symbols.Unfolds e u) ∧
      ∀ u, s.symbols.Unfolds e u → s.symbols.expandedDepth e = u.depth) ∧
    ∀ e, (∀ es, List.IsChain s.symbols.Calls (e :: es) → es.length < s.symbols.expandedDepth e) ∧
      ∀ v bound, s.symbols.expandedDepth e ≤ bound →
        s.symbols.evalWithin v bound e = .of (s.symbols.evaluate v e) := by
  have hkept := hs.formulasChecked.depthsKept
  refine ⟨fun f g hf => ?_, fun e => ?_, fun e => ?_⟩
  · obtain ⟨r, hr⟩ := hs.exists_declares hf
    refine ⟨fun u hu => ?_, ⟨r, hr⟩, fun _ h => h.depth_le, hr.depth_le.trans r.config.depth_le⟩
    rw [hkept f g hf, hu.depth_eq hkept]
  · exact ⟨hkept.existsUnique_unfolds e, fun u hu => (hu.depth_eq hkept).symm⟩
  · exact ⟨fun _ h => hkept.length_lt h, fun v => Symbols.evalWithin_eq hkept v e⟩

/-- In the sample `g` is `!@f` and `f` is `first(p, q)`: the tree of `@g` is five deep, and so are
the calls of its evaluation. -/
theorem sample_depths :
    sampleSession.Reachable ∧
      (∃ r : Session, r.Declares sampleSession "g" ⟨.not (.formula "f"), 4⟩) ∧
      sampleSession.symbols.Unfolds (.formula "g")
        (.apply "g" [.not (.apply "f" [.apply "first" [.var "p", .var "q"]])]) ∧
      sampleSession.symbols.expandedDepth (.formula "g") = 5 ∧
      ∀ v, sampleSession.symbols.evalWithin v 5 (.formula "g") =
        .of (sampleSession.symbols.evaluate v (.formula "g")) := by
  obtain ⟨hformulas, htrees, hcalls⟩ := depths_exact reachable_sampleSession
  have hf : sampleSession.symbols.formulas.find? "f" =
      some ⟨.apply "first" [.var "p", .var "q"], 2⟩ := by decide +kernel
  have hg : sampleSession.symbols.formulas.find? "g" = some ⟨.not (.formula "f"), 4⟩ := by
    decide +kernel
  have hfirst : sampleSession.symbols.Unfolds (.apply "first" [.var "p", .var "q"])
      (.apply "first" [.var "p", .var "q"]) :=
    Symbols.unfolds_apply_iff.mpr ⟨_, .cons (.var "p") (.cons (.var "q") .nil), rfl⟩
  have hu := Symbols.Unfolds.formula hg (.not (.formula hf hfirst))
  have hdepth := (htrees _).2 _ hu
  exact ⟨reachable_sampleSession, (hformulas "g" _ hg).2.1, hu, hdepth,
    fun v => (hcalls _).2 v 5 hdepth.le⟩

end Session

end PropBench
