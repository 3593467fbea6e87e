import PropBench.Proofs.Session.Reachable

/-!
# Proofs — Session — Halting

Programs in parts, and programs that are halted.

* `Session.run_append`, `Session.run_append_of_halted`: what follows a part of a program that is not
  halted is run in the session after it, and what follows one that is halted is not run.
* `Session.CutsAtFailure`: the results up to the first failure, and the session as the statements up
  to there leave it.
* `Session.run_transparent`: a program may be split, and halting it does no more than cut it.
-/

namespace PropBench

namespace Session

variable {s : Session} {statement : Statement} {p : Program}

/-- The statement halts the program that it stands in. -/
def halts (s : Session) (statement : Statement) : Bool :=
  (s.process statement).2.failed && s.config.haltOnError

/-- A statement that halts ends the run. -/
theorem run_cons_of_halts (h : s.halts statement = true) (p : Program) :
    s.run (statement :: p) =
      ⟨(s.process statement).1, [(s.process statement).2], some s.counters.statements⟩ := by
  rw [run]
  exact if_pos h

/-- The run goes on with the session that a statement leaves. -/
theorem run_cons_of_goes_on (h : s.halts statement = false) (p : Program) :
    s.run (statement :: p) = { (s.process statement).1.run p with
      results := (s.process statement).2 :: ((s.process statement).1.run p).results } := by
  rw [run]
  exact if_neg (ne_true_of_eq_false h)

/-! ### Programs in parts -/

/-- A program that is not halted hands its session to the next. -/
theorem run_append (h : (s.run p).halted? = none) (q : Program) :
    s.run (p ++ q) = { (s.run p).session.run q with
      results := (s.run p).results ++ ((s.run p).session.run q).results } := by
  induction p generalizing s with
  | nil => rfl
  | cons statement p ih =>
      rw [List.cons_append]
      cases hs : s.halts statement with
      | true => rw [run_cons_of_halts hs] at h; cases h
      | false =>
          rw [run_cons_of_goes_on hs] at h
          rw [run_cons_of_goes_on hs, run_cons_of_goes_on hs, ih h]
          rfl

/-- A halted program keeps what stands behind it from running. -/
theorem run_append_of_halted {i : Nat} (h : (s.run p).halted? = some i) (q : Program) :
    s.run (p ++ q) = s.run p := by
  induction p generalizing s with
  | nil => cases h
  | cons statement p ih =>
      rw [List.cons_append]
      cases hs : s.halts statement with
      | true => rw [run_cons_of_halts hs, run_cons_of_halts hs]
      | false =>
          rw [run_cons_of_goes_on hs] at h
          rw [run_cons_of_goes_on hs, run_cons_of_goes_on hs, ih h]

/-! ### Switching the halt -/

/-- The session with the halt switched on or off. -/
def withHalting (s : Session) (on : Bool) : Session :=
  { s with config := { s.config with haltOnError := on } }

/-- A statement does the same whether it would halt a program or not. -/
theorem process_withHalting (s : Session) (on : Bool) (statement : Statement) :
    (s.withHalting on).process statement =
      ((s.process statement).1.withHalting on, (s.process statement).2) := by
  cases statement <;> rfl

/-- With the halt on, just the statements that fail halt. -/
theorem halts_withHalting (s : Session) (on : Bool) (statement : Statement) :
    (s.withHalting on).halts statement = ((s.process statement).2.failed && on) := by
  rw [halts, process_withHalting]
  rfl

/-- With the halt off, every statement is followed by the next. -/
theorem run_withHalting_false_cons (s : Session) (statement : Statement) (p : Program) :
    (s.withHalting false).run (statement :: p) =
      { ((s.process statement).1.withHalting false).run p with
        results := (s.process statement).2 ::
          (((s.process statement).1.withHalting false).run p).results } := by
  rw [run_cons_of_goes_on (by rw [halts_withHalting, Bool.and_false]), process_withHalting]

theorem halted?_withHalting_false (s : Session) (p : Program) :
    ((s.withHalting false).run p).halted? = none := by
  induction p generalizing s with
  | nil => rfl
  | cons statement p ih =>
      rw [run_withHalting_false_cons]
      exact ih _

/-- The run is that of the program with the halt off, cut behind the first statement that fails. -/
structure CutsAtFailure (s : Session) (p : Program) (r : Run) : Prop where
  results : r.results = ((s.withHalting false).run p).results.take
    (((s.withHalting false).run p).results.findIdx Result.failed + 1)
  session : r.session =
    ((s.withHalting false).run (p.take r.results.length)).session.withHalting true

/-- With the halt on, the run is cut behind the first failure. -/
theorem cutsAtFailure_run (s : Session) (p : Program) :
    s.CutsAtFailure p ((s.withHalting true).run p) := by
  induction p generalizing s with
  | nil => exact ⟨rfl, rfl⟩
  | cons statement p ih =>
      -- With the halt on, the run ends here just when this statement fails.
      have hhalts := halts_withHalting s true statement
      rw [Bool.and_true] at hhalts
      cases hs : (s.process statement).2.failed with
      | true =>
          rw [run_cons_of_halts (hhalts.trans hs), process_withHalting]
          constructor
          · rw [run_withHalting_false_cons, List.findIdx_cons, hs]
            rfl
          · rw [List.length_singleton, List.take_succ_cons, run_withHalting_false_cons]
            rfl
      | false =>
          obtain ⟨hresults, hsession⟩ := ih (s.process statement).1
          rw [run_cons_of_goes_on (hhalts.trans hs), process_withHalting]
          constructor
          · rw [run_withHalting_false_cons, List.findIdx_cons, hs]
            exact congrArg _ hresults
          · rw [List.length_cons, List.take_succ_cons, run_withHalting_false_cons]
            exact hsession

/-- **Programs may be split, and halting only cuts them.**  With the halt off, a program and one
behind it have together the results of the two in one, and leave the same session.  With the halt on
the results are those with it off up to the first failure, that included, and the session is left
as those statements leave it. -/
theorem run_transparent (s : Session) (p q : Program) :
    (((s.withHalting false).run (p ++ q)).results =
        ((s.withHalting false).run p).results ++
          (((s.withHalting false).run p).session.run q).results ∧
      ((s.withHalting false).run (p ++ q)).session =
        (((s.withHalting false).run p).session.run q).session) ∧
    s.CutsAtFailure p ((s.withHalting true).run p) := by
  refine ⟨?_, cutsAtFailure_run s p⟩
  rw [run_append (halted?_withHalting_false s p)]
  exact ⟨rfl, rfl⟩

end Session

end PropBench
