import PropBench.Proofs.Symbols.Naming

/-!
# Proofs — Session — Turns

The statements of a program, each in its turn.

* `Session.turns`: the results of all statements, each processed in the session that those in front
  of it leave.
* `Session.results_run`, `Session.halted?_run`: a run gives these results, up to the first failure
  if that halts it.
* `Session.index_turns`, `Session.kind_turns`, `Session.named_turns`: what the results carry.
-/

namespace PropBench

/-- The results up to the first failure, that included, if failures halt; else all of them. -/
def cutAtFailure (halt : Bool) (rs : List Result) : List Result :=
  if halt then rs.take (rs.findIdx Result.failed + 1) else rs

/-- The first failure, if failures halt. -/
def haltedAt? (halt : Bool) (rs : List Result) : Option Result :=
  if halt then rs.find? Result.failed else none

theorem cutAtFailure_cons_of_failed {r : Result} (h : r.failed = true) (rs : List Result) :
    cutAtFailure true (r :: rs) = [r] := by
  simp [cutAtFailure, List.findIdx_cons, h]

theorem cutAtFailure_cons {halt : Bool} {r : Result} (h : (r.failed && halt) = false)
    (rs : List Result) : cutAtFailure halt (r :: rs) = r :: cutAtFailure halt rs := by
  cases halt with
  | false => rfl
  | true =>
      rw [Bool.and_true] at h
      simp [cutAtFailure, List.findIdx_cons, h]

theorem haltedAt?_cons {halt : Bool} {r : Result} (h : (r.failed && halt) = false)
    (rs : List Result) : haltedAt? halt (r :: rs) = haltedAt? halt rs := by
  cases halt with
  | false => rfl
  | true =>
      rw [Bool.and_true] at h
      simp [haltedAt?, h]

/-- Cutting adds no result. -/
theorem cutAtFailure_subset (halt : Bool) (rs : List Result) : cutAtFailure halt rs ⊆ rs := by
  unfold cutAtFailure
  split
  · exact List.take_subset _ _
  · exact List.Subset.refl _

namespace Session

variable {s : Session}

/-- The results of the statements of a program, none of which halts it. -/
def turns (s : Session) : Program → List Result
  | [] => []
  | statement :: p => (s.process statement).2 :: turns (s.process statement).1 p

/-- The results of a run are those of its turns, cut at the first failure if the halt is on. -/
theorem results_run (s : Session) (p : Program) :
    (s.run p).results = cutAtFailure s.config.haltOnError (s.turns p) := by
  induction p generalizing s with
  | nil => rw [turns, cutAtFailure, List.take_nil, ite_self]; rfl
  | cons statement p ih =>
      rw [turns]
      cases h : s.halts statement with
      | true =>
          obtain ⟨hfailed, hon⟩ := Bool.and_eq_true_iff.mp h
          rw [run_cons_of_halts h, hon, cutAtFailure_cons_of_failed hfailed]
      | false =>
          rw [run_cons_of_goes_on h, cutAtFailure_cons h]
          exact congrArg _ (ih _)

/-- A run is halted where its turns fail, if the halt is on. -/
theorem halted?_run (s : Session) (p : Program) :
    (s.run p).halted? = (haltedAt? s.config.haltOnError (s.turns p)).map Result.index := by
  induction p generalizing s with
  | nil => rw [turns, haltedAt?, List.find?_nil, ite_self]; rfl
  | cons statement p ih =>
      rw [turns]
      cases h : s.halts statement with
      | true =>
          obtain ⟨hfailed, hon⟩ := Bool.and_eq_true_iff.mp h
          rw [run_cons_of_halts h, hon, haltedAt?, if_pos rfl, List.find?_cons_of_pos hfailed]
          rfl
      | false =>
          rw [run_cons_of_goes_on h, haltedAt?_cons h]
          exact ih _

/-- The statements are counted on from those processed before. -/
theorem index_turns (s : Session) (p : Program) :
    (s.turns p).map Result.index = List.range' s.counters.statements p.length := by
  induction p generalizing s with
  | nil => rfl
  | cons statement p ih =>
      rw [turns, List.map_cons, ih, (counters_process s statement).1, List.length_cons,
        List.range'_succ]
      rfl

/-- Each statement has a turn, of its kind. -/
theorem kind_turns (s : Session) (p : Program) :
    (s.turns p).map Result.kind = p.map Statement.kind := by
  induction p generalizing s with
  | nil => rfl
  | cons statement p ih => rw [turns, List.map_cons, ih, List.map_cons]; rfl

/-- The results mention only names that satisfy what those of the program do. -/
theorem named_turns {P : String → Prop} (hs : s.Reachable) (hnamed : s.symbols.Named P)
    {p : Program} (hp : ∀ statement ∈ p, statement.Named P) : ∀ r ∈ s.turns p, r.Named P := by
  induction p generalizing s with
  | nil => exact List.forall_mem_nil _
  | cons statement p ih =>
      obtain ⟨hst, hp⟩ := List.forall_mem_cons.mp hp
      obtain ⟨hr, hnext⟩ := process_named hs hnamed hst
      exact List.forall_mem_cons.mpr ⟨hr, ih (hs.process statement) hnext hp⟩

end Session

end PropBench
