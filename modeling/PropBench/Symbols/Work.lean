import PropBench.Symbols.Basic

/-!
# Symbols — Work

Work on the tables of a session answers or fails.  Failing undoes nothing: what the work has done
to the tables by then stays done.

* `Work.on`: the answer of work on given tables, and the tables it leaves.
* `Work.on_bind`: after work that fails, nothing more is done.
-/

namespace PropBench

/-- Work on the tables.  Where it fails, the tables stay as they are at that point. -/
abbrev Work := ExceptT Fault (StateM Symbols)

namespace Work

variable {α β : Type}

/-- The answer of work on given tables, and the tables it leaves. -/
def on (w : Work α) (s : Symbols) : Except Fault α × Symbols := (ExceptT.run w).run s

theorem on_pure (a : α) (s : Symbols) : (pure a : Work α).on s = (.ok a, s) := rfl

theorem on_lift (r : Except Fault α) (s : Symbols) : (liftM r : Work α).on s = (r, s) := rfl

theorem on_bind (w : Work α) (f : α → Work β) (s : Symbols) :
    (w >>= f).on s =
      match w.on s with
      | (.ok a, t) => (f a).on t
      | (.error e, t) => (.error e, t) := by
  simp only [on, ExceptT.run_bind, StateT.run_bind]
  rcases (ExceptT.run w).run s with ⟨_ | _, t⟩ <;> rfl

end Work

end PropBench
