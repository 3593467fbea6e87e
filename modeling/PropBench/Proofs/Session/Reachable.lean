import PropBench.Proofs.Symbols.WellFormed
import PropBench.Session.Event

/-!
# Proofs — Session — Reachable

The sessions that statements and settings lead to, from a fresh one (`Session.Reachable`) or from
a given one (`Session.LeadsTo`).  A statement here is any statement, read from a text or not.

* `Session.process_step`: what processing a statement does to the tables.
* `Session.Reachable.symbols`: what fresh tables have and every step of a statement keeps, the
  tables of a reachable session have.
* `Session.LeadsTo.symbols_extend`: the tables of a later session extend those of an earlier one.
-/

namespace PropBench

namespace Session

theorem process_effect (s : Session) (statement : Statement) :
    Symbols.Effect s.config s.symbols statement (s.process statement).2.outcome
      (s.process statement).1.symbols :=
  Symbols.execute_effect rfl

theorem process_step (s : Session) (statement : Statement) :
    Symbols.Step s.config s.symbols (s.process statement).1.symbols :=
  Symbols.execute_step (r := (s.process statement).2.outcome) rfl

/-- A setting leaves the tables alone. -/
theorem set_symbols {s t : Session} {setting : Setting} (h : s.set setting = .ok t) :
    t.symbols = s.symbols := by
  obtain ⟨config, -, rfl⟩ := Except.map_eq_ok.mp h
  rfl

/-- A session that statements and settings lead to. -/
inductive Reachable : Session → Prop
  | fresh (config : Config) : Reachable { config }
  | process {s : Session} (hs : Reachable s) (statement : Statement) :
      Reachable (s.process statement).1
  | set {s t : Session} {setting : Setting} (hs : Reachable s) (h : s.set setting = .ok t) :
      Reachable t

/-- A session that further statements and settings lead to. -/
inductive LeadsTo (s : Session) : Session → Prop
  | refl : LeadsTo s s
  | process {t : Session} (h : LeadsTo s t) (statement : Statement) :
      LeadsTo s (t.process statement).1
  | set {t u : Session} {setting : Setting} (h : LeadsTo s t) (hset : t.set setting = .ok u) :
      LeadsTo s u

/-! ### From a given session -/

namespace LeadsTo

variable {s t : Session}

theorem reachable (h : s.LeadsTo t) (hs : s.Reachable) : t.Reachable := by
  induction h with
  | refl => exact hs
  | process _ statement ih => exact ih.process statement
  | set _ hset ih => exact ih.set hset

/-- A session leads to where a program brings it. -/
theorem run (h : s.LeadsTo t) (p : Program) : s.LeadsTo (t.run p).session := by
  induction p generalizing t with
  | nil => exact h
  | cons statement p ih =>
      have ht := h.process statement
      rw [Session.run]
      dsimp only
      split
      · exact ht
      · exact ih ht

/-- On the way the tables only grow. -/
theorem symbols_extend (h : s.LeadsTo t) : s.symbols.Extends t.symbols := by
  induction h with
  | refl => exact .refl _
  | process _ statement ih => exact ih.trans (process_step _ statement).extends
  | set _ hset ih => rw [set_symbols hset]; exact ih

end LeadsTo

/-! ### From a fresh session -/

namespace Reachable

variable {s : Session}

/-- A program keeps a session reachable. -/
theorem run (hs : s.Reachable) (p : Program) : (s.run p).session.Reachable :=
  (LeadsTo.refl.run p).reachable hs

/-- A text that is read keeps a session reachable, even if it is no program. -/
theorem read (hs : s.Reachable) (bytes : ByteArray) : (s.read bytes).session.Reachable := by
  rw [Session.read, readText]
  split
  · exact hs
  · exact hs.run _

/-- A property of fresh tables that every step keeps. -/
theorem symbols {P : Symbols → Prop} (h₀ : P {})
    (hstep : ∀ config s t, P s → Symbols.Step config s t → P t) (hs : s.Reachable) :
    P s.symbols := by
  induction hs with
  | fresh config => exact h₀
  | process _ statement ih => exact hstep _ _ _ ih (process_step _ statement)
  | set _ h ih => rw [set_symbols h]; exact ih

/-- A formula refers to earlier ones only. -/
theorem formulasOrdered (hs : s.Reachable) : s.symbols.FormulasOrdered :=
  hs.symbols .empty fun _ _ _ h hstep => h.step hstep

/-- Every formula passes the checks that it passed when it was declared. -/
theorem formulasChecked (hs : s.Reachable) : s.symbols.FormulasChecked :=
  hs.formulasOrdered.checked

/-- No name is declared twice in a namespace. -/
theorem namesDistinct (hs : s.Reachable) : s.symbols.NamesDistinct :=
  hs.symbols .empty fun _ _ _ h hstep => h.step hstep

/-- Every valuation gives values to declared variables, each of them once. -/
theorem valuationsProper (hs : s.Reachable) : s.symbols.ValuationsProper :=
  hs.symbols nofun fun _ _ _ h hstep => h.step hstep

/-- Every operator is within the bounds, and its patterns have its arity. -/
theorem operatorsProper (hs : s.Reachable) : s.symbols.OperatorsProper :=
  hs.symbols nofun fun _ _ _ h hstep => h.step hstep

/-- Every operator set has declared members, each of them once. -/
theorem opsetsProper (hs : s.Reachable) : s.symbols.OpsetsProper :=
  hs.symbols nofun fun _ _ _ h hstep => h.step hstep

end Reachable

/-- A session with names in every namespace: a formula that refers to another, a valuation that
leaves a variable out, and a set that names an operator twice. -/
def sampleSession : Session :=
  (({ config := default } : Session).run
    [.defineVariables ["p", "q"],
      .defineOperator ⟨"first", ["x", "y"],
        ⟨[.pattern [.value true, .blank] true, .otherwise false]⟩⟩,
      .defineFormula "f" (.apply "first" [.var "p", .var "q"]),
      .defineFormula "g" (.not (.formula "f")),
      .defineValuation "v" [("p", true)],
      .defineOpset "s" ["first", "then", "IMPLIES"]]).session

theorem reachable_sampleSession : sampleSession.Reachable := (Reachable.fresh default).run _

end Session

end PropBench
