import PropBench.Proofs.Program.Occurrence
import PropBench.Proofs.Symbols.Definition

/-!
# Proofs — Symbols — Extension

Tables only grow.  `Symbols.Extends s t` says that `t` resolves every name that `s` resolves, to the
same definition.

* `Symbols.Step`: what a statement can do to the tables (`Symbols.execute_step`); the tables after
  it extend those before it (`Symbols.Step.extends`).
* `Symbols.check_ok_iff`: an expression passes the check when every name in it is known
  (`Symbols.Knows`).
* `Symbols.Extends.check`, `Symbols.Extends.expandedDepth`: an expression that passes the check
  passes it in every extension, and has the same depth there.
-/

namespace PropBench

/-! ### Tables -/

namespace Table

variable {space : Namespace} {α : Type} {t u w : Table space α}

/-- Every name that `t` resolves has the same definition in `u`. -/
def Extends (t u : Table space α) : Prop := ∀ n a, t.find? n = some a → u.find? n = some a

theorem Extends.refl (t : Table space α) : t.Extends t := fun _ _ h => h

theorem Extends.trans (h₁ : t.Extends u) (h₂ : u.Extends w) : t.Extends w :=
  fun n a h => h₂ n a (h₁ n a h)

/-- Entries at the end give a meaning to names that have none. -/
theorem find?_append (t : Table space α) (entries : List (String × α)) (n : String) :
    (⟨t.entries ++ entries⟩ : Table space α).find? n =
      (t.find? n).or ((⟨entries⟩ : Table space α).find? n) := by
  rw [find?, List.find?_append, Option.map_or]
  rfl

/-- Entries behind a table change no meaning in it. -/
theorem Extends.of_append (t : Table space α) (entries : List (String × α)) :
    t.Extends ⟨t.entries ++ entries⟩ := fun n a h => by
  rw [find?_append, h]
  rfl

/-- The meaning of a name is an entry. -/
theorem mem_entries {n : String} {a : α} (h : t.find? n = some a) : (n, a) ∈ t.entries := by
  obtain ⟨e, he, rfl⟩ := Option.map_eq_some_iff.mp h
  have hname := List.find?_some he
  rw [← beq_iff_eq.mp hname]
  exact List.mem_of_find?_eq_some he

theorem Extends.contains (h : t.Extends u) {n : String} (hn : t.contains n = true) :
    u.contains n = true := by
  obtain ⟨a, ha⟩ := Option.isSome_iff_exists.mp hn
  exact Option.isSome_iff_exists.mpr ⟨a, h n a ha⟩

/-- A name without a meaning gets one from the new entry only. -/
theorem find?_append_singleton {name n : String} {a b : α} (hn : t.find? n = none)
    (h : (⟨t.entries ++ [(name, a)]⟩ : Table space α).find? n = some b) : n = name ∧ a = b := by
  rw [find?_append, hn, Option.none_or] at h
  obtain ⟨e, he, rfl⟩ := Option.map_eq_some_iff.mp h
  rw [List.find?_singleton] at he
  split at he
  · next hname => cases he; exact ⟨(beq_iff_eq.mp hname).symm, rfl⟩
  · cases he

end Table

/-! ### All tables -/

namespace Symbols

/-- Every name that `s` resolves has the same definition in `t`, in each namespace. -/
structure Extends (s t : Symbols) : Prop where
  vars : s.vars.Extends t.vars
  formulas : s.formulas.Extends t.formulas
  valuations : s.valuations.Extends t.valuations
  operators : s.operators.Extends t.operators
  opsets : s.opsets.Extends t.opsets

variable {s t u : Symbols}

theorem Extends.refl (s : Symbols) : s.Extends s :=
  ⟨.refl _, .refl _, .refl _, .refl _, .refl _⟩

theorem Extends.trans (h₁ : s.Extends t) (h₂ : t.Extends u) : s.Extends u :=
  ⟨h₁.vars.trans h₂.vars, h₁.formulas.trans h₂.formulas, h₁.valuations.trans h₂.valuations,
    h₁.operators.trans h₂.operators, h₁.opsets.trans h₂.opsets⟩

/-- What a statement adds changes no meaning. -/
theorem Adds.extends {statement : Statement} {space : Namespace} {names : List String}
    (h : s.Adds statement space names t) : s.Extends t := by
  have hs := Extends.refl s
  cases h with
  | vars => exact { hs with vars := .of_append _ _ }
  | formula => exact { hs with formulas := .of_append _ _ }
  | valuation => exact { hs with valuations := .of_append _ _ }
  | operator => exact { hs with operators := .of_append _ _ }
  | opset => exact { hs with opsets := .of_append _ _ }

/-- What a statement can do to the tables. -/
inductive Step (config : Config) (s : Symbols) : Symbols → Prop
  | unchanged : Step config s s
  | added {statement : Statement} {space : Namespace} {names : List String} {t : Symbols}
      (hadm : s.Admits config statement) (hadd : s.Adds statement space names t) : Step config s t

/-- A statement is a step of the tables, whatever its answer. -/
theorem execute_step {config : Config} {statement : Statement} {r : Except Fault Outcome}
    (h : (execute config statement).on s = (r, t)) : Step config s t := by
  rcases execute_effect h with ⟨rfl, -⟩ | ⟨_, _, -, hadm, hadd⟩
  · exact .unchanged
  · exact .added hadm hadd

/-- A statement only adds names. -/
theorem Step.extends {config : Config} (h : Step config s t) : s.Extends t := by
  cases h with
  | unchanged => exact .refl s
  | added _ hadd => exact hadd.extends

/-! ### What an extension keeps -/

/-- A name in an expression is declared, an operator with as many parameters as it is given
arguments. -/
def Knows (s : Symbols) : Occurrence → Prop
  | .var x => s.vars.contains x = true
  | .formula f => s.formulas.contains f = true
  | .operator o n => ∃ operator, s.operators.find? o = some operator ∧ operator.arity = n

/-- A name stays known, with its arity. -/
theorem Extends.knows (h : s.Extends t) {o : Occurrence} (ho : s.Knows o) : t.Knows o := by
  cases o with
  | var x => exact h.vars.contains ho
  | formula f => exact h.formulas.contains ho
  | operator o n => exact ho.imp fun a ha => ⟨h.operators o a ha.1, ha.2⟩

theorem checkList_ok_iff {es : List Expr} :
    s.checkList es = .ok () ↔ ∀ e ∈ es, s.check e = .ok () := by
  induction es with
  | nil => simp [checkList]
  | cons e es ih =>
      rw [checkList, Except.check_bind_eq_ok, List.forall_mem_cons, ih]

/-- An operator is found if it is declared with as many parameters. -/
theorem operatorFor_ok_iff {o : String} {n : Nat} {operator : Operator} :
    s.operatorFor o n = .ok operator ↔
      s.operators.find? o = some operator ∧ operator.arity = n := by
  rw [operatorFor, Except.bind_eq_ok]
  simp only [Table.resolve_eq_ok_iff]
  constructor
  · rintro ⟨a, ha, h⟩
    split at h
    · next hn => cases h; exact ⟨ha, hn⟩
    · cases h
  · rintro ⟨ha, hn⟩
    exact ⟨operator, ha, if_pos hn⟩

theorem exists_resolve_iff {space : Namespace} {α : Type} {table : Table space α} {n : String} :
    (∃ a, table.resolve n = .ok a) ↔ table.contains n = true := by
  simp only [Table.resolve_eq_ok_iff, Table.contains, Option.isSome_iff_exists]

/-- An expression passes the check when every name in it is known. -/
theorem check_ok_iff {e : Expr} : s.check e = .ok () ↔ ∀ o ∈ e.occurrences, s.Knows o := by
  induction e using Expr.induct with
  | var x =>
      rw [check, Expr.occurrences, List.forall_mem_singleton, Knows, Table.resolve_name_iff]
  | formula f =>
      rw [check, Expr.occurrences, List.forall_mem_singleton, Knows, ← exists_resolve_iff,
        Except.map_eq_ok]
      simp
  | not e ih => exact ih
  | binary c l r ihl ihr =>
      rw [check, Except.check_bind_eq_ok, Expr.forall_occurrences_binary, ihl, ihr]
  | apply o args ih =>
      rw [check, Except.bind_eq_ok, Expr.forall_occurrences_apply]
      simp only [operatorFor_ok_iff, checkList_ok_iff, Knows]
      rw [exists_and_right]
      exact and_congr_right' (forall₂_congr ih)

/-- An expression that passes goes on to pass. -/
theorem Extends.check (h : s.Extends t) (e : Expr) (he : s.check e = .ok ()) : t.check e = .ok () :=
  check_ok_iff.mpr fun o ho => h.knows (check_ok_iff.mp he o ho)

/-- The depth of a list is the greatest depth in it. -/
theorem expandedDepthList_eq (s : Symbols) (es : List Expr) :
    s.expandedDepthList es = (es.map s.expandedDepth).foldr max 0 := by
  induction es with
  | nil => rfl
  | cons e es ih => rw [expandedDepthList, ih]; rfl

/-- No argument is deeper than the list it stands in. -/
theorem expandedDepth_le_list {e : Expr} {es : List Expr} (h : e ∈ es) :
    s.expandedDepth e ≤ s.expandedDepthList es := by
  induction es with
  | nil => cases h
  | cons a as ih =>
      rw [expandedDepthList]
      rcases List.mem_cons.mp h with rfl | h
      · exact le_max_left _ _
      · exact (ih h).trans (le_max_right _ _)

/-- The depth of an expression depends on the formulas it refers to only. -/
theorem expandedDepth_congr (e : Expr) :
    (∀ f, .formula f ∈ e.occurrences → t.formulas.find? f = s.formulas.find? f) →
      t.expandedDepth e = s.expandedDepth e := by
  induction e using Expr.induct with
  | var x => exact fun _ => rfl
  | formula f =>
      intro hf
      rw [expandedDepth, expandedDepth, hf f (List.mem_singleton_self _)]
  | not e ih => exact fun he => congrArg (1 + ·) (ih he)
  | binary c l r ihl ihr =>
      intro he
      rw [expandedDepth, expandedDepth, ihl fun f hf => he f (List.mem_append_left _ hf),
        ihr fun f hf => he f (List.mem_append_right _ hf)]
  | apply o args ih =>
      intro hargs
      have e : args.map t.expandedDepth = args.map s.expandedDepth :=
        List.map_congr_left fun a ha => ih a ha fun f hf => hargs f <| by
          rw [Expr.occurrences, Expr.occurrencesList_eq]
          exact List.mem_cons_of_mem _ (List.mem_flatMap.mpr ⟨a, ha, hf⟩)
      rw [expandedDepth, expandedDepth, expandedDepthList_eq, expandedDepthList_eq, e]

/-- Later definitions change no depth, if the formulas referred to are there. -/
theorem Extends.expandedDepth_of_references (h : s.Extends t) (e : Expr)
    (he : ∀ f, .formula f ∈ e.occurrences → s.formulas.contains f = true) :
    t.expandedDepth e = s.expandedDepth e :=
  expandedDepth_congr e fun f hf => by
    obtain ⟨a, ha⟩ := Option.isSome_iff_exists.mp (he f hf)
    rw [ha, h.formulas f a ha]

/-- Later definitions change no depth of an expression that passes. -/
theorem Extends.expandedDepth (h : s.Extends t) (e : Expr) (he : s.check e = .ok ()) :
    t.expandedDepth e = s.expandedDepth e :=
  h.expandedDepth_of_references e fun _ hf => check_ok_iff.mp he _ hf

end Symbols

end PropBench
