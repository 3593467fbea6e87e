import PropBench.Proofs.Logic.TruthTable
import PropBench.Proofs.Symbols.Expansion

/-!
# Proofs — Symbols — Safety

How the evaluation of an expression that passes the check can fail.

* `Symbols.FormulasChecked.evaluate_safe`: only because a value is missing, in the valuation or in
  the table of an operator (`Safe`).
* `Symbols.FormulasOrdered.evaluate_needs`: when the operators in the expansion have an entry for
  every input, at the first variable of the expansion without a value, and if there is none it
  succeeds (`Needs`).
-/

namespace PropBench

variable {α β : Type}

/-! ### Missing values -/

/-- A value is missing, in a valuation or in a table. -/
def Fault.IsMissing : Fault → Prop
  | .unbound _ | .noEntry _ _ => True
  | _ => False

/-- A result that is a failure only because a value is missing. -/
def Safe (r : Except Fault α) : Prop := ∀ f, r = .error f → f.IsMissing

theorem safe_ok (a : α) : Safe (.ok a) := FailsOnly.ok a

theorem Safe.bind {r : Except Fault α} {k : α → Except Fault β} (hr : Safe r)
    (hk : ∀ a, Safe (k a)) : Safe (r >>= k) :=
  FailsOnly.bind hr fun a _ => hk a

theorem Safe.mapM {f : α → Except Fault β} {as : List α} (h : ∀ a ∈ as, Safe (f a)) :
    Safe (as.mapM f) :=
  FailsOnly.mapM h

/-! ### Variables in order -/

/-- A result that needs the values of the variables `xs`, in this order, and nothing else: it fails
at the first of them without a value, and succeeds if there is none. -/
def Needs (v : Valuation) (xs : List String) (r : Except Fault α) : Prop :=
  match xs.find? fun x => (v.value? x).isNone with
  | some x => r = .error (.unbound x)
  | none => ∃ a, r = .ok a

namespace Needs

variable {v : Valuation} {xs ys : List String} {r : Except Fault α} {a : α}

theorem ok (v : Valuation) (a : α) : Needs v [] (.ok a) := ⟨a, rfl⟩

/-- Two steps need the variables of the first, and then those of the second. -/
theorem bind {k : α → Except Fault β} (hr : Needs v xs r) (hk : ∀ a, r = .ok a → Needs v ys (k a)) :
    Needs v (xs ++ ys) (r >>= k) := by
  unfold Needs at *
  rw [List.find?_append]
  cases h : xs.find? fun x => (v.value? x).isNone with
  | some x =>
      rw [h] at hr
      rw [show r = _ from hr]; rfl
  | none =>
      -- Every variable of `xs` has a value, so the first one without is one of `ys`.
      rw [h] at hr
      obtain ⟨a, rfl⟩ := hr
      exact hk a rfl

/-- What is made of a result needs nothing more. -/
theorem map (hr : Needs v xs r) (f : α → β) : Needs v xs (r >>= fun a => .ok (f a)) := by
  rw [← List.append_nil xs]
  exact hr.bind fun a _ => ok v (f a)

/-- A list needs the variables of its items in order. -/
theorem mapM {f : α → Except Fault β} {g : α → List String} {as : List α}
    (h : ∀ a ∈ as, Needs v (g a) (f a)) : Needs v (as.flatMap g) (as.mapM f) := by
  induction as with
  | nil => exact ok v []
  | cons a as ih =>
      obtain ⟨ha, has⟩ := List.forall_mem_cons.mp h
      rw [List.mapM_cons, List.flatMap_cons]
      exact ha.bind fun b _ => (ih has).map (b :: ·)

/-- A result succeeds if all the variables it needs have values. -/
theorem ok_iff (h : Needs v xs r) :
    (∃ a, r = .ok a) ↔ ∀ x ∈ xs, (v.value? x).isSome = true := by
  unfold Needs at h
  split at h
  · next x hx =>
      refine iff_of_false (by simp [h]) fun hall => ?_
      have hnone := List.find?_some hx
      rw [Option.isNone_iff_eq_none] at hnone
      simpa [hnone] using hall x (List.mem_of_find?_eq_some hx)
  · next hnone =>
      refine iff_of_true h fun x hx => ?_
      simpa [Option.isSome_iff_ne_none] using List.find?_eq_none.mp hnone x hx

/-- A result fails at the first variable without a value. -/
theorem eq_error (h : Needs v xs r) {x : String}
    (hx : (xs.find? fun x => (v.value? x).isNone) = some x) : r = .error (.unbound x) := by
  rwa [Needs, hx] at h

end Needs

/-! ### Evaluation -/

/-- An operator with an entry for every input. -/
def Operator.IsTotal (o : Operator) : Prop :=
  ∀ input : List Bool, input.length = o.arity → (o.table.value? input).isSome = true

/-- An entry that matches every input makes an operator total. -/
theorem Operator.isTotal_of_hasOtherwise {o : Operator} (h : o.table.hasOtherwise = true) :
    o.IsTotal := fun input _ => TruthTable.isSome_value?_of_hasOtherwise h input

namespace Symbols

variable {s : Symbols}

/-- An operator of that name has an entry for every input. -/
def TotalAt (s : Symbols) : Occurrence → Prop
  | .operator o _ => ∀ operator, s.operators.find? o = some operator → operator.IsTotal
  | .var _ | .formula _ => True

theorem valueOf_needs (v : Valuation) (x : String) : Needs v [x] (valueOf v x) := by
  rw [Needs, valueOf]
  cases h : v.value? x <;> simp [h]

theorem valueOf_safe (v : Valuation) (x : String) : Safe (valueOf v x) := by
  rw [valueOf]
  split
  · exact safe_ok _
  · rintro _ ⟨⟩; trivial

/-- A table fails, if it does, as it has no entry. -/
theorem applyTable_safe (o : String) (operator : Operator) (input : List Bool) :
    Safe (applyTable o operator input) := by
  rw [applyTable]
  split
  · exact safe_ok _
  · rintro _ ⟨⟩; trivial

/-- A table with an entry for the input needs nothing. -/
theorem applyTable_needs (v : Valuation) (o : String) {operator : Operator} {input : List Bool}
    (h : (operator.table.value? input).isSome = true) :
    Needs v [] (applyTable o operator input) := by
  obtain ⟨b, hb⟩ := Option.isSome_iff_exists.mp h
  rw [applyTable, hb]
  exact .ok v b

/-- **What passes the check does not go wrong.** -/
theorem FormulasChecked.evaluate_safe (hs : s.FormulasChecked) (v : Valuation) {e : Expr}
    (he : s.check e = .ok ()) : Safe (s.evaluate v e) := by
  have hkept := hs.depthsKept
  -- The check has passed the formulas referred to, so the induction goes through them.
  refine hs.induct (motive := fun e => Safe (s.evaluate v e)) ?var ?formula ?not ?binary ?apply e he
  case var =>
    intro x _
    rw [evaluate_var]
    exact valueOf_safe v x
  case formula =>
    intro f g hg ih
    rw [evaluate_formula hkept, Table.resolve_eq_ok_iff.mpr hg]
    exact ih
  case not =>
    intro e ih
    rw [evaluate_not hkept]
    exact ih.bind fun _ => safe_ok _
  case binary =>
    intro c l r ihl ihr
    rw [evaluate_binary hkept]
    exact ihl.bind fun _ => ihr.bind fun _ => safe_ok _
  case apply =>
    intro o operator args ho hn ih
    rw [evaluate_apply hkept, operatorFor_ok_iff.mpr ⟨ho, hn⟩]
    exact (Safe.mapM ih).bind (applyTable_safe o operator)

/-- **The order of evaluation.**  No connective and no operator skips an operand: the variables are
looked up as they stand in the expansion. -/
theorem FormulasOrdered.evaluate_needs (hs : s.FormulasOrdered) (hn : s.NamesDistinct)
    (v : Valuation) {e : Expr} (he : s.check e = .ok ()) :
    (∀ o ∈ (s.expand e).occurrences, s.TotalAt o) →
      Needs v (s.expand e).vars (s.evaluate v e) := by
  have hkept := hs.checked.depthsKept
  refine hs.checked.induct (motive := fun e => (∀ o ∈ (s.expand e).occurrences, s.TotalAt o) →
    Needs v (s.expand e).vars (s.evaluate v e)) ?var ?formula ?not ?binary ?apply e he
  case var =>
    intro x _ _
    rw [evaluate_var]
    exact valueOf_needs v x
  case formula =>
    intro f g hg ih
    rw [expand_formula hs hn hg, evaluate_formula hkept, Table.resolve_eq_ok_iff.mpr hg]
    exact ih
  case not =>
    intro e ih htotal
    rw [expand_not, Expr.vars_not, evaluate_not hkept]
    exact (ih htotal).map _
  case binary =>
    intro c l r ihl ihr htotal
    rw [expand_binary, Expr.forall_occurrences_binary] at htotal
    rw [expand_binary, Expr.vars_binary, evaluate_binary hkept]
    exact (ihl htotal.1).bind fun _ _ => (ihr htotal.2).map _
  case apply =>
    intro o operator args ho harity ih htotal
    rw [expand_apply, Expr.forall_occurrences_apply, List.forall_mem_map] at htotal
    rw [expand_apply, Expr.vars_apply, List.flatMap_map, evaluate_apply hkept,
      operatorFor_ok_iff.mpr ⟨ho, harity⟩, ← List.append_nil (List.flatMap _ _)]
    refine (Needs.mapM fun a ha => ih a ha (htotal.2 a ha)).bind fun input hinput => ?_
    -- The table is asked for an input of the length the check has counted.
    have hlength := (Except.mapM_eq_ok.mp hinput).length_eq
    exact applyTable_needs v o (htotal.1 operator ho input (hlength.symm.trans harity.symm))

end Symbols

end PropBench
