import PropBench.Proofs.Logic.Completeness
import PropBench.Proofs.Logic.TruthTable
import PropBench.Proofs.Symbols.Evaluation
import PropBench.Symbols.Adequacy

/-!
# Proofs — Symbols — Composition

Expressions built from variables and the operators of a set, without references
(`Expr.BuiltFrom`).

* `Symbols.evaluate_applied`: the value of an applied operator is the output of its function.
* `Expr.BuiltFrom.preserves`: what the functions of the operators preserve, the expressions do.
* `Expr.BuiltFrom.closedUnder`: the operations that the expressions compute are closed under the
  functions of the operators.
-/

namespace PropBench

/-! ### Expressions over a set of operators -/

/-- An expression with the variables `xs`, the connectives of `ops`, and the declared operators of
`ops`, each applied to as many arguments as its arity. -/
inductive Expr.BuiltFrom (s : Symbols) (ops : List OperatorRef) (xs : List String) : Expr → Prop
  | var {x : String} (h : x ∈ xs) : BuiltFrom s ops xs (.var x)
  | not {e : Expr} (h : .builtin .not ∈ ops) (he : BuiltFrom s ops xs e) :
      BuiltFrom s ops xs (.not e)
  | binary {c : Binary} {l r : Expr} (h : .builtin (.binary c) ∈ ops) (hl : BuiltFrom s ops xs l)
      (hr : BuiltFrom s ops xs r) : BuiltFrom s ops xs (.binary c l r)
  | apply {o : String} {operator : Operator} {args : List Expr} (h : .custom o ∈ ops)
      (ho : s.operators.find? o = some operator) (hn : args.length = operator.arity)
      (hargs : ∀ a ∈ args, BuiltFrom s ops xs a) : BuiltFrom s ops xs (.apply o args)

/-- `e` is the operator `o` applied to `args`. -/
inductive Expr.IsApplied : OperatorRef → List Expr → Expr → Prop
  | not (e : Expr) : IsApplied (.builtin .not) [e] (.not e)
  | binary (c : Binary) (l r : Expr) : IsApplied (.builtin (.binary c)) [l, r] (.binary c l r)
  | apply (o : String) (args : List Expr) : IsApplied (.custom o) args (.apply o args)

namespace Symbols

variable {s : Symbols} {o : OperatorRef} {f : BooleanFunction} {args : List Expr} {e : Expr}

/-- A declared operator has a function if its table covers every input. -/
theorem function_custom_eq_ok {name : String} :
    s.function (.custom name) = .ok f ↔ ∃ operator, s.operators.find? name = some operator ∧
      f.arity = operator.arity ∧
        ∀ input, input.length = operator.arity →
          operator.table.value? input = some (f.output (rowOf input)) := by
  rw [function, Except.bind_eq_ok]
  simp only [Table.resolve_eq_ok_iff, ← TruthTable.function_eq_ok]
  refine exists_congr fun operator => and_congr_right fun _ => ?_
  cases operator.table.function operator.arity <;> simp

/-- A declared operator is without a function because of the first input that its table has no entry
for. -/
theorem function_custom_eq_noEntry {name : String} {input : List Bool} :
    s.function (.custom name) = .error (.noEntry name input) ↔
      ∃ operator, s.operators.find? name = some operator ∧
        operator.table.FirstUncovered operator.arity input := by
  rw [function, Except.bind_eq_error]
  simp only [Table.resolve_eq_ok_iff, ← TruthTable.function_eq_error_iff]
  have hresolve : s.operators.resolve name ≠ .error (.noEntry name input) := fun h => by
    unfold Table.resolve at h
    split at h <;> cases h
  rw [or_iff_right hresolve]
  refine exists_congr fun operator => and_congr_right fun _ => ?_
  cases operator.table.function operator.arity <;> simp

theorem applyTable_eq_ok {name : String} {operator : Operator} {input : List Bool} {b : Bool} :
    applyTable name operator input = .ok b ↔ operator.table.value? input = some b := by
  unfold applyTable
  cases operator.table.value? input <;> simp

/-- **The value of an applied operator** is the output of its function at the values of the
arguments. -/
theorem evaluate_applied (hs : s.DepthsKept) (hf : s.function o = .ok f) (he : e.IsApplied o args)
    (hn : args.length = f.arity) {v : Valuation} {input : List Bool}
    (hargs : List.Forall₂ (fun a b => s.evaluate v a = .ok b) args input) :
    s.evaluate v e = .ok (f.output (rowOf input)) := by
  have hlen : input.length = f.arity := hargs.length_eq ▸ hn
  cases he with
  | not e =>
      cases hf
      cases hargs with | cons hb h => cases h with | nil =>
      rw [evaluate_not hs, hb]
      exact congrArg _ (Option.some.inj (Connective.valueAt?_eq .not hlen))
  | binary c l r =>
      cases hf
      cases hargs with | cons ha h => cases h with | cons hb h => cases h with | nil =>
      rw [evaluate_binary hs, ha, hb]
      exact congrArg _ (Option.some.inj (Connective.valueAt?_eq (.binary c) hlen))
  | apply name =>
      obtain ⟨operator, ho, ha, hv⟩ := function_custom_eq_ok.mp hf
      rw [evaluate_apply hs, operatorFor_ok_iff.mpr ⟨ho, (hn.trans ha).symm⟩,
        Except.mapM_eq_ok.mpr hargs]
      exact applyTable_eq_ok.mpr (hv input (hlen.trans ha))

end Symbols

namespace Expr.BuiltFrom

variable {s : Symbols} {ops : List OperatorRef} {xs : List String} {e : Expr}

/-- An operator with a function can be applied to as many arguments as the function has. -/
theorem exists_applied {o : OperatorRef} {f : BooleanFunction} {args : List Expr} (ho : o ∈ ops)
    (hf : s.function o = .ok f) (hn : args.length = f.arity)
    (hargs : ∀ a ∈ args, a.BuiltFrom s ops xs) :
    ∃ e : Expr, e.BuiltFrom s ops xs ∧ e.IsApplied o args := by
  rcases o with (- | c) | name
  · cases hf
    obtain ⟨a, rfl⟩ := List.length_eq_one_iff.mp hn
    exact ⟨_, .not ho (hargs a (by simp)), .not a⟩
  · cases hf
    obtain ⟨l, r, rfl⟩ := List.length_eq_two.mp hn
    exact ⟨_, .binary ho (hargs l (by simp)) (hargs r (by simp)), .binary c l r⟩
  · obtain ⟨operator, hfind, ha, -⟩ := Symbols.function_custom_eq_ok.mp hf
    exact ⟨_, .apply ho hfind (hn.trans ha) hargs, .apply name args⟩

/-- Induction with one case for all operators. -/
theorem induction_applied {P : Expr → Prop} (hops : ∀ o ∈ ops, ∃ f, s.function o = .ok f)
    (var : ∀ x ∈ xs, P (.var x))
    (applied : ∀ o ∈ ops, ∀ f, s.function o = .ok f → ∀ args e, IsApplied o args e →
      args.length = f.arity → (∀ a ∈ args, P a) → P e)
    (he : e.BuiltFrom s ops xs) : P e := by
  induction he with
  | var h => exact var _ h
  | not h _ ih => exact applied _ h _ rfl _ _ (.not _) rfl (by simpa using ih)
  | binary h _ _ ihl ihr => exact applied _ h _ rfl _ _ (.binary ..) rfl (by simp [ihl, ihr])
  | @apply name operator args h ho hn _ ih =>
      obtain ⟨f, hf⟩ := hops _ h
      obtain ⟨operator', ho', ha, -⟩ := Symbols.function_custom_eq_ok.mp hf
      rw [ho] at ho'; cases ho'
      exact applied _ h f hf args _ (.apply name args) (hn.trans ha.symm) ih

/-- **Composition preserves**: at variables with related values, an expression over operators that
preserve the relation has related values. -/
theorem preserves (hs : s.DepthsKept) {R : (Fin 4 → Bool) → Prop}
    (hops : ∀ o ∈ ops, ∃ f, s.function o = .ok f ∧ f.Preserves R) {v : Fin 4 → Valuation}
    (hv : ∀ x ∈ xs, ∃ b, (∀ i, (v i).value? x = some (b i)) ∧ R b) (he : e.BuiltFrom s ops xs) :
    ∃ b, (∀ i, s.evaluate (v i) e = .ok (b i)) ∧ R b := by
  refine he.induction_applied (P := fun e => ∃ b, (∀ i, s.evaluate (v i) e = .ok (b i)) ∧ R b)
    (fun o ho => (hops o ho).imp fun _ h => h.1) ?_ ?_
  · intro x hx
    obtain ⟨b, hb, hR⟩ := hv x hx
    exact ⟨b, fun i => by rw [Symbols.evaluate_var, Symbols.valueOf, hb i], hR⟩
  · intro o ho f hf args e happ hn hargs
    obtain ⟨f', hf', hpres⟩ := hops o ho
    rw [hf] at hf'; cases hf'
    obtain ⟨bs, hbs, hR⟩ := exists_forall₂ hargs
    have hvals : ∀ i, List.Forall₂ (fun a b => s.evaluate (v i) a = .ok b) args
        (bs.map fun b => b i) := fun i =>
      List.forall₂_map_right_iff.mpr (hbs.imp fun _ _ h => h i)
    exact ⟨_, fun i => Symbols.evaluate_applied hs hf happ hn (hvals i),
      hpres.output (hbs.length_eq ▸ hn) hR⟩

end Expr.BuiltFrom

/-! ### The operations that expressions compute -/

/-- Under every valuation that gives the variables `xs` the values `b`, the value of `e` is
`g b`. -/
def Symbols.Computes (s : Symbols) {n : Nat} (xs : Fin n → String) (e : Expr)
    (g : (Fin n → Bool) → Bool) : Prop :=
  ∀ (v : Valuation) b, (∀ i, v.value? (xs i) = some (b i)) → s.evaluate v e = .ok (g b)

/-- The operations computed by expressions are closed under the functions of their operators. -/
theorem Symbols.closedUnder_computes {s : Symbols} {ops : List OperatorRef} {n : Nat}
    {xs : Fin n → String} (hs : s.DepthsKept) {fs : List BooleanFunction}
    (hfs : ∀ f ∈ fs, ∃ o ∈ ops, s.function o = .ok f) :
    ClosedUnder fs fun g => ∃ e, e.BuiltFrom s ops (List.ofFn xs) ∧ s.Computes xs e g := by
  intro f hf gs hn hgs
  obtain ⟨o, ho, hf⟩ := hfs f hf
  obtain ⟨args, hargs, hbuilt⟩ := exists_forall₂ fun g hg => (hgs g hg).imp fun _ h => h.symm
  have hlen : args.length = f.arity := hargs.length_eq ▸ hn
  obtain ⟨e, he, happ⟩ := Expr.BuiltFrom.exists_applied ho hf hlen hbuilt
  refine ⟨e, he, fun v b hb => evaluate_applied hs hf happ hlen ?_⟩
  exact List.forall₂_map_right_iff.mpr (hargs.flip.imp fun _ _ h => h v b hb)

end PropBench
