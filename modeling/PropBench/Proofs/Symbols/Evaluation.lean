import PropBench.Proofs.Symbols.Extension

/-!
# Proofs — Symbols — Evaluation

In tables whose formulas carry their depths, the expanded depth of an expression is a bound that its
evaluation never exceeds: with any bound at least that large, `evalWithin` gives the value of
`evaluate` (`evalWithin_eq`).  So `evaluate` obeys the equations of the language, one for each kind
of expression (`evaluate_var` to `evaluate_apply`).
-/

namespace PropBench

namespace Evaluation

variable {α β : Type}

theorem of_bind (r : Except Fault α) (f : α → Except Fault β) :
    (Evaluation.of r >>= fun a => Evaluation.of (f a)) = Evaluation.of (r >>= f) := by
  cases r <;> rfl

theorem mapM_of {f : α → Evaluation β} {g : α → Except Fault β} {as : List α}
    (h : ∀ a ∈ as, f a = .of (g a)) : as.mapM f = .of (as.mapM g) := by
  induction as with
  | nil => rfl
  | cons a as ih =>
      rw [List.mapM_cons, List.mapM_cons, h a (by simp), ih fun b hb => h b (by simp [hb])]
      simp only [← of_bind]
      rfl

end Evaluation

namespace Symbols

/-- The depth kept with each formula is that of its expression, references expanded. -/
def DepthsKept (s : Symbols) : Prop :=
  ∀ name f, s.formulas.find? name = some f → f.depth = s.expandedDepth f.expr

variable {s : Symbols} {v : Valuation}

/-- Induction that follows references: what holds of the expression of a formula holds of a
reference to it. -/
theorem DepthsKept.induct (hs : s.DepthsKept) {motive : Expr → Prop}
    (var : ∀ x, motive (.var x))
    (formula : ∀ f, (∀ g, s.formulas.find? f = some g → motive g.expr) → motive (.formula f))
    (not : ∀ e, motive e → motive (.not e))
    (binary : ∀ c l r, motive l → motive r → motive (.binary c l r))
    (apply : ∀ o args, (∀ a ∈ args, motive a) → motive (.apply o args)) (e : Expr) : motive e := by
  -- On the depth, not the expression: a reference leads to an expression of the table.
  induction hd : s.expandedDepth e using Nat.strong_induction_on generalizing e with
  | _ d ih =>
      cases e with
      | var x => exact var x
      | formula f =>
          refine formula f fun g hg => ?_
          rw [expandedDepth, hg, Option.map_some, Option.getD_some, hs f g hg] at hd
          exact ih _ (by omega) g.expr rfl
      | not e =>
          rw [expandedDepth] at hd
          exact not e (ih _ (by omega) e rfl)
      | binary c l r =>
          rw [expandedDepth] at hd
          exact binary c l r (ih _ (by omega) l rfl) (ih _ (by omega) r rfl)
      | apply o args =>
          rw [expandedDepth] at hd
          refine apply o args fun a ha => ih _ ?_ a rfl
          have hle := expandedDepth_le_list (s := s) ha
          omega

theorem expandedDepth_pos (e : Expr) : 1 ≤ s.expandedDepth e := by
  cases e <;> simp [expandedDepth]

/-- With a bound of at least the expanded depth, evaluation gives an answer, and the answer does not
depend on the bound. -/
def Settles (s : Symbols) (v : Valuation) (e : Expr) : Prop :=
  ∀ b, s.expandedDepth e ≤ b → s.evalWithin v b e = .of (s.evaluate v e)

/-- One answer at all bounds from the expanded depth on is the value. -/
theorem evaluate_eq_of {e : Expr} {r : Except Fault Bool}
    (h : ∀ b, s.expandedDepth e ≤ b + 1 → s.evalWithin v (b + 1) e = .of r) :
    s.evaluate v e = r := by
  obtain ⟨b, hb⟩ : ∃ b, s.expandedDepth e = b + 1 :=
    ⟨_, (Nat.sub_add_cancel (expandedDepth_pos e)).symm⟩
  rw [evaluate, hb, h b hb.le]; rfl

theorem settles_of {e : Expr} {r : Except Fault Bool}
    (h : ∀ b, s.expandedDepth e ≤ b + 1 → s.evalWithin v (b + 1) e = .of r) : s.Settles v e := by
  intro b hb
  obtain ⟨b, rfl⟩ : ∃ c, b = c + 1 :=
    ⟨_, (Nat.sub_add_cancel ((expandedDepth_pos e).trans hb)).symm⟩
  rw [h b hb, evaluate_eq_of h]

/-! ### One step of an evaluation whose parts settle -/

/-- A negation settles with its operand. -/
theorem evalWithin_not {e : Expr} (he : s.Settles v e) (b : Nat)
    (hb : s.expandedDepth (.not e) ≤ b + 1) :
    s.evalWithin v (b + 1) (.not e) = .of (do return !(← s.evaluate v e)) := by
  rw [expandedDepth] at hb
  rw [evalWithin, he b (by omega), ← Evaluation.of_bind]; rfl

/-- A connective settles with its operands, the left of them first. -/
theorem evalWithin_binary {c : Binary} {l r : Expr} (hl : s.Settles v l) (hr : s.Settles v r)
    (b : Nat) (hb : s.expandedDepth (.binary c l r) ≤ b + 1) :
    s.evalWithin v (b + 1) (.binary c l r) =
      .of (do
        let x ← s.evaluate v l
        let y ← s.evaluate v r
        return c.apply x y) := by
  rw [expandedDepth] at hb
  rw [evalWithin, hl b (by omega), hr b (by omega), ← Evaluation.of_bind]
  simp only [← Evaluation.of_bind]; rfl

/-- An application settles with its arguments, behind the look for its operator. -/
theorem evalWithin_apply {o : String} {args : List Expr} (h : ∀ a ∈ args, s.Settles v a) (b : Nat)
    (hb : s.expandedDepth (.apply o args) ≤ b + 1) :
    s.evalWithin v (b + 1) (.apply o args) =
      .of (do
        let operator ← s.operatorFor o args.length
        let input ← args.mapM (s.evaluate v)
        applyTable o operator input) := by
  rw [expandedDepth] at hb
  have hm : args.mapM (s.evalWithin v b) = .of (args.mapM (s.evaluate v)) :=
    Evaluation.mapM_of fun a ha => h a ha b (by have := expandedDepth_le_list (s := s) ha; omega)
  rw [evalWithin, hm, ← Evaluation.of_bind]
  simp only [← Evaluation.of_bind]

/-- A reference settles with the formula that it names. -/
theorem evalWithin_formula {f : String}
    (h : ∀ g, s.formulas.find? f = some g → s.expandedDepth g.expr ≤ g.depth ∧ s.Settles v g.expr)
    (b : Nat) (hb : s.expandedDepth (.formula f) ≤ b + 1) :
    s.evalWithin v (b + 1) (.formula f) =
      .of (do
        let g ← s.formulas.resolve f
        s.evaluate v g.expr) := by
  rw [evalWithin, Table.resolve]
  cases hf : s.formulas.find? f with
  | none => rfl
  | some g =>
      obtain ⟨hd, hg⟩ := h g hf
      rw [expandedDepth, hf, Option.map_some, Option.getD_some] at hb
      exact hg b (by omega)

/-! ### The equations of the language -/

/-- **Evaluation ends within the expanded depth.** -/
theorem evalWithin_eq (hs : s.DepthsKept) (v : Valuation) (e : Expr) : s.Settles v e := by
  induction e using hs.induct with
  | var x => exact settles_of fun _ _ => rfl
  | formula f ih => exact settles_of (evalWithin_formula fun g hg => ⟨(hs f g hg).ge, ih g hg⟩)
  | not e ih => exact settles_of (evalWithin_not ih)
  | binary c l r ihl ihr => exact settles_of (evalWithin_binary ihl ihr)
  | apply o args ih => exact settles_of (evalWithin_apply ih)

theorem evaluate_var (s : Symbols) (v : Valuation) (x : String) :
    s.evaluate v (.var x) = valueOf v x := evaluate_eq_of fun _ _ => rfl

/-- A reference has the value of its formula. -/
theorem evaluate_formula (hs : s.DepthsKept) (v : Valuation) (f : String) :
    s.evaluate v (.formula f) = (do
      let g ← s.formulas.resolve f
      s.evaluate v g.expr) :=
  evaluate_eq_of (evalWithin_formula fun g hg => ⟨(hs f g hg).ge, evalWithin_eq hs v g.expr⟩)

/-- A negation has the opposite value. -/
theorem evaluate_not (hs : s.DepthsKept) (v : Valuation) (e : Expr) :
    s.evaluate v (.not e) = (do return !(← s.evaluate v e)) :=
  evaluate_eq_of (evalWithin_not (evalWithin_eq hs v e))

/-- A connective is applied to the values of its operands, the left of them first. -/
theorem evaluate_binary (hs : s.DepthsKept) (v : Valuation) (c : Binary) (l r : Expr) :
    s.evaluate v (.binary c l r) = (do
      let x ← s.evaluate v l
      let y ← s.evaluate v r
      return c.apply x y) :=
  evaluate_eq_of (evalWithin_binary (evalWithin_eq hs v l) (evalWithin_eq hs v r))

/-- An operator is found first, then the arguments are evaluated, then the table is applied. -/
theorem evaluate_apply (hs : s.DepthsKept) (v : Valuation) (o : String) (args : List Expr) :
    s.evaluate v (.apply o args) = (do
      let operator ← s.operatorFor o args.length
      let input ← args.mapM (s.evaluate v)
      applyTable o operator input) :=
  evaluate_eq_of (evalWithin_apply fun a _ => evalWithin_eq hs v a)

end Symbols

end PropBench
