import PropBench.Proofs.Symbols.WellFormed

/-!
# Proofs — Symbols — Expansion

The expansion of an expression: every reference to a formula is replaced by the expansion of the
formula's expression.

* `Expr.inline` replaces the references in an expression.
* `Symbols.unfolding` is what a reference is replaced by.  It follows the declarations back, so a
  reference is looked for among the formulas in front of the one it stands in.
* `Symbols.expand_formula`: when formulas refer to earlier ones only, a reference and the expression
  of its formula have the same expansion.
* `Symbols.ReferencesDeclared.induct`: induction on expressions that refer to declared formulas
  only.
* `Symbols.expand_closed`: the expansion of such an expression has no references.
-/

namespace PropBench

namespace Expr

mutual

/-- An expression with `σ f` in place of each reference to `f`. -/
def inline (σ : String → Expr) : Expr → Expr
  | .var x => .var x
  | .formula f => σ f
  | .not e => .not (inline σ e)
  | .binary c l r => .binary c (inline σ l) (inline σ r)
  | .apply o args => .apply o (inlineList σ args)

/-- Expressions with `σ f` in place of each reference to `f`. -/
def inlineList (σ : String → Expr) : List Expr → List Expr
  | [] => []
  | a :: as => inline σ a :: inlineList σ as

end

variable {σ τ : String → Expr}

theorem inlineList_eq (σ : String → Expr) (es : List Expr) :
    inlineList σ es = es.map (inline σ) := by
  induction es with
  | nil => rfl
  | cons e es ih => rw [inlineList, ih, List.map_cons]

/-- Only the formulas referred to are put in. -/
theorem inline_congr {e : Expr} (h : ∀ f, .formula f ∈ e.occurrences → σ f = τ f) :
    e.inline σ = e.inline τ := by
  induction e using Expr.induct with
  | var x => rfl
  | formula f => exact h f (List.mem_singleton_self _)
  | not e ih => exact congrArg _ (ih h)
  | binary c l r ihl ihr =>
      rw [inline, inline, ihl fun f hf => h f (List.mem_append_left _ hf),
        ihr fun f hf => h f (List.mem_append_right _ hf)]
  | apply o args ih =>
      have hargs : args.map (inline σ) = args.map (inline τ) :=
        List.map_congr_left fun a ha => ih a ha fun f hf => h f <| by
          rw [occurrences, occurrencesList_eq]
          exact List.mem_cons_of_mem _ (List.mem_flatMap.mpr ⟨a, ha, hf⟩)
      rw [inline, inline, inlineList_eq, inlineList_eq, hargs]

end Expr

namespace Symbols

/-- What a reference is replaced by, when the given formulas are declared, the latest first. -/
def unfolding : List (String × Formula) → String → Expr
  | [], f => .formula f
  | (name, g) :: older, f =>
    if f = name then g.expr.inline (unfolding older) else unfolding older f

/-- An expression with its references replaced, recursively. -/
def expand (s : Symbols) (e : Expr) : Expr := e.inline (unfolding s.formulas.entries.reverse)

variable {s : Symbols}

theorem expand_var (s : Symbols) (x : String) : s.expand (.var x) = .var x := rfl

theorem expand_not (s : Symbols) (e : Expr) : s.expand (.not e) = .not (s.expand e) := rfl

theorem expand_binary (s : Symbols) (c : Binary) (l r : Expr) :
    s.expand (.binary c l r) = .binary c (s.expand l) (s.expand r) := rfl

theorem expand_apply (s : Symbols) (o : String) (args : List Expr) :
    s.expand (.apply o args) = .apply o (args.map s.expand) :=
  congrArg (Expr.apply o) (Expr.inlineList_eq _ args)

/-- Later formulas with other names change nothing. -/
theorem unfolding_append {newer older : List (String × Formula)} {f : String}
    (h : f ∉ newer.map (·.1)) : unfolding (newer ++ older) f = unfolding older f := by
  induction newer with
  | nil => rfl
  | cons e newer ih =>
      rw [List.map_cons, List.mem_cons, not_or] at h
      rw [List.cons_append, unfolding, if_neg h.1, ih h.2]

/-- A reference has the expansion of its formula's expression. -/
theorem expand_formula (hs : s.FormulasOrdered) (hn : s.NamesDistinct) {f : String} {g : Formula}
    (hf : s.formulas.find? f = some g) : s.expand (.formula f) = s.expand g.expr := by
  obtain ⟨before, after, h⟩ := List.append_of_mem (Table.mem_entries hf)
  have hnodup : (before.map (·.1) ++ f :: after.map (·.1)).Nodup := by
    simpa [names, Table.names, h] using hn .formulas
  obtain ⟨-, hlater, hdisjoint⟩ := List.nodup_append.mp hnodup
  have hlast : f ∉ after.reverse.map (·.1) := by simpa using (List.nodup_cons.mp hlater).1
  -- A formula before this one is looked for among those in front of it.
  have hskip : ∀ r ∈ before.map (·.1),
      unfolding before.reverse r = unfolding s.formulas.entries.reverse r := fun r hr => by
    rw [h, List.reverse_append, List.reverse_cons]
    exact (unfolding_append fun hr' => hdisjoint r hr r (by simpa [or_comm] using hr') rfl).symm
  calc s.expand (.formula f)
      = unfolding (after.reverse ++ (f, g) :: before.reverse) f := by
        rw [expand, Expr.inline, h]; simp
    _ = g.expr.inline (unfolding before.reverse) := by
        rw [unfolding_append hlast, unfolding, if_pos rfl]
    _ = s.expand g.expr := Expr.inline_congr fun r hr =>
        hskip r (Table.contains_iff.mp (check_ok_iff.mp (hs before f g after h).1 _ hr))

/-- Every formula an expression refers to is declared. -/
def ReferencesDeclared (s : Symbols) (e : Expr) : Prop :=
  ∀ f, .formula f ∈ e.occurrences → s.formulas.contains f = true

theorem referencesDeclared_of_check {e : Expr} (he : s.check e = .ok ()) :
    s.ReferencesDeclared e := fun _ hf => check_ok_iff.mp he _ hf

/-- Induction on expressions that refer to declared formulas only, which follows the references. -/
theorem ReferencesDeclared.induct (hs : s.FormulasChecked) {motive : Expr → Prop}
    (var : ∀ x, motive (.var x))
    (formula : ∀ f g, s.formulas.find? f = some g → motive g.expr → motive (.formula f))
    (not : ∀ e, motive e → motive (.not e))
    (binary : ∀ c l r, motive l → motive r → motive (.binary c l r))
    (apply : ∀ o args, (∀ a ∈ args, motive a) → motive (.apply o args))
    (e : Expr) (he : s.ReferencesDeclared e) : motive e := by
  induction e using hs.depthsKept.induct with
  | var x => exact var x
  | formula f ih =>
      obtain ⟨g, hg⟩ := Option.isSome_iff_exists.mp (he f (List.mem_singleton_self _))
      exact formula f g hg (ih g hg (referencesDeclared_of_check (hs f g hg).1))
  | not e ih => exact not e (ih he)
  | binary c l r ihl ihr =>
      exact binary c l r (ihl fun f hf => he f (List.mem_append_left _ hf))
        (ihr fun f hf => he f (List.mem_append_right _ hf))
  | apply o args ih =>
      refine apply o args fun a ha => ih a ha fun f hf => he f ?_
      rw [Expr.occurrences, Expr.occurrencesList_eq]
      exact List.mem_cons_of_mem _ (List.mem_flatMap.mpr ⟨a, ha, hf⟩)

/-- The expansion of an expression that refers to declared formulas only has no references. -/
theorem expand_closed (hs : s.FormulasOrdered) (hn : s.NamesDistinct) {e : Expr}
    (he : s.ReferencesDeclared e) : ∀ f, .formula f ∉ (s.expand e).occurrences := by
  refine ReferencesDeclared.induct hs.checked
    (motive := fun e => ∀ f, .formula f ∉ (s.expand e).occurrences) ?var ?formula ?not ?binary
    ?apply e he
  case var => intro x f; simp [expand_var, Expr.occurrences]
  case formula =>
    intro f g hg ih
    rw [expand_formula hs hn hg]
    exact ih
  case not => exact fun _ ih => ih
  case binary =>
    intro c l r ihl ihr f hf
    rw [expand_binary, Expr.occurrences, List.mem_append] at hf
    exact hf.elim (ihl f) (ihr f)
  case apply =>
    intro o args ih f hf
    rw [expand_apply, Expr.occurrences, Expr.occurrencesList_eq] at hf
    obtain ⟨_, hmem, hf⟩ := List.mem_flatMap.mp ((List.mem_cons.mp hf).resolve_left (by simp))
    obtain ⟨a, ha, rfl⟩ := List.mem_map.mp hmem
    exact ih a ha f hf

end Symbols

end PropBench
