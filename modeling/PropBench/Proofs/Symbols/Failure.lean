import PropBench.Proofs.Symbols.Extension

/-!
# Proofs — Symbols — Failure

The faults of the checks that a definition makes, and when a check has them.  A lemma `…_fails` has
one hypothesis for each fault of its check: what is to hold of the fault, given what is wrong.

* `FailsOnly.get_bind`, `FailsOnly.lift_bind` and the like put the steps of work on the tables
  together.
* `Symbols.Lacks`: what is wrong with a name in an expression, and the fault that says so.
* `Symbols.check_fails`: the check of an expression fails with such a fault of a name in it.
-/

namespace PropBench

variable {Q : Fault → Prop} {α β : Type}

/-! ### Work -/

namespace FailsOnly

variable {r : Except Fault α} {w : Work α} {s t : Symbols}

/-- Work fails in the step in front, or behind it. -/
theorem lift_bind {f : α → Work β} (hr : FailsOnly Q r)
    (hf : ∀ a, r = .ok a → FailsOnly Q ((f a).on s).1) : FailsOnly Q ((liftM r >>= f).on s).1 := by
  rw [Work.on_bind, Work.on_lift]
  cases r with
  | error e => exact .error (hr e rfl)
  | ok a => exact hf a rfl

theorem get_bind {f : Symbols → Work α} (h : FailsOnly Q ((f s).on s).1) :
    FailsOnly Q ((get >>= f).on s).1 := h

theorem set (t : Symbols) : FailsOnly Q ((set t : Work PUnit).on s).1 := .ok ()

theorem of_ok {a : α} (h : w.on s = (.ok a, t)) : FailsOnly Q (w.on s).1 := by
  rw [h]
  exact .ok a

theorem bind_pure {g : α → β} (hw : FailsOnly Q (w.on s).1) :
    FailsOnly Q ((w >>= fun a => pure (g a)).on s).1 := by
  rw [Work.on_bind]
  cases h : w.on s with
  | mk r t =>
      rw [h] at hw
      cases r with
      | error f => exact .error (hw f rfl)
      | ok a => exact .ok (g a)

end FailsOnly

/-! ### Names -/

variable {space : Namespace} {n : String}

theorem Table.resolve_fails {table : Table space α}
    (h : table.contains n = false → Q (.unknown space n)) : FailsOnly Q (table.resolve n) := by
  unfold resolve
  split
  · exact .ok _
  · next hnone => exact .error (h (by rw [contains, hnone]; rfl))

theorem Table.declare_fails {table : Table space α} {a : α}
    (h : table.contains n = true → Q (.duplicate space n)) : FailsOnly Q (table.declare n a) := by
  intro f hf
  obtain ⟨hcontains, rfl⟩ := declare_eq_error_iff.mp hf
  exact h hcontains

/-- A name that passed the check for fresh names is declared. -/
theorem Table.declare_never_fails {table : Table space α} (h : table.contains n = false) (a : α) :
    FailsOnly Q (table.declare n a) := by
  rw [declare_of_contains h]
  exact .ok _

namespace Symbols

variable {s : Symbols} {config : Config} {o : String}

theorem fresh_fails (h : s.contains space n = true → Q (.duplicate space n)) :
    FailsOnly Q (s.fresh space n) := by
  unfold fresh
  split
  · next hcontains => exact .error (h hcontains)
  · exact .ok ()

/-- A list of names fails at one that does not pass the test, or at one that was there before. -/
theorem checkNames_fails {test : String → Except Fault Unit} {seen names : List String}
    (htest : ∀ n ∈ names, FailsOnly Q (test n))
    (hrepeated : ∀ n ∈ names, n ∈ seen ∨ names.Duplicate n → Q (.duplicate space n)) :
    FailsOnly Q (checkNames space test seen names) := by
  induction names generalizing seen with
  | nil => exact .ok ()
  | cons n ns ih =>
      obtain ⟨htest, htests⟩ := List.forall_mem_cons.mp htest
      rw [checkNames]
      refine htest.bind fun _ _ => ?_
      split
      · next hseen => exact .error (hrepeated n List.mem_cons_self (.inl hseen))
      · refine ih htests fun m hm h => hrepeated m (List.mem_cons_of_mem n hm) ?_
        rcases h with hseen | hdup
        · -- A name that is `n` stands at the head and further down.
          rcases List.mem_cons.mp hseen with rfl | hseen
          · exact .inr (.cons_mem hm)
          · exact .inl hseen
        · exact .inr (hdup.duplicate_cons n)

/-! ### Expressions -/

/-- What is wrong with a name in an expression, and the fault that says so. -/
inductive Lacks (s : Symbols) : Occurrence → Fault → Prop
  | var {x : String} (h : s.vars.contains x = false) : Lacks s (.var x) (.unknown .vars x)
  | formula {f : String} (h : s.formulas.contains f = false) :
      Lacks s (.formula f) (.unknown .formulas f)
  | operator {o : String} {count : Nat} (h : s.operators.contains o = false) :
      Lacks s (.operator o count) (.unknown .operators o)
  | arguments {o : String} {count : Nat} {operator : Operator}
      (h : s.operators.find? o = some operator) (hcount : operator.arity ≠ count) :
      Lacks s (.operator o count) (.arityMismatch o operator.arity count)

/-- What is wrong with a name is that it is not known as it is used. -/
theorem Lacks.not_knows {o : Occurrence} {f : Fault} (h : s.Lacks o f) : ¬ s.Knows o := by
  cases h with
  | var h | formula h => simp [Knows, h]
  | operator h =>
      rintro ⟨operator, hfind, -⟩
      rw [Table.contains, hfind] at h
      cases h
  | arguments h hcount =>
      rintro ⟨operator, hfind, harity⟩
      cases h.symm.trans hfind
      exact hcount harity

/-- An operator fails to be found as something is wrong with its name. -/
theorem operatorFor_fails {count : Nat} (h : ∀ f, s.Lacks (.operator o count) f → Q f) :
    FailsOnly Q (s.operatorFor o count) := by
  refine (Table.resolve_fails fun hno => h _ (.operator hno)).bind fun operator hfind => ?_
  split
  · exact .ok _
  · next hcount => exact .error (h _ (.arguments (Table.resolve_eq_ok_iff.mp hfind) hcount))

theorem checkList_fails {args : List Expr} (h : ∀ a ∈ args, FailsOnly Q (s.check a)) :
    FailsOnly Q (s.checkList args) := by
  induction args with
  | nil => exact .ok ()
  | cons a args ih =>
      obtain ⟨ha, hargs⟩ := List.forall_mem_cons.mp h
      rw [checkList]
      exact ha.bind fun _ _ => ih hargs

/-- An expression fails as something is wrong with a name in it. -/
theorem check_fails {e : Expr} :
    (∀ o ∈ e.occurrences, ∀ f, s.Lacks o f → Q f) → FailsOnly Q (s.check e) := by
  induction e using Expr.induct with
  | var x =>
      exact fun h => Table.resolve_fails fun hx => h _ (List.mem_singleton_self _) _ (.var hx)
  | formula f =>
      exact fun h => (Table.resolve_fails fun hf =>
        h _ (List.mem_singleton_self _) _ (.formula hf)).map _
  | not e ih => exact ih
  | binary c l r ihl ihr =>
      rw [Expr.forall_occurrences_binary]
      exact fun h => (ihl h.1).bind fun _ _ => ihr h.2
  | apply o args ih =>
      rw [Expr.forall_occurrences_apply]
      intro h
      rw [check]
      exact (operatorFor_fails h.1).bind fun _ _ => checkList_fails fun a ha => ih a ha (h.2 a ha)

/-- A depth fails if it is above the limit. -/
theorem checkDepth_fails {e : Expr}
    (h : config.maxExpressionDepth < s.expandedDepth e →
      Q (.depthLimit (s.expandedDepth e) config.maxExpressionDepth)) :
    FailsOnly Q (s.checkDepth config e) := by
  unfold checkDepth
  split
  · exact .ok _
  · next hdepth => exact .error (h (Nat.lt_of_not_le hdepth))

/-! ### Operators and operator sets -/

theorem checkUnreserved_fails (h : Connective.ofName? n ≠ none → Q (.duplicate .operators n)) :
    FailsOnly Q (checkUnreserved n) := by
  unfold checkUnreserved
  split
  · next hsome => exact .error (h (Option.isSome_iff_ne_none.mp hsome))
  · exact .ok ()

/-- An arity fails if it is above the limit. -/
theorem checkArity_fails {o : Operator}
    (h : config.maxOperatorArity < o.arity →
      Q (.arityLimit o.name o.arity config.maxOperatorArity)) :
    FailsOnly Q (checkArity config o) := by
  unfold checkArity
  split
  · next hlt => exact .error (h hlt)
  · exact .ok ()

/-- The first misfit is a pattern of another length. -/
theorem of_firstMisfit? {arity found : Nat} {es : List Entry}
    (h : firstMisfit? arity es = some found) :
    ∃ cells b, .pattern cells b ∈ es ∧ cells.length ≠ arity ∧ cells.length = found := by
  induction es with
  | nil => cases h
  | cons e es ih =>
      have htail : firstMisfit? arity es = some found → ∃ cells b, .pattern cells b ∈ e :: es ∧
          cells.length ≠ arity ∧ cells.length = found := fun h => by
        obtain ⟨cells, b, hmem, hne⟩ := ih h
        exact ⟨cells, b, List.mem_cons_of_mem e hmem, hne⟩
      cases e with
      | pattern cells b =>
          rw [firstMisfit?] at h
          split at h
          · exact htail h
          · next hne => exact ⟨cells, b, List.mem_cons_self, hne, Option.some.inj h⟩
      | otherwise b => exact htail h

/-- Patterns fail at one of another length than the arity. -/
theorem checkPatterns_fails {o : Operator}
    (h : ∀ cells b, .pattern cells b ∈ o.table.entries → cells.length ≠ o.arity →
      Q (.arityMismatch o.name o.arity cells.length)) :
    FailsOnly Q (checkPatterns o) := by
  unfold checkPatterns
  split
  · next hfound =>
      obtain ⟨cells, b, hmem, hne, rfl⟩ := of_firstMisfit? hfound
      exact .error (h cells b hmem hne)
  · exact .ok ()

/-- An identifier fails if it names neither a connective nor an operator. -/
theorem resolveOperator_fails {i : String}
    (h : Connective.ofName? i = none → s.operators.contains i = false → Q (.unknown .operators i)) :
    FailsOnly Q (s.resolveOperator i) := by
  unfold resolveOperator
  split
  · exact .ok _
  · next hnone => exact (Table.resolve_fails (h hnone)).map _

end Symbols

end PropBench
