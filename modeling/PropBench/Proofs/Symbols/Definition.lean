import PropBench.Proofs.Except
import PropBench.Session.Outcome

/-!
# Proofs — Symbols — Definition

What a statement does to the tables.

* `Symbols.Admits`: what the tables must be like for a definition.
* `Symbols.Adds`: what a definition adds to them.
* `Symbols.on_forM_defineVariable`: variables are declared one by one, which fails at none of them
  once the names have passed the check.
* `Symbols.execute_effect`: a statement leaves the tables as they are, or the tables admit it and it
  leaves them with what it adds (`Symbols.Effect`).
-/

namespace PropBench

/-! ### Work -/

namespace Work

variable {α β : Type} {r : Except Fault α} {f : α → Work β} {s t : Symbols} {b : β}

theorem on_get_bind (f : Symbols → Work α) (s : Symbols) : (get >>= f).on s = (f s).on s := rfl

theorem on_lift_bind_eq_ok :
    (liftM r >>= f).on s = (.ok b, t) ↔ ∃ a, r = .ok a ∧ (f a).on s = (.ok b, t) := by
  rw [on_bind, on_lift]
  cases r <;> simp

/-- Work that leaves the tables as they are if it fails. -/
def Clean (w : Work α) (s : Symbols) : Prop := ∀ f t, w.on s = (.error f, t) → t = s

/-- A check in front keeps work clean. -/
theorem clean_lift_bind (h : ∀ a, r = .ok a → (f a).Clean s) : (liftM r >>= f).Clean s := by
  intro e t he
  rw [on_bind, on_lift] at he
  cases r with
  | error e => cases he; rfl
  | ok a => exact h a rfl e t he

theorem clean_get_bind {f : Symbols → Work α} (h : (f s).Clean s) : (get >>= f).Clean s := h

theorem clean_set (u : Symbols) : (set u : Work PUnit).Clean s := fun _ _ h => by cases h

theorem clean_lift (r : Except Fault α) : (liftM r : Work α).Clean s := fun _ _ h => by
  cases h; rfl

theorem clean_of_ok {w : Work α} {a : α} (h : w.on s = (.ok a, t)) : w.Clean s := fun f u hf => by
  rw [h] at hf; cases hf

/-- Work with an answer made of that of other work. -/
theorem on_bind_pure {w : Work α} {g : α → β} {r : Except Fault β} (hw : w.Clean s)
    (h : (w >>= fun a => pure (g a)).on s = (r, t)) :
    (∃ f, r = .error f ∧ t = s) ∨ ∃ a, r = .ok (g a) ∧ w.on s = (.ok a, t) := by
  rw [on_bind] at h
  cases hr : w.on s with
  | mk x u =>
      rw [hr] at h
      cases x with
      | error f => cases h; exact .inl ⟨f, rfl, hw f _ hr⟩
      | ok a => cases h; exact .inr ⟨a, rfl, rfl⟩

end Work

/-! ### The checks -/

theorem Table.declare_of_contains {space : Namespace} {α : Type} {t : Table space α}
    {name : String} (h : t.contains name = false) (a : α) :
    t.declare name a = .ok (t.size, ⟨t.entries ++ [(name, a)]⟩) :=
  declare_eq_ok_iff.mpr ⟨h, rfl, rfl⟩

theorem Table.resolve_eq_ok_iff {space : Namespace} {α : Type} {t : Table space α} {name : String}
    {a : α} : t.resolve name = .ok a ↔ t.find? name = some a := by
  unfold resolve
  cases t.find? name <;> simp

/-- A name that only is declared or not. -/
theorem Table.resolve_name_iff {space : Namespace} {t : Table space Unit} {name : String} :
    t.resolve name = .ok () ↔ t.contains name = true := by
  rw [resolve_eq_ok_iff, contains, Option.isSome_iff_exists]
  exact (exists_const Unit).symm

namespace Symbols

theorem fresh_eq_ok_iff {s : Symbols} {space : Namespace} {name : String} {u : Unit} :
    s.fresh space name = .ok u ↔ s.contains space name = false := by
  unfold fresh
  split <;> simp_all

/-- Names pass if each passes its test and none is repeated. -/
theorem checkNames_eq_ok_iff {space : Namespace} {test : String → Except Fault Unit}
    {seen names : List String} {u : Unit} :
    checkNames space test seen names = .ok u ↔
      (∀ n ∈ names, test n = .ok ()) ∧ names.Nodup ∧ ∀ n ∈ names, n ∉ seen := by
  induction names generalizing seen with
  | nil => simp [checkNames]
  | cons n ns ih =>
      rw [checkNames, Except.check_bind_eq_ok, List.nodup_cons]
      constructor
      · rintro ⟨hn, h⟩
        split at h
        · cases h
        · next hseen =>
            obtain ⟨htest, hnodup, hns⟩ := ih.mp h
            refine ⟨List.forall_mem_cons.mpr ⟨hn, htest⟩, ⟨fun hmem => ?_, hnodup⟩,
              List.forall_mem_cons.mpr ⟨hseen, fun m hm hs => ?_⟩⟩
            · exact hns n hmem (List.mem_cons_self ..)
            · exact hns m hm (List.mem_cons_of_mem _ hs)
      · rintro ⟨htest, ⟨hmem, hnodup⟩, hseen⟩
        obtain ⟨hn, htest⟩ := List.forall_mem_cons.mp htest
        obtain ⟨hnseen, hseen⟩ := List.forall_mem_cons.mp hseen
        refine ⟨hn, ?_⟩
        rw [if_neg hnseen]
        refine ih.mpr ⟨htest, hnodup, fun m hm hs => ?_⟩
        rcases List.mem_cons.mp hs with rfl | hs
        · exact hmem hm
        · exact hseen m hm hs

/-- No pattern is misfit if all have the arity. -/
theorem firstMisfit?_eq_none_iff {arity : Nat} {es : List Entry} :
    firstMisfit? arity es = none ↔ ∀ cells b, .pattern cells b ∈ es → cells.length = arity := by
  induction es with
  | nil => simp [firstMisfit?]
  | cons e es ih =>
      cases e with
      | pattern cells b =>
          rw [firstMisfit?]
          split
          · next h =>
              rw [ih]
              refine ⟨fun hes cells' b' hmem => ?_, fun hes cells' b' hmem => ?_⟩
              · rcases List.mem_cons.mp hmem with e | hmem
                · cases e; exact h
                · exact hes cells' b' hmem
              · exact hes cells' b' (List.mem_cons_of_mem _ hmem)
          · next h =>
              exact iff_of_false nofun fun hes => h (hes cells b (List.mem_cons_self ..))
      | otherwise b => simp [firstMisfit?, ih]

theorem checkUnreserved_eq_ok_iff {name : String} {u : Unit} :
    checkUnreserved name = .ok u ↔ Connective.ofName? name = none := by
  unfold checkUnreserved
  cases Connective.ofName? name <;> simp

/-- An arity passes if it is within the limit. -/
theorem checkArity_eq_ok_iff {config : Config} {o : Operator} {u : Unit} :
    checkArity config o = .ok u ↔ o.arity ≤ config.maxOperatorArity := by
  unfold checkArity
  split
  · next h => simp [h]
  · next h => simpa using h

/-- Patterns pass if all have the arity of the operator. -/
theorem checkPatterns_eq_ok_iff {o : Operator} {u : Unit} :
    checkPatterns o = .ok u ↔
      ∀ cells b, .pattern cells b ∈ o.table.entries → cells.length = o.arity := by
  rw [← firstMisfit?_eq_none_iff]
  unfold checkPatterns
  cases firstMisfit? o.arity o.table.entries <;> simp

/-- A depth passes if it is within the limit, and is handed on. -/
theorem checkDepth_ok_iff {config : Config} {s : Symbols} {e : Expr} {d : Nat} :
    s.checkDepth config e = .ok d ↔
      s.expandedDepth e ≤ config.maxExpressionDepth ∧ d = s.expandedDepth e := by
  unfold checkDepth
  split
  · next h => simp [h, eq_comm]
  · next h => simp [h]

/-! ### Definitions -/

/-- What a definition asks of the tables.  A statement that is no definition is not admitted as
one. -/
def Admits (config : Config) (s : Symbols) : Statement → Prop
  | .defineVariables names => names.Nodup ∧ ∀ n ∈ names, s.vars.contains n = false
  | .defineFormula name e =>
    s.formulas.contains name = false ∧ s.check e = .ok () ∧
      s.expandedDepth e ≤ config.maxExpressionDepth
  | .defineValuation name assignments =>
    s.valuations.contains name = false ∧ (assignments.map (·.1)).Nodup ∧
      ∀ x ∈ assignments.map (·.1), s.vars.contains x = true
  | .defineOperator o =>
    Connective.ofName? o.name = none ∧ s.operators.contains o.name = false ∧
      o.parameters.Nodup ∧ o.arity ≤ config.maxOperatorArity ∧
      ∀ cells b, .pattern cells b ∈ o.table.entries → cells.length = o.arity
  | .defineOpset name identifiers =>
    s.opsets.contains name = false ∧ ∀ i ∈ identifiers, ∃ o, s.resolveOperator i = .ok o
  | .evaluate _ _ | .adequate _ => False

/-- What a definition adds to the tables: the names it declares in a namespace, with what they
mean, behind those that are there. -/
inductive Adds (s : Symbols) : Statement → Namespace → List String → Symbols → Prop
  | vars (names : List String) :
      Adds s (.defineVariables names) .vars names
        { s with vars := ⟨s.vars.entries ++ names.map (·, ())⟩ }
  | formula (name : String) (e : Expr) :
      Adds s (.defineFormula name e) .formulas [name]
        { s with formulas := ⟨s.formulas.entries ++ [(name, ⟨e, s.expandedDepth e⟩)]⟩ }
  | valuation (name : String) (assignments : List (String × Bool)) :
      Adds s (.defineValuation name assignments) .valuations [name]
        { s with valuations := ⟨s.valuations.entries ++ [(name, ⟨name, assignments⟩)]⟩ }
  | operator (o : Operator) :
      Adds s (.defineOperator o) .operators [o.name]
        { s with operators := ⟨s.operators.entries ++ [(o.name, o)]⟩ }
  | opset (name : String) {identifiers : List String} {operators : List OperatorRef}
      (h : List.Forall₂ (fun i o => s.resolveOperator i = .ok o) identifiers operators) :
      Adds s (.defineOpset name identifiers) .opsets [name]
        { s with opsets := ⟨s.opsets.entries ++ [(name, ⟨name, keepFirst [] operators⟩)]⟩ }

variable {config : Config} {s t : Symbols}

theorem contains_iff {space : Namespace} {name : String} :
    s.contains space name = true ↔ name ∈ s.names space := by
  cases space with
  | parameters => simp [contains, names]
  | _ => exact Table.contains_iff

/-- The names a definition declares come behind those of their namespace. -/
theorem Adds.names_eq {statement : Statement} {space : Namespace} {names : List String}
    (h : s.Adds statement space names t) (other : Namespace) :
    t.names other = s.names other ++ if other = space then names else [] := by
  cases h <;> cases other <;> simp [Symbols.names, Table.names, Function.comp_def]

/-- The names a definition declares are new, and no two of them are equal. -/
theorem Admits.names_fresh {statement : Statement} {space : Namespace} {names : List String}
    (hadm : s.Admits config statement) (hadd : s.Adds statement space names t) :
    names.Nodup ∧ ∀ n ∈ names, s.contains space n = false := by
  cases hadd with
  | vars names => exact hadm
  | operator o => exact ⟨List.nodup_singleton _, List.forall_mem_singleton.mpr hadm.2.1⟩
  | _ => exact ⟨List.nodup_singleton _, List.forall_mem_singleton.mpr hadm.1⟩

theorem on_defineVariable {name : String} (h : s.vars.contains name = false) :
    (defineVariable name).on s = (.ok (), { s with vars := ⟨s.vars.entries ++ [(name, ())]⟩ }) := by
  rw [defineVariable, Work.on_get_bind, Work.on_lift_bind_eq_ok]
  exact ⟨_, Table.declare_of_contains h (), rfl⟩

theorem contains_append {space : Namespace} {α : Type} (table : Table space α)
    (entries : List (String × α)) (name : String) :
    (⟨table.entries ++ entries⟩ : Table space α).contains name = false ↔
      table.contains name = false ∧ name ∉ entries.map (·.1) := by
  rw [← Bool.not_eq_true, ← Bool.not_eq_true, Table.contains_iff, Table.contains_iff, Table.names,
    List.map_append, List.mem_append, not_or]
  rfl

/-- Variables that passed the check are declared one by one, and none of them fails. -/
theorem on_forM_defineVariable {names : List String} (hn : names.Nodup)
    (hs : ∀ n ∈ names, s.vars.contains n = false) :
    (names.forM defineVariable).on s =
      (.ok (), { s with vars := ⟨s.vars.entries ++ names.map (·, ())⟩ }) := by
  induction names generalizing s with
  | nil => simp [Work.on_pure]
  | cons n ns ih =>
      obtain ⟨hmem, hn⟩ := List.nodup_cons.mp hn
      obtain ⟨hfresh, hs⟩ := List.forall_mem_cons.mp hs
      -- The names behind `n` are still fresh: none of them is `n`.
      have hrest := ih (s := { s with vars := ⟨s.vars.entries ++ [(n, ())]⟩ }) hn fun m hm =>
        (contains_append _ _ _).mpr ⟨hs m hm, by simpa using fun e : m = n => hmem (e ▸ hm)⟩
      rw [List.forM, Work.on_bind, on_defineVariable hfresh]
      simpa using hrest

/-- Variables are defined if they are admitted, and are added in order. -/
theorem defineVariables_eq_ok (config : Config) {names : List String} {u : Unit} :
    (defineVariables names).on s = (.ok u, t) ↔
      s.Admits config (.defineVariables names) ∧
        t = { s with vars := ⟨s.vars.entries ++ names.map (·, ())⟩ } := by
  rw [defineVariables, Work.on_get_bind, Work.on_lift_bind_eq_ok]
  simp only [checkNames_eq_ok_iff, fresh_eq_ok_iff, Admits]
  constructor
  · rintro ⟨_, ⟨hs, hn, -⟩, h⟩
    rw [on_forM_defineVariable hn hs] at h
    cases h; exact ⟨⟨hn, hs⟩, rfl⟩
  · rintro ⟨⟨hn, hs⟩, rfl⟩
    exact ⟨(), ⟨hs, hn, by simp⟩, on_forM_defineVariable hn hs⟩

/-- A formula is defined if it is admitted, and keeps its expanded depth. -/
theorem defineFormula_eq_ok {name : String} {e : Expr} {u : Unit} :
    (defineFormula config name e).on s = (.ok u, t) ↔
      s.Admits config (.defineFormula name e) ∧
        t = { s with formulas := ⟨s.formulas.entries ++ [(name, ⟨e, s.expandedDepth e⟩)]⟩ } := by
  rw [defineFormula, Work.on_get_bind]
  simp only [Work.on_lift_bind_eq_ok, fresh_eq_ok_iff, checkDepth_ok_iff, Admits]
  constructor
  · rintro ⟨_, hf, _, hc, _, ⟨hd, rfl⟩, _, hu, h⟩
    rw [Table.declare_of_contains hf] at hu
    cases hu; cases h; exact ⟨⟨hf, hc, hd⟩, rfl⟩
  · rintro ⟨⟨hf, hc, hd⟩, rfl⟩
    exact ⟨(), hf, (), hc, _, ⟨hd, rfl⟩, _, Table.declare_of_contains hf _, rfl⟩

/-- A valuation is defined if it is admitted, with its assignments in order. -/
theorem defineValuation_eq_ok (config : Config) {name : String}
    {assignments : List (String × Bool)} {u : Unit} :
    (defineValuation name assignments).on s = (.ok u, t) ↔
      s.Admits config (.defineValuation name assignments) ∧
        t = { s with
          valuations := ⟨s.valuations.entries ++ [(name, ⟨name, assignments⟩)]⟩ } := by
  rw [defineValuation, Work.on_get_bind]
  simp only [Work.on_lift_bind_eq_ok, fresh_eq_ok_iff, checkNames_eq_ok_iff, Table.resolve_name_iff,
    Admits]
  constructor
  · rintro ⟨_, hf, _, ⟨hx, hn, -⟩, _, hu, h⟩
    rw [Table.declare_of_contains hf] at hu
    cases hu; cases h; exact ⟨⟨hf, hn, hx⟩, rfl⟩
  · rintro ⟨⟨hf, hn, hx⟩, rfl⟩
    exact ⟨(), hf, (), ⟨hx, hn, by simp⟩, _, Table.declare_of_contains hf _, rfl⟩

/-- An operator is defined if it is admitted, as it stands. -/
theorem defineOperator_eq_ok {o : Operator} {u : Unit} :
    (defineOperator config o).on s = (.ok u, t) ↔
      s.Admits config (.defineOperator o) ∧
        t = { s with operators := ⟨s.operators.entries ++ [(o.name, o)]⟩ } := by
  rw [defineOperator, Work.on_get_bind]
  simp only [Work.on_lift_bind_eq_ok, checkUnreserved_eq_ok_iff, fresh_eq_ok_iff,
    checkNames_eq_ok_iff, checkArity_eq_ok_iff, checkPatterns_eq_ok_iff, Admits]
  constructor
  · rintro ⟨_, hc, _, hf, _, ⟨-, hn, -⟩, _, ha, _, hp, _, hu, h⟩
    rw [Table.declare_of_contains hf] at hu
    cases hu; cases h; exact ⟨⟨hc, hf, hn, ha, hp⟩, rfl⟩
  · rintro ⟨⟨hc, hf, hn, ha, hp⟩, rfl⟩
    exact ⟨(), hc, (), hf, (), ⟨fun _ _ => trivial, hn, by simp⟩, (), ha, (), hp, _,
      Table.declare_of_contains hf _, rfl⟩

/-- An operator set is defined if its identifiers name operators, each of which it keeps once. -/
theorem defineOpset_eq_ok {name : String} {identifiers : List String} {u : Unit} :
    (defineOpset name identifiers).on s = (.ok u, t) ↔
      s.opsets.contains name = false ∧ ∃ operators,
        List.Forall₂ (fun i o => s.resolveOperator i = .ok o) identifiers operators ∧
        t = { s with
          opsets := ⟨s.opsets.entries ++ [(name, ⟨name, keepFirst [] operators⟩)]⟩ } := by
  rw [defineOpset, Work.on_get_bind]
  simp only [Work.on_lift_bind_eq_ok, fresh_eq_ok_iff, resolveOperators, Except.mapM_eq_ok]
  constructor
  · rintro ⟨_, hf, operators, hr, _, hu, h⟩
    rw [Table.declare_of_contains hf] at hu
    cases hu; cases h; exact ⟨hf, operators, hr, rfl⟩
  · rintro ⟨hf, operators, hr, rfl⟩
    exact ⟨(), hf, operators, hr, _, Table.declare_of_contains hf _, rfl⟩

/-! ### Statements -/

/-- Variables are checked before any of them is added. -/
theorem defineVariables_clean (names : List String) (s : Symbols) :
    (defineVariables names).Clean s := by
  refine Work.clean_get_bind (Work.clean_lift_bind fun _ h => ?_)
  simp only [checkNames_eq_ok_iff, fresh_eq_ok_iff] at h
  exact Work.clean_of_ok (on_forM_defineVariable h.2.1 h.1)

/-- A formula is checked before it is added. -/
theorem defineFormula_clean (name : String) (e : Expr) (s : Symbols) :
    (defineFormula config name e).Clean s :=
  Work.clean_get_bind <| Work.clean_lift_bind fun _ _ => Work.clean_lift_bind fun _ _ =>
    Work.clean_lift_bind fun _ _ => Work.clean_lift_bind fun _ _ => Work.clean_set _

theorem defineValuation_clean (name : String) (assignments : List (String × Bool)) (s : Symbols) :
    (defineValuation name assignments).Clean s :=
  Work.clean_get_bind <| Work.clean_lift_bind fun _ _ => Work.clean_lift_bind fun _ _ =>
    Work.clean_lift_bind fun _ _ => Work.clean_set _

theorem defineOperator_clean (o : Operator) (s : Symbols) : (defineOperator config o).Clean s :=
  Work.clean_get_bind <| Work.clean_lift_bind fun _ _ => Work.clean_lift_bind fun _ _ =>
    Work.clean_lift_bind fun _ _ => Work.clean_lift_bind fun _ _ =>
      Work.clean_lift_bind fun _ _ => Work.clean_lift_bind fun _ _ => Work.clean_set _

theorem defineOpset_clean (name : String) (identifiers : List String) (s : Symbols) :
    (defineOpset name identifiers).Clean s :=
  Work.clean_get_bind <| Work.clean_lift_bind fun _ _ => Work.clean_lift_bind fun _ _ =>
    Work.clean_lift_bind fun _ _ => Work.clean_set _

/-- What a statement with the outcome `r` can do to the tables: it leaves them as they are, or the
tables admit it and it leaves them with what it adds. -/
def Effect (config : Config) (s : Symbols) (statement : Statement) (r : Except Fault Outcome)
    (t : Symbols) : Prop :=
  (t = s ∧ ∀ space names, r ≠ .ok (.declared space names)) ∨
    ∃ space names, r = .ok (.declared space names) ∧ s.Admits config statement ∧
      s.Adds statement space names t

variable {statement : Statement} {r : Except Fault Outcome}

/-- Clean work that adds what a statement declares has the effect of the statement. -/
theorem effect_of_definition {space : Namespace} {names : List String} {w : Work Unit}
    (hw : w.Clean s)
    (hok : ∀ u t, w.on s = (.ok u, t) →
      s.Admits config statement ∧ s.Adds statement space names t)
    (h : (do w; return .declared space names : Work Outcome).on s = (r, t)) :
    Effect config s statement r t := by
  rcases Work.on_bind_pure hw h with ⟨f, rfl, rfl⟩ | ⟨u, rfl, ht⟩
  · exact .inl ⟨rfl, nofun⟩
  · exact .inr ⟨space, names, rfl, hok u t ht⟩

/-- A question has no effect but its answer. -/
theorem effect_of_question {α : Type} {answer : Except Fault α} {g : α → Outcome}
    (hg : ∀ a space names, g a ≠ .declared space names)
    (h : (do return g (← liftM answer) : Work Outcome).on s = (r, t)) :
    Effect config s statement r t := by
  rcases Work.on_bind_pure (Work.clean_lift _) h with ⟨f, rfl, rfl⟩ | ⟨a, rfl, ht⟩
  · exact .inl ⟨rfl, nofun⟩
  · refine .inl ⟨(congrArg Prod.snd ht).symm, fun space names h => ?_⟩
    exact hg a space names (Except.ok.inj h)

/-- **What a statement does to the tables.** -/
theorem execute_effect (h : (execute config statement).on s = (r, t)) :
    Effect config s statement r t := by
  cases statement with
  | defineVariables names =>
      refine effect_of_definition (defineVariables_clean names s) (fun _ _ h => ?_) h
      obtain ⟨hadm, rfl⟩ := (defineVariables_eq_ok config).mp h
      exact ⟨hadm, .vars names⟩
  | defineFormula name e =>
      refine effect_of_definition (defineFormula_clean name e s) (fun _ _ h => ?_) h
      obtain ⟨hadm, rfl⟩ := defineFormula_eq_ok.mp h
      exact ⟨hadm, .formula name e⟩
  | defineValuation name assignments =>
      refine effect_of_definition (defineValuation_clean name assignments s) (fun _ _ h => ?_) h
      obtain ⟨hadm, rfl⟩ := (defineValuation_eq_ok config).mp h
      exact ⟨hadm, .valuation name assignments⟩
  | defineOperator o =>
      refine effect_of_definition (defineOperator_clean o s) (fun _ _ h => ?_) h
      obtain ⟨hadm, rfl⟩ := defineOperator_eq_ok.mp h
      exact ⟨hadm, .operator o⟩
  | defineOpset name identifiers =>
      refine effect_of_definition (defineOpset_clean name identifiers s) (fun _ _ h => ?_) h
      obtain ⟨hfresh, operators, hr, rfl⟩ := defineOpset_eq_ok.mp h
      exact ⟨⟨hfresh, fun i hi => (exists_of_forall₂ hr hi).imp fun _ h => h.2⟩, .opset name hr⟩
  | evaluate f v => exact effect_of_question (g := .evaluated f v) nofun h
  | adequate o => exact effect_of_question (g := .adequacy) nofun h

end Symbols

end PropBench
