import PropBench.Proofs.Symbols.Evaluation

/-!
# Proofs — Symbols — Well-formed tables

What every statement keeps of the tables, one part for each table.

* `Symbols.FormulasOrdered`: a formula uses what is declared, and of formulas those before it.
* `Symbols.ValuationsProper`, `Symbols.OperatorsProper`, `Symbols.OpsetsProper`: what the other
  declarations ask for still holds.
* `Symbols.NamesDistinct`: no name is declared twice in a namespace.
* `Symbols.FormulasChecked.induct`: induction on expressions that pass the check, which follows
  references.
-/

namespace PropBench

namespace Symbols

variable {config : Config} {s t : Symbols} {statement : Statement} {space : Namespace}
  {names : List String}

/-! ### Formulas -/

/-- Every formula passes the check, and is kept with its depth, references expanded. -/
def FormulasChecked (s : Symbols) : Prop :=
  ∀ name f, s.formulas.find? name = some f →
    s.check f.expr = .ok () ∧ f.depth = s.expandedDepth f.expr

/-- A formula that passes is as deep as it is stored to be. -/
theorem FormulasChecked.depthsKept (h : s.FormulasChecked) : s.DepthsKept :=
  fun name f hf => (h name f hf).2

/-- A checked formula stays checked in an extension. -/
theorem Extends.formula_checked (h : s.Extends t) {f : Formula}
    (hf : s.check f.expr = .ok () ∧ f.depth = s.expandedDepth f.expr) :
    t.check f.expr = .ok () ∧ f.depth = t.expandedDepth f.expr :=
  ⟨h.check f.expr hf.1, hf.2.trans (h.expandedDepth f.expr hf.1).symm⟩

/-- The tables with the formulas `entries` only. -/
def withFormulas (s : Symbols) (entries : List (String × Formula)) : Symbols :=
  { s with formulas := ⟨entries⟩ }

theorem Extends.withFormulas (h : s.Extends t) (entries : List (String × Formula)) :
    (s.withFormulas entries).Extends (t.withFormulas entries) :=
  { h with formulas := .refl _ }

/-- The tables with the formulas in front of one only. -/
theorem withFormulas_extends {before after : List (String × Formula)} {e : String × Formula}
    (h : s.formulas.entries = before ++ e :: after) : (s.withFormulas before).Extends s := by
  have hs : s = s.withFormulas (before ++ e :: after) := by rw [← h]; rfl
  conv => rhs; rw [hs]
  exact { Extends.refl _ with formulas := .of_append _ _ }

/-- Every formula passes the check when only those before it are declared, and is kept with its
depth, references expanded. -/
def FormulasOrdered (s : Symbols) : Prop :=
  ∀ before name f after, s.formulas.entries = before ++ (name, f) :: after →
    (s.withFormulas before).check f.expr = .ok () ∧
      f.depth = (s.withFormulas before).expandedDepth f.expr

theorem FormulasOrdered.empty : FormulasOrdered {} := fun before _ _ _ h => by
  cases before <;> cases h

/-- A statement keeps the formulas in order. -/
theorem FormulasOrdered.step (hs : s.FormulasOrdered) (h : Step config s t) :
    t.FormulasOrdered := by
  cases h with
  | unchanged => exact hs
  | added hadm hadd =>
      have hext := hadd.extends
      cases hadd with
      | formula name e =>
          intro before n f after h
          rcases List.eq_nil_or_concat after with rfl | ⟨init, last, rfl⟩
          · -- The formula declared last, which was checked when all others were declared.
            obtain ⟨rfl, he⟩ := List.append_inj' h rfl
            cases he
            exact ⟨hadm.2.1, rfl⟩
          · rw [List.concat_eq_append, ← List.cons_append, ← List.append_assoc] at h
            exact hs before n f init (List.append_inj' h rfl).1
      | _ =>
          intro before n f after h
          exact (hext.withFormulas before).formula_checked (hs before n f after h)

/-- A formula that refers to earlier ones passes with all of them. -/
theorem FormulasOrdered.checked (hs : s.FormulasOrdered) : s.FormulasChecked := fun name f hf => by
  obtain ⟨before, after, h⟩ := List.append_of_mem (Table.mem_entries hf)
  exact (withFormulas_extends h).formula_checked (hs before name f after h)

/-- Induction on expressions that pass the check, which follows references. -/
theorem FormulasChecked.induct (hs : s.FormulasChecked) {motive : Expr → Prop}
    (var : ∀ x, s.vars.contains x = true → motive (.var x))
    (formula : ∀ f g, s.formulas.find? f = some g → motive g.expr → motive (.formula f))
    (not : ∀ e, motive e → motive (.not e))
    (binary : ∀ c l r, motive l → motive r → motive (.binary c l r))
    (apply : ∀ o operator args, s.operators.find? o = some operator →
      operator.arity = args.length → (∀ a ∈ args, motive a) → motive (.apply o args))
    (e : Expr) (he : s.check e = .ok ()) : motive e := by
  induction e using hs.depthsKept.induct with
  | var x => exact var x (check_ok_iff.mp he _ (List.mem_singleton_self _))
  | formula f ih =>
      obtain ⟨g, hg⟩ :=
        Option.isSome_iff_exists.mp (check_ok_iff.mp he _ (List.mem_singleton_self _))
      exact formula f g hg (ih g hg (hs f g hg).1)
  | not e ih => exact not e (ih he)
  | binary c l r ihl ihr =>
      obtain ⟨hl, hr⟩ := Expr.forall_occurrences_binary.mp (check_ok_iff.mp he)
      exact binary c l r (ihl (check_ok_iff.mpr hl)) (ihr (check_ok_iff.mpr hr))
  | apply o args ih =>
      obtain ⟨⟨operator, ho, hn⟩, hargs⟩ := Expr.forall_occurrences_apply.mp (check_ok_iff.mp he)
      exact apply o operator args ho hn fun a ha => ih a ha (check_ok_iff.mpr (hargs a ha))

/-! ### Names -/

/-- No name is declared twice in a namespace. -/
def NamesDistinct (s : Symbols) : Prop := ∀ space, (s.names space).Nodup

theorem NamesDistinct.empty : NamesDistinct {} := fun space => by
  cases space <;> exact List.nodup_nil

/-- A statement keeps the names distinct. -/
theorem NamesDistinct.step (hs : s.NamesDistinct) (h : Step config s t) : t.NamesDistinct := by
  cases h with
  | unchanged => exact hs
  | @added statement space names t hadm hadd =>
      intro other
      rw [hadd.names_eq]
      split
      · next h =>
          obtain ⟨hn, hfresh⟩ := hadm.names_fresh hadd
          refine List.nodup_append.mpr ⟨hs other, hn, ?_⟩
          rintro n hold _ hnew rfl
          rw [← h] at hfresh
          exact absurd (contains_iff.mpr hold) (by simp [hfresh n hnew])
      · rw [List.append_nil]; exact hs other

end Symbols

/-! ### Valuations, operators and operator sets -/

/-- The names of the connectives, in upper case. -/
def Connective.names : List String := ["NOT", "AND", "OR", "IMPLIES", "THEN", "IFF"]

theorem Connective.ofName?_eq_none_iff {name : String} :
    ofName? name = none ↔ name.toUpper ∉ names := by
  rw [ofName?, ofUpperName?.eq_def, names]
  split <;> simp_all

theorem Connective.ofName?_ne_none_iff {name : String} :
    ofName? name ≠ none ↔ name.toUpper ∈ names := by
  rw [Ne, ofName?_eq_none_iff, not_not]

/-- An operator as a declaration asks for it, under some limit on the arity. -/
structure Operator.IsProper (o : Operator) : Prop where
  name : o.name.toUpper ∉ Connective.names
  parameters : o.parameters.Nodup
  arity : o.arity ≤ arityCeiling
  patterns : ∀ cells b, .pattern cells b ∈ o.table.entries → cells.length = o.arity

namespace Symbols

variable {config : Config} {s t : Symbols}

/-- Every valuation assigns values to declared variables, to none of them twice. -/
def ValuationsProper (s : Symbols) : Prop :=
  ∀ e ∈ s.valuations.entries, e.2.vars.Nodup ∧ ∀ x ∈ e.2.vars, s.vars.contains x = true

/-- A statement keeps the valuations proper. -/
theorem ValuationsProper.step (hs : s.ValuationsProper) (h : Step config s t) :
    t.ValuationsProper := by
  have hext := h.extends
  have hold : ∀ e ∈ s.valuations.entries,
      e.2.vars.Nodup ∧ ∀ x ∈ e.2.vars, t.vars.contains x = true :=
    fun e he => (hs e he).imp_right fun hx x h => hext.vars.contains (hx x h)
  cases h with
  | unchanged => exact hs
  | added hadm hadd =>
      cases hadd with
      | valuation name assignments =>
          exact List.forall_mem_append.mpr ⟨hold, List.forall_mem_singleton.mpr hadm.2⟩
      | _ => exact hold

/-- Every operator is proper, and declared under its own name. -/
def OperatorsProper (s : Symbols) : Prop :=
  ∀ e ∈ s.operators.entries, e.1 = e.2.name ∧ e.2.IsProper

/-- A statement keeps the operators proper. -/
theorem OperatorsProper.step (hs : s.OperatorsProper) (h : Step config s t) :
    t.OperatorsProper := by
  cases h with
  | unchanged => exact hs
  | added hadm hadd =>
      cases hadd with
      | operator o =>
          obtain ⟨hname, -, hparameters, harity, hpatterns⟩ := hadm
          refine List.forall_mem_append.mpr ⟨hs, List.forall_mem_singleton.mpr ⟨rfl, ?_⟩⟩
          exact ⟨Connective.ofName?_eq_none_iff.mp hname, hparameters,
            harity.trans config.arity_le, hpatterns⟩
      | _ => exact hs

/-- Keeping the first of each leaves out what was seen before. -/
theorem keepFirst_eq (seen os : List OperatorRef) :
    keepFirst seen os = (os.filter fun o => decide (o ∉ seen)).eraseDups := by
  induction os generalizing seen with
  | nil => rfl
  | cons o os ih =>
      rw [keepFirst]
      split
      · next h => rw [ih, List.filter_cons_of_neg (by simpa using h)]
      · next h =>
          rw [ih, List.filter_cons_of_pos (by simpa using h), List.eraseDups_cons,
            List.filter_filter]
          congr 2
          refine List.filter_congr fun a _ => ?_
          by_cases e : a = o <;> simp [e]

/-- Kept are the operators without repetitions, by first mention. -/
theorem keepFirst_nil (os : List OperatorRef) : keepFirst [] os = os.eraseDups := by
  rw [keepFirst_eq]
  simp

/-- Keeping the first of each loses no member. -/
theorem mem_keepFirst_nil {os : List OperatorRef} {o : OperatorRef} :
    o ∈ keepFirst [] os ↔ o ∈ os := by
  rw [keepFirst_nil, List.mem_eraseDups]

/-- An identifier stands for the connective that it names, or else for itself. -/
theorem resolveOperator_eq_ok_iff {i : String} {o : OperatorRef} :
    s.resolveOperator i = .ok o ↔
      (∃ c, Connective.ofName? i = some c ∧ o = .builtin c) ∨
        Connective.ofName? i = none ∧ s.operators.contains i = true ∧ o = .custom i := by
  unfold resolveOperator
  cases Connective.ofName? i with
  | some c => simp only [Except.ok.injEq, Option.some.injEq, exists_eq_left', reduceCtorEq,
      false_and, or_false, eq_comm]
  | none =>
      simp only [Except.map_eq_ok, exists_and_right, exists_resolve_iff, reduceCtorEq, false_and,
        exists_false, true_and, false_or]
      exact and_congr_right' eq_comm

/-- A connective, or a declared operator. -/
def HasOperator (s : Symbols) : OperatorRef → Prop
  | .builtin _ => True
  | .custom n => s.operators.contains n = true

/-- What an identifier stands for is there. -/
theorem hasOperator_of_resolveOperator {i : String} {o : OperatorRef}
    (h : s.resolveOperator i = .ok o) : s.HasOperator o := by
  rcases resolveOperator_eq_ok_iff.mp h with ⟨c, -, rfl⟩ | ⟨-, hi, rfl⟩
  · trivial
  · exact hi

/-- An identifier that names a declared operator is its name. -/
theorem eq_of_resolveOperator {i n : String} (h : s.resolveOperator i = .ok (.custom n)) :
    n = i := by
  rcases resolveOperator_eq_ok_iff.mp h with ⟨c, -, he⟩ | ⟨-, -, he⟩
  · cases he
  · exact OperatorRef.custom.inj he

/-- Every operator set lists connectives and declared operators, none of them twice. -/
def OpsetsProper (s : Symbols) : Prop :=
  ∀ e ∈ s.opsets.entries,
    e.2.operators.Nodup ∧ ∀ n, .custom n ∈ e.2.operators → s.operators.contains n = true

/-- A statement keeps the operator sets proper. -/
theorem OpsetsProper.step (hs : s.OpsetsProper) (h : Step config s t) : t.OpsetsProper := by
  have hext := h.extends
  have hold : ∀ e ∈ s.opsets.entries,
      e.2.operators.Nodup ∧ ∀ n, .custom n ∈ e.2.operators → t.operators.contains n = true :=
    fun e he => (hs e he).imp_right fun hn n h => hext.operators.contains (hn n h)
  cases h with
  | unchanged => exact hs
  | added hadm hadd =>
      cases hadd with
      | @opset name identifiers operators hr =>
          refine List.forall_mem_append.mpr ⟨hold, List.forall_mem_singleton.mpr
            ⟨keepFirst_nil operators ▸ nodup_eraseDups operators, fun n hn => ?_⟩⟩
          obtain ⟨i, -, hi⟩ := exists_of_forall₂ hr.flip (mem_keepFirst_nil.mp hn)
          exact hasOperator_of_resolveOperator hi
      | _ => exact hold

/-- The members of a declared set are there. -/
theorem OpsetsProper.hasOperator (hs : s.OpsetsProper) {name : String} {set : OperatorSet}
    (hset : s.opsets.find? name = some set) : ∀ o ∈ set.operators, s.HasOperator o := by
  intro o ho
  cases o with
  | builtin c => trivial
  | custom n => exact (hs _ (Table.mem_entries hset)).2 n ho

end Symbols

end PropBench
