import PropBench.Proofs.Logic.Decision
import PropBench.Proofs.Symbols.Composition
import PropBench.Proofs.Symbols.Safety

/-!
# Proofs — Symbols — Operator sets

What the check of an operator set comes to, by the tables of its members.

* `Symbols.IsProfileOf`: the entry of a report that is right for its operator.
* `Symbols.mem_retained_of_checkAdequacy`: the properties in a report, said of the functions of the
  members.
* `Symbols.checkAdequacy_of_total`: with total tables the check gives a right report.
* `Symbols.checkAdequacy_eq_error`: it fails at the first table that is not total, with the first
  input that the table does not cover.
-/

namespace PropBench

namespace Symbols

variable {s t : Symbols} {set : OperatorSet} {o : OperatorRef} {f : BooleanFunction}

/-! ### Identifiers -/

theorem Extends.resolveOperator (h : s.Extends t) {i : String} (hi : s.resolveOperator i = .ok o) :
    t.resolveOperator i = .ok o :=
  resolveOperator_eq_ok_iff.mpr <| (resolveOperator_eq_ok_iff.mp hi).imp_right fun hcustom =>
    ⟨hcustom.1, h.operators.contains hcustom.2.1, hcustom.2.2⟩

/-! ### Members -/

/-- The arity of an operator, if it is known. -/
def arity? (s : Symbols) : OperatorRef → Option Nat
  | .builtin c => some c.arity
  | .custom name => (s.operators.find? name).map Operator.arity

/-- The value of an operator at an input, if it has one. -/
def valueAt? (s : Symbols) : OperatorRef → List Bool → Option Bool
  | .builtin c, input => c.valueAt? input
  | .custom name, input => (s.operators.find? name).bind fun o => o.table.value? input

/-- The table of an operator, if it is a declared one, has an entry for each input of the arity. -/
def IsTotal (s : Symbols) : OperatorRef → Prop
  | .builtin _ => True
  | .custom name => ∀ operator, s.operators.find? name = some operator → operator.IsTotal

/-- An entry of a report with the arity of its operator, and the properties of the operation that
the operator computes. -/
structure IsProfileOf (s : Symbols) (p : OperatorProfile) : Prop where
  arity : s.arity? p.operator = some p.arity
  properties : ∃ g : (Fin p.arity → Bool) → Bool,
    (∀ x, s.valueAt? p.operator (List.ofFn x) = some (g x)) ∧
      ∀ property : PostProperty, p.profile.holds property = true ↔ property.IsOf g

theorem arity?_of_function (h : s.function o = .ok f) : s.arity? o = some f.arity := by
  cases o with
  | builtin c => cases h; cases c <;> rfl
  | custom name =>
      obtain ⟨operator, hfind, harity, -⟩ := function_custom_eq_ok.mp h
      rw [arity?, hfind, Option.map_some, harity]

theorem valueAt?_of_function (h : s.function o = .ok f) {input : List Bool}
    (hn : input.length = f.arity) : s.valueAt? o input = some (f.output (rowOf input)) := by
  cases o with
  | builtin c =>
      have harity : some c.arity = some f.arity := arity?_of_function h
      cases h
      exact c.valueAt?_eq (hn.trans (Option.some.inj harity).symm)
  | custom name =>
      obtain ⟨operator, hfind, harity, hvalue⟩ := function_custom_eq_ok.mp h
      rw [valueAt?, hfind]
      exact hvalue input (hn.trans harity)

/-- An operator with a function is total. -/
theorem isTotal_of_function (h : s.function o = .ok f) : s.IsTotal o := by
  cases o with
  | builtin c => trivial
  | custom name =>
      intro operator hfind input hn
      obtain ⟨other, hother, -, hvalue⟩ := function_custom_eq_ok.mp h
      cases hfind.symm.trans hother
      rw [hvalue input hn]
      rfl

/-- The profile of the function of an operator is the right one. -/
theorem isProfileOf_of_function (h : s.function o = .ok f) :
    s.IsProfileOf ⟨o, f.arity, .of f⟩ where
  arity := arity?_of_function h
  properties := by
    refine ⟨f.valueAt, fun x => ?_, fun property => ?_⟩
    · rw [BooleanFunction.valueAt_eq_output]
      exact valueAt?_of_function h (List.length_ofFn)
    · rw [PostProfile.holds_of]
      exact (PostProperty.holdsFor_iff_isOf property f).1

/-- A declared operator has a function, or there is a first input that its table does not cover. -/
theorem function_cases (ho : s.HasOperator o) :
    (∃ f, s.function o = .ok f) ∨ ∃ n operator input, o = .custom n ∧
      s.operators.find? n = some operator ∧ operator.table.FirstUncovered operator.arity input ∧
        s.function o = .error (.noEntry n input) := by
  cases o with
  | builtin c => exact .inl ⟨_, rfl⟩
  | custom n =>
      obtain ⟨operator, hfind⟩ := Option.isSome_iff_exists.mp ho
      cases hf : operator.table.function operator.arity with
      | ok f =>
          obtain ⟨harity, hvalue⟩ := TruthTable.function_eq_ok.mp hf
          exact .inl ⟨f, function_custom_eq_ok.mpr ⟨operator, hfind, harity, hvalue⟩⟩
      | error input =>
          have hfirst := TruthTable.function_eq_error_iff.mp hf
          exact .inr ⟨n, operator, input, rfl, hfind, hfirst,
            function_custom_eq_noEntry.mpr ⟨operator, hfind, hfirst⟩⟩

/-- A declared operator has a function exactly when it is total. -/
theorem exists_function_iff_isTotal (ho : s.HasOperator o) :
    (∃ f, s.function o = .ok f) ↔ s.IsTotal o := by
  refine ⟨fun h => h.elim fun f hf => isTotal_of_function hf, fun htotal => ?_⟩
  refine (function_cases ho).resolve_right ?_
  rintro ⟨n, operator, input, rfl, hfind, hfirst, -⟩
  have hsome := htotal operator hfind input hfirst.length
  rw [hfirst.uncovered] at hsome
  cases hsome

/-! ### The report -/

section Report

variable {report : AdequacyReport}

/-- Each member of a set that has a report has a function. -/
theorem function_of_checkAdequacy (h : s.checkAdequacy set = .ok report) :
    ∀ o ∈ set.operators, ∃ f, s.function o = .ok f := by
  obtain ⟨profiles, hp, -⟩ := Except.map_eq_ok.mp h
  intro o ho
  obtain ⟨profile, -, h⟩ := exists_of_forall₂ (Except.mapM_eq_ok.mp hp) ho
  obtain ⟨f, hf, -⟩ := Except.map_eq_ok.mp h
  exact ⟨f, hf⟩

/-- A property is retained if the functions of all members have it. -/
theorem mem_retained_of_checkAdequacy (h : s.checkAdequacy set = .ok report) (p : PostProperty) :
    p ∈ report.retained ↔ ∀ o ∈ set.operators, ∃ f, s.function o = .ok f ∧ f.Keeps p := by
  obtain ⟨profiles, hp, rfl⟩ := Except.map_eq_ok.mp h
  have hprofile := Except.mapM_eq_ok.mp hp
  rw [AdequacyReport.of, mem_retained, List.forall_mem_map]
  constructor
  · intro hall o ho
    obtain ⟨profile, hmem, h⟩ := exists_of_forall₂ hprofile ho
    obtain ⟨f, hf, rfl⟩ := Except.map_eq_ok.mp h
    have hholds := hall _ hmem
    rw [PostProfile.holds_of] at hholds
    exact ⟨f, hf, PostProperty.holdsFor_iff_keeps p |>.mp hholds⟩
  · intro hall profile hmem
    obtain ⟨o, ho, h⟩ := exists_of_forall₂ hprofile.flip hmem
    obtain ⟨f, hf, rfl⟩ := Except.map_eq_ok.mp h
    obtain ⟨f', hf', hkeeps⟩ := hall o ho
    rw [hf] at hf'; cases hf'
    rw [PostProfile.holds_of]
    exact (PostProperty.holdsFor_iff_keeps p).mpr hkeeps

/-- An operator set is adequate if no property is retained. -/
theorem adequate_iff_retained (h : s.checkAdequacy set = .ok report) :
    report.adequate = true ↔ ∀ p, p ∉ report.retained := by
  obtain ⟨profiles, -, rfl⟩ := Except.map_eq_ok.mp h
  exact List.isEmpty_iff.trans List.eq_nil_iff_forall_not_mem

/-- A set with a report has total operators. -/
theorem isTotal_of_checkAdequacy (h : s.checkAdequacy set = .ok report) :
    ∀ o ∈ set.operators, s.IsTotal o := fun o ho =>
  (function_of_checkAdequacy h o ho).elim fun _ => isTotal_of_function

end Report

/-! ### The check -/

theorem checkAdequacyNamed_eq {name : String} (h : s.opsets.find? name = some set) :
    s.checkAdequacyNamed name = s.checkAdequacy set := by
  rw [checkAdequacyNamed, Table.resolve_eq_ok_iff.mpr h]
  rfl

/-- The check of a set with total operators gives a right profile for each of them, in the order of
the set. -/
theorem checkAdequacy_of_total (hset : ∀ o ∈ set.operators, s.HasOperator o)
    (htotal : ∀ o ∈ set.operators, s.IsTotal o) :
    ∃ profiles, s.checkAdequacy set = .ok (.of set.name profiles) ∧
      profiles.map OperatorProfile.operator = set.operators ∧
        ∀ p ∈ profiles, s.IsProfileOf p := by
  have hprofile : ∀ o ∈ set.operators,
      ∃ p, (s.profile o = .ok p ∧ p.operator = o) ∧ s.IsProfileOf p := fun o ho => by
    obtain ⟨f, hf⟩ := (exists_function_iff_isTotal (hset o ho)).mpr (htotal o ho)
    exact ⟨⟨o, f.arity, .of f⟩, ⟨Except.map_eq_ok.mpr ⟨f, hf, rfl⟩, rfl⟩,
      isProfileOf_of_function hf⟩
  obtain ⟨profiles, hprofiles, hright⟩ := exists_forall₂ hprofile
  have hmap : s.checkAdequacy set = .ok (.of set.name profiles) :=
    Except.map_eq_ok.mpr ⟨profiles, Except.mapM_eq_ok.mpr (hprofiles.imp fun _ _ h => h.1), rfl⟩
  refine ⟨profiles, hmap, ?_, hright⟩
  rw [← List.forall₂_eq_eq_eq, List.forall₂_map_left_iff]
  exact hprofiles.flip.imp fun _ _ h => h.2

/-- **The only failure of the check**: the operators in front of some operator are total, the table
of that one is not, and the fault has the first input that the table does not cover. -/
theorem checkAdequacy_eq_error (hset : ∀ o ∈ set.operators, s.HasOperator o) {e : Fault}
    (h : s.checkAdequacy set = .error e) :
    ∃ before n after operator input, set.operators = before ++ .custom n :: after ∧
      (∀ o ∈ before, s.IsTotal o) ∧ s.operators.find? n = some operator ∧
        operator.table.FirstUncovered operator.arity input ∧ e = .noEntry n input := by
  rw [checkAdequacy, Except.map_eq_error, Except.mapM_eq_error] at h
  obtain ⟨before, o, after, profiles, hoperators, hbefore, ho⟩ := h
  have hf : s.function o = .error e := Except.map_eq_error.mp ho
  have hmem : o ∈ set.operators := by simp [hoperators]
  rcases function_cases (hset o hmem) with
    ⟨f, hok⟩ | ⟨n, operator, input, rfl, hfind, hfirst, herror⟩
  · rw [hf] at hok
    cases hok
  · refine ⟨before, n, after, operator, input, hoperators, fun o ho => ?_, hfind, hfirst, ?_⟩
    · obtain ⟨p, -, hp⟩ := exists_of_forall₂ hbefore ho
      obtain ⟨f, hf, -⟩ := Except.map_eq_ok.mp hp
      exact isTotal_of_function hf
    · rw [hf] at herror
      exact Except.error.inj herror

/-- The arity of an operator is below the ceiling. -/
theorem OperatorsProper.exists_arity (hs : s.OperatorsProper) (ho : s.HasOperator o) :
    ∃ n, s.arity? o = some n ∧ n ≤ arityCeiling := by
  cases o with
  | builtin c =>
      refine ⟨c.arity, rfl, ?_⟩
      cases c <;> exact Nat.le_of_ble_eq_true rfl
  | custom n =>
      obtain ⟨operator, hfind⟩ := Option.isSome_iff_exists.mp ho
      have hproper := (hs _ (Table.mem_entries hfind)).2
      exact ⟨operator.arity, by rw [arity?, hfind, Option.map_some], hproper.arity⟩

end Symbols

end PropBench
