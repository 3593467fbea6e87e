import PropBench.Proofs.Session.Permanence
import PropBench.Proofs.Symbols.Agreement

/-!
# Proofs — Session — Independence

Statements of which neither declares a name that the other has to do with commute.

* `Symbols.execute_answer`: the answer of a statement depends on the names that it declares and
  mentions, and on what was declared under them.
* `Statement.Independent`: no name that one of the statements declares is declared or mentioned by
  the other.
* `Session.independent_commute`: in either order each of them is answered alike, and the tables end
  up giving all names the same meaning.
-/

namespace PropBench

/-! ### Work -/

namespace Work

variable {α β : Type} {s t : Symbols}

/-- Steps that are answered alike one by one are answered alike in a row. -/
theorem answer_lift_bind {r r' : Except Fault α} {f f' : α → Work β} (h : r' = r)
    (hf : ∀ a, r = .ok a → ((f' a).on t).1 = ((f a).on s).1) :
    ((liftM r' >>= f').on t).1 = ((liftM r >>= f).on s).1 := by
  subst h
  rw [on_bind, on_lift, on_bind, on_lift]
  cases h : r' with
  | error e => rfl
  | ok a => exact hf a h

/-- What is made of an answer is the same if the answer is. -/
theorem answer_bind_pure {w w' : Work α} (g : α → β) (h : (w'.on t).1 = (w.on s).1) :
    ((w' >>= fun a => pure (g a)).on t).1 = ((w >>= fun a => pure (g a)).on s).1 := by
  rw [on_bind, on_bind]
  rcases hw : w.on s with ⟨r, u⟩
  rcases hw' : w'.on t with ⟨r', u'⟩
  rw [hw, hw'] at h
  dsimp only at h
  subst h
  cases r' <;> rfl

/-- A declaration fails on the same tables, whatever is declared. -/
theorem answer_declare {space : Namespace} {t' s' : Table space α} {n : String} {a a' : α}
    (h : t'.contains n = s'.contains n) {f f' : Nat × Table space α → Work Unit}
    (hf : ∀ p, ((f p).on s).1 = .ok ()) (hf' : ∀ p, ((f' p).on t).1 = .ok ()) :
    ((liftM (t'.declare n a') >>= f').on t).1 = ((liftM (s'.declare n a) >>= f).on s).1 := by
  rw [on_bind, on_lift, on_bind, on_lift, Table.declare, Table.declare, h]
  cases s'.contains n with
  | true => rfl
  | false => exact (hf' _).trans (hf _).symm

end Work

/-! ### Answers -/

namespace Symbols

variable {config : Config} {s t : Symbols} {statement : Statement}

/-- Variables are defined alike where their names are. -/
theorem answer_defineVariables {names : List String}
    (h : ∀ n ∈ names, s.Alike t (.vars, n)) :
    ((defineVariables names).on t).1 = ((defineVariables names).on s).1 := by
  rw [defineVariables, Work.on_get_bind, Work.on_get_bind]
  refine Work.answer_lift_bind (checkNames_congr fun n hn => fresh_congr (h n hn)) fun _ hok => ?_
  obtain ⟨hfresh, hnodup, -⟩ := checkNames_eq_ok_iff.mp hok
  have hs (n : String) (hn : n ∈ names) : s.vars.contains n = false :=
    fresh_eq_ok_iff.mp (hfresh n hn)
  have ht (n : String) (hn : n ∈ names) : t.vars.contains n = false :=
    (h n hn).contains.trans (hs n hn)
  rw [on_forM_defineVariable hnodup hs, on_forM_defineVariable hnodup ht]

theorem answer_defineFormula {f : String} {e : Expr} (hf : s.Alike t (.formulas, f))
    (he : ∀ o ∈ e.occurrences, s.Alike t o.mention) :
    ((defineFormula config f e).on t).1 = ((defineFormula config f e).on s).1 := by
  have hdepth : t.expandedDepth e = s.expandedDepth e := expandedDepth_congr e fun g hg => he _ hg
  rw [defineFormula, Work.on_get_bind, Work.on_get_bind]
  refine Work.answer_lift_bind (fresh_congr hf) fun _ _ => ?_
  refine Work.answer_lift_bind (check_congr he) fun _ _ => ?_
  refine Work.answer_lift_bind (checkDepth_congr hdepth) fun _ _ => ?_
  exact Work.answer_declare hf.contains (fun _ => rfl) fun _ => rfl

theorem answer_defineValuation {v : String} {assignments : List (String × Bool)}
    (hv : s.Alike t (.valuations, v)) (h : ∀ x ∈ assignments.map (·.1), s.Alike t (.vars, x)) :
    ((defineValuation v assignments).on t).1 = ((defineValuation v assignments).on s).1 := by
  rw [defineValuation, Work.on_get_bind, Work.on_get_bind]
  refine Work.answer_lift_bind (fresh_congr hv) fun _ _ => ?_
  refine Work.answer_lift_bind (checkNames_congr fun x hx => ?_) fun _ _ => ?_
  · exact Table.resolve_congr (h x hx)
  · exact Work.answer_declare hv.contains (fun _ => rfl) fun _ => rfl

/-- An operator is defined alike where its name is. -/
theorem answer_defineOperator {o : Operator} (ho : s.Alike t (.operators, o.name)) :
    ((defineOperator config o).on t).1 = ((defineOperator config o).on s).1 := by
  rw [defineOperator, Work.on_get_bind, Work.on_get_bind]
  refine Work.answer_lift_bind rfl fun _ _ => ?_
  refine Work.answer_lift_bind (fresh_congr ho) fun _ _ => ?_
  refine Work.answer_lift_bind rfl fun _ _ => ?_
  refine Work.answer_lift_bind rfl fun _ _ => ?_
  refine Work.answer_lift_bind rfl fun _ _ => ?_
  exact Work.answer_declare ho.contains (fun _ => rfl) fun _ => rfl

/-- An operator set is defined alike where its name and its members are. -/
theorem answer_defineOpset {name : String} {identifiers : List String}
    (hname : s.Alike t (.opsets, name)) (h : ∀ i ∈ identifiers, s.Alike t (.operators, i)) :
    ((defineOpset name identifiers).on t).1 = ((defineOpset name identifiers).on s).1 := by
  have hresolve : t.resolveOperators identifiers = s.resolveOperators identifiers :=
    Except.mapM_congr fun i hi => resolveOperator_congr (h i hi)
  rw [defineOpset, Work.on_get_bind, Work.on_get_bind]
  refine Work.answer_lift_bind (fresh_congr hname) fun _ _ => ?_
  refine Work.answer_lift_bind hresolve fun _ _ => ?_
  exact Work.answer_declare hname.contains (fun _ => rfl) fun _ => rfl

/-- Where the names that are asked about are declared, the value depends on what they meant then. -/
theorem Extends.evaluateNamed_of_alike (h : s.Extends t) (hs : s.FormulasChecked)
    (ht : t.DepthsKept) {f v : String} (hf : s.Alike t (.formulas, f))
    (hv : s.Alike t (.valuations, v)) : t.evaluateNamed f v = s.evaluateNamed f v := by
  rw [Symbols.evaluateNamed, Symbols.evaluateNamed, Table.resolve_congr hf, Table.resolve_congr hv]
  cases hg : s.formulas.resolve f with
  | error e => rfl
  | ok g =>
      cases hw : s.valuations.resolve v with
      | error e => rfl
      | ok w => exact h.evaluate hs ht w g.expr (hs f g (Table.resolve_eq_ok_iff.mp hg)).1

/-- A later session gives the same report on an operator set that it has not added. -/
theorem Extends.checkAdequacyNamed_of_alike (h : s.Extends t) (hs : s.OpsetsProper) {o : String}
    (ho : s.Alike t (.opsets, o)) : t.checkAdequacyNamed o = s.checkAdequacyNamed o := by
  cases hset : s.opsets.resolve o with
  | error e =>
      rw [Symbols.checkAdequacyNamed, Symbols.checkAdequacyNamed, Table.resolve_congr ho, hset]
      rfl
  | ok set => exact h.checkAdequacyNamed hs (exists_resolve_iff.mp ⟨set, hset⟩)

/-- **The answer of a statement depends on the names that it declares and mentions.** -/
theorem execute_answer (hext : s.Extends t) (hs : s.FormulasChecked) (hopsets : s.OpsetsProper)
    (ht : t.DepthsKept) (hdeclared : ∀ n ∈ statement.declarations, s.Alike t n)
    (hmentioned : ∀ n ∈ statement.mentions, s.Alike t n) :
    ((execute config statement).on t).1 = ((execute config statement).on s).1 := by
  cases statement with
  | defineVariables names =>
      exact Work.answer_bind_pure _ (answer_defineVariables (List.forall_mem_map.mp hdeclared))
  | defineFormula f e =>
      exact Work.answer_bind_pure _ (answer_defineFormula
        (List.forall_mem_singleton.mp hdeclared) (List.forall_mem_map.mp hmentioned))
  | defineValuation v assignments =>
      refine Work.answer_bind_pure _ (answer_defineValuation
        (List.forall_mem_singleton.mp hdeclared) (List.forall_mem_map.mpr ?_))
      exact List.forall_mem_map.mp hmentioned
  | defineOperator o =>
      exact Work.answer_bind_pure _ (answer_defineOperator
        (List.forall_mem_singleton.mp hdeclared))
  | defineOpset name identifiers =>
      exact Work.answer_bind_pure _ (answer_defineOpset
        (List.forall_mem_singleton.mp hdeclared) (List.forall_mem_map.mp hmentioned))
  | evaluate f v =>
      obtain ⟨hf, hmentioned⟩ := List.forall_mem_cons.mp hmentioned
      have hv := List.forall_mem_singleton.mp hmentioned
      rw [execute, Work.on_get_bind, Work.on_get_bind]
      exact Work.answer_lift_bind (hext.evaluateNamed_of_alike hs ht hf hv) fun _ _ => rfl
  | adequate o =>
      have ho := List.forall_mem_singleton.mp hmentioned
      rw [execute, Work.on_get_bind, Work.on_get_bind]
      exact Work.answer_lift_bind (hext.checkAdequacyNamed_of_alike hopsets ho) fun _ _ => rfl

end Symbols

/-! ### Independent statements -/

/-- Neither statement declares a name that the other declares or mentions. -/
structure Statement.Independent (a b : Statement) : Prop where
  left : ∀ n ∈ a.declarations, n ∉ b.declarations ∧ n ∉ b.mentions
  right : ∀ n ∈ b.declarations, n ∉ a.declarations ∧ n ∉ a.mentions

namespace Session

variable {s : Session} {a b : Statement}

/-- Behind a statement that declares none of its names, a statement is answered as before, and makes
its names mean the same. -/
theorem process_behind (hs : s.Reachable)
    (hb : ∀ n ∈ b.declarations, n ∉ a.declarations ∧ n ∉ a.mentions) :
    ((s.process b).1.process a).2.outcome = (s.process a).2.outcome ∧
      ∀ n ∈ a.declarations,
        (s.process a).1.symbols.Alike ((s.process b).1.process a).1.symbols n := by
  have hdeclared (n : Namespace × String) (hn : n ∈ a.declarations) :
      s.symbols.Alike (s.process b).1.symbols n :=
    (process_effect s b).alike fun hmem => (hb n hmem).1 hn
  have hmentioned (n : Namespace × String) (hn : n ∈ a.mentions) :
      s.symbols.Alike (s.process b).1.symbols n :=
    (process_effect s b).alike fun hmem => (hb n hmem).2 hn
  have hanswer : ((s.process b).1.process a).2.outcome = (s.process a).2.outcome :=
    Symbols.execute_answer (process_step s b).extends hs.formulasChecked hs.opsetsProper
      (hs.process b).formulasChecked.depthsKept hdeclared hmentioned
  refine ⟨hanswer, ?_⟩
  have hlater := process_effect (s.process b).1 a
  rw [hanswer] at hlater
  exact (process_effect s a).alike_of_footprint hlater hdeclared hmentioned

/-- **Independent statements commute.**  In either order each of them has the same outcome, and in
the end every name of every namespace means the same. -/
theorem independent_commute (hs : s.Reachable) (h : a.Independent b) :
    ((s.process b).1.process a).2.outcome = (s.process a).2.outcome ∧
    ((s.process a).1.process b).2.outcome = (s.process b).2.outcome ∧
    ∀ n, ((s.process a).1.process b).1.symbols.Alike ((s.process b).1.process a).1.symbols n := by
  obtain ⟨hanswer, ha⟩ := process_behind hs h.right
  obtain ⟨hanswer', hb⟩ := process_behind hs h.left
  have hafter := process_effect (s.process a).1 b
  have hafter' := process_effect (s.process b).1 a
  refine ⟨hanswer, hanswer', fun n => ?_⟩
  -- What a name means is the work of the statement that declares it, if one of the two does.
  by_cases hna : n ∈ a.declarations
  · exact (hafter.alike (h.left n hna).1).symm.trans (ha n hna)
  · by_cases hnb : n ∈ b.declarations
    · exact (hb n hnb).symm.trans (hafter'.alike hna)
    · have hs₁ := ((process_effect s a).alike hna).trans (hafter.alike hnb)
      have hs₂ := ((process_effect s b).alike hnb).trans (hafter'.alike hna)
      exact hs₁.symm.trans hs₂

/-- In the sample a formula and a variable of one name are declared in either order. -/
theorem sample_commute :
    let a : Statement := .defineFormula "h" (.apply "first" [.formula "f", .var "p"])
    let b : Statement := .defineVariables ["r", "h"]
    sampleSession.Reachable ∧ a.Independent b ∧
      ((sampleSession.process b).1.process a).2.outcome = .ok (.declared .formulas ["h"]) ∧
      ((sampleSession.process a).1.process b).2.outcome = .ok (.declared .vars ["r", "h"]) ∧
      ∀ n, ((sampleSession.process a).1.process b).1.symbols.Alike
        ((sampleSession.process b).1.process a).1.symbols n := by
  intro a b
  have h : a.Independent b := ⟨by decide, by decide⟩
  obtain ⟨ha, hb, halike⟩ := independent_commute reachable_sampleSession h
  refine ⟨reachable_sampleSession, h, ha.trans ?_, hb.trans ?_, halike⟩
  · decide +kernel
  · decide +kernel

end Session

end PropBench
