import PropBench.Proofs.Program.Footprint
import PropBench.Proofs.Symbols.Extension

/-!
# Proofs — Symbols — Agreement

Tables that give some names the same meaning.

* `Symbols.Alike`: two tables give a name the same meaning.
* `Symbols.Effect.alike`: a statement changes the meaning of no name but those that it declares.
* `Symbols.Effect.alike_of_footprint`: what it makes these mean depends on the names that it
  mentions.
-/

namespace PropBench

/-! ### Tables -/

namespace Table

variable {space : Namespace} {α : Type} {t u : Table space α} {n : String}

theorem contains_congr (h : t.find? n = u.find? n) : t.contains n = u.contains n := by
  rw [contains, contains, h]

theorem resolve_congr (h : t.find? n = u.find? n) : t.resolve n = u.resolve n := by
  rw [resolve, resolve, h]

theorem find?_append_congr (h : t.find? n = u.find? n) (entries : List (String × α)) :
    (⟨t.entries ++ entries⟩ : Table space α).find? n =
      (⟨u.entries ++ entries⟩ : Table space α).find? n := by
  rw [find?_append, find?_append, h]

theorem find?_append_of_not_mem {entries : List (String × α)} (h : n ∉ entries.map (·.1)) :
    (⟨t.entries ++ entries⟩ : Table space α).find? n = t.find? n := by
  have hnone : (⟨entries⟩ : Table space α).find? n = none := by
    rw [find?, Option.map_eq_none_iff, List.find?_eq_none]
    intro e he hn
    exact h (List.mem_map.mpr ⟨e, he, beq_iff_eq.mp hn⟩)
  rw [find?_append, hnone, Option.or_none]

end Table

namespace Symbols

variable {s t u : Symbols}

/-- The tables give the name the same meaning in its namespace. -/
def Alike (s t : Symbols) : Namespace × String → Prop
  | (.vars, x) => t.vars.find? x = s.vars.find? x
  | (.formulas, f) => t.formulas.find? f = s.formulas.find? f
  | (.valuations, v) => t.valuations.find? v = s.valuations.find? v
  | (.operators, o) => t.operators.find? o = s.operators.find? o
  | (.opsets, o) => t.opsets.find? o = s.opsets.find? o
  | (.parameters, _) => True

namespace Alike

variable {n : Namespace × String}

theorem refl (s : Symbols) (n : Namespace × String) : s.Alike s n := by
  obtain ⟨space, name⟩ := n
  cases space <;> trivial

theorem symm (h : s.Alike t n) : t.Alike s n := by
  obtain ⟨space, name⟩ := n
  cases space with
  | parameters => trivial
  | _ => exact Eq.symm h

theorem trans (h₁ : s.Alike t n) (h₂ : t.Alike u n) : s.Alike u n := by
  obtain ⟨space, name⟩ := n
  cases space with
  | parameters => trivial
  | _ => exact Eq.trans h₂ h₁

theorem contains {space : Namespace} {name : String} (h : s.Alike t (space, name)) :
    t.contains space name = s.contains space name := by
  cases space with
  | parameters => rfl
  | _ => exact Table.contains_congr h

end Alike

/-! ### Checks -/

theorem fresh_congr {space : Namespace} {name : String} (h : s.Alike t (space, name)) :
    t.fresh space name = s.fresh space name := by
  rw [fresh, fresh, h.contains]

theorem checkList_congr {es : List Expr} (h : ∀ e ∈ es, t.check e = s.check e) :
    t.checkList es = s.checkList es := by
  induction es with
  | nil => rfl
  | cons e es ih =>
      obtain ⟨he, hes⟩ := List.forall_mem_cons.mp h
      rw [checkList, checkList, he, ih hes]

theorem operatorFor_congr {o : String} {n : Nat} (h : s.Alike t (.operators, o)) :
    t.operatorFor o n = s.operatorFor o n := by
  rw [operatorFor, operatorFor, Table.resolve_congr h]

/-- An expression is checked alike, if the names in it are alike. -/
theorem check_congr {e : Expr} :
    (∀ o ∈ e.occurrences, s.Alike t o.mention) → t.check e = s.check e := by
  induction e using Expr.induct with
  | var x => exact fun h => Table.resolve_congr (h _ (List.mem_singleton_self _))
  | formula f =>
      intro h
      have hf : t.formulas.find? f = s.formulas.find? f := h _ (List.mem_singleton_self _)
      rw [check, check, Table.resolve_congr hf]
  | not e ih => exact ih
  | binary c l r ihl ihr =>
      intro h
      obtain ⟨hl, hr⟩ := Expr.forall_occurrences_binary.mp h
      rw [check, check, ihl hl, ihr hr]
  | apply o args ih =>
      intro h
      obtain ⟨ho, hargs⟩ := Expr.forall_occurrences_apply.mp h
      rw [check, check, operatorFor_congr ho, checkList_congr fun a ha => ih a ha (hargs a ha)]

theorem checkNames_congr {space : Namespace} {test test' : String → Except Fault Unit}
    {seen names : List String} (h : ∀ n ∈ names, test' n = test n) :
    checkNames space test' seen names = checkNames space test seen names := by
  induction names generalizing seen with
  | nil => rfl
  | cons n ns ih =>
      obtain ⟨hn, hns⟩ := List.forall_mem_cons.mp h
      rw [checkNames, checkNames, hn, ih hns]

theorem resolveOperator_congr {identifier : String} (h : s.Alike t (.operators, identifier)) :
    t.resolveOperator identifier = s.resolveOperator identifier := by
  rw [resolveOperator, resolveOperator, Table.resolve_congr h]

/-- Expressions of one depth pass the limit alike. -/
theorem checkDepth_congr {config : Config} {e : Expr} (h : t.expandedDepth e = s.expandedDepth e) :
    t.checkDepth config e = s.checkDepth config e := by
  rw [checkDepth, checkDepth, h]

end Symbols

/-! ### Statements -/

namespace Symbols

variable {config : Config} {s t s' t' : Symbols} {statement : Statement}

/-! #### The names that a statement does not declare -/

/-- A statement changes nothing for the names that it does not declare. -/
theorem Adds.alike {space : Namespace} {names : List String} {n : Namespace × String}
    (h : s.Adds statement space names t) (hn : n ∉ statement.declarations) : s.Alike t n := by
  have hsame := Alike.refl s n
  obtain ⟨other, name⟩ := n
  cases h with
  | vars names =>
      cases other with
      | vars => exact Table.find?_append_of_not_mem (by simpa [Statement.declarations] using hn)
      | _ => exact hsame
  | formula f e =>
      cases other with
      | formulas => exact Table.find?_append_of_not_mem (by simpa [Statement.declarations] using hn)
      | _ => exact hsame
  | valuation v assignments =>
      cases other with
      | valuations =>
          exact Table.find?_append_of_not_mem (by simpa [Statement.declarations] using hn)
      | _ => exact hsame
  | operator o =>
      cases other with
      | operators =>
          exact Table.find?_append_of_not_mem (by simpa [Statement.declarations] using hn)
      | _ => exact hsame
  | opset o =>
      cases other with
      | opsets => exact Table.find?_append_of_not_mem (by simpa [Statement.declarations] using hn)
      | _ => exact hsame

/-- A statement changes the meaning of no name but those that it declares. -/
theorem Effect.alike {r : Except Fault Outcome} {n : Namespace × String}
    (h : Effect config s statement r t) (hn : n ∉ statement.declarations) : s.Alike t n := by
  rcases h with ⟨rfl, -⟩ | ⟨_, _, -, -, hadd⟩
  · exact .refl _ _
  · exact hadd.alike hn

/-! #### The names that a statement has to do with -/

section Footprint

variable (hdeclared : ∀ n ∈ statement.declarations, s.Alike t n)
  (hmentioned : ∀ n ∈ statement.mentions, s.Alike t n)
include hdeclared hmentioned

/-- What a definition makes its names mean depends on the names that it mentions. -/
theorem Adds.alike_of_footprint {space space' : Namespace} {names names' : List String}
    (hs : s.Adds statement space names s') (ht : t.Adds statement space' names' t') :
    ∀ n ∈ statement.declarations, s'.Alike t' n := by
  cases hs with
  | vars names =>
      cases ht
      refine List.forall_mem_map.mpr fun x hx => ?_
      exact Table.find?_append_congr (hdeclared _ (List.mem_map_of_mem hx)) _
  | formula f e =>
      cases ht
      have hdepth : t.expandedDepth e = s.expandedDepth e :=
        expandedDepth_congr e fun g hg => hmentioned _ (List.mem_map_of_mem hg)
      rw [hdepth]
      refine List.forall_mem_singleton.mpr ?_
      exact Table.find?_append_congr (hdeclared _ (List.mem_singleton_self _)) _
  | valuation v assignments =>
      cases ht
      refine List.forall_mem_singleton.mpr ?_
      exact Table.find?_append_congr (hdeclared _ (List.mem_singleton_self _)) _
  | operator o =>
      cases ht
      refine List.forall_mem_singleton.mpr ?_
      exact Table.find?_append_congr (hdeclared _ (List.mem_singleton_self _)) _
  | @opset name identifiers operators hoperators =>
      cases ht with
      | @opset _ _ operators' hoperators' =>
          -- The identifiers stand for the same operators in both tables.
          have hresolve (i : String) (hi : i ∈ identifiers) :
              t.resolveOperator i = s.resolveOperator i :=
            resolveOperator_congr (hmentioned _ (List.mem_map_of_mem hi))
          have hsame : operators' = operators := by
            have hs' := Except.mapM_eq_ok.mpr hoperators
            have ht' := Except.mapM_eq_ok.mpr hoperators'
            rw [Except.mapM_congr hresolve, hs'] at ht'
            exact (Except.ok.inj ht').symm
          rw [hsame]
          refine List.forall_mem_singleton.mpr ?_
          exact Table.find?_append_congr (hdeclared _ (List.mem_singleton_self _)) _

end Footprint

/-- What a statement makes the names mean that it declares depends on those that it mentions. -/
theorem Effect.alike_of_footprint {r : Except Fault Outcome} (hs : Effect config s statement r s')
    (ht : Effect config t statement r t') (hdeclared : ∀ n ∈ statement.declarations, s.Alike t n)
    (hmentioned : ∀ n ∈ statement.mentions, s.Alike t n) :
    ∀ n ∈ statement.declarations, s'.Alike t' n := by
  rcases hs with ⟨rfl, hno⟩ | ⟨space, names, hok, -, hadd⟩
  · rcases ht with ⟨rfl, -⟩ | ⟨space, names, hok, -⟩
    · exact hdeclared
    · exact absurd hok (hno space names)
  · rcases ht with ⟨rfl, hno⟩ | ⟨_, _, -, -, hadd'⟩
    · exact absurd hok (hno space names)
    · exact hadd.alike_of_footprint hdeclared hmentioned hadd'

end Symbols

end PropBench
