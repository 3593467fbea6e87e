import PropBench.Proofs.Session.Reachable
import PropBench.Proofs.Symbols.Expansion

/-!
# Proofs — Session — Relevance

Which part of a valuation an evaluation reads: the variables of the expression's expansion.

* `Valuation.AgreeOn`: two valuations give the same to each of some variables, or nothing.
* `Symbols.FormulasOrdered.evaluate_agree`: in tables whose formulas refer to earlier ones only.
* `Session.value_of_used_variables`: in a reachable session.
-/

namespace PropBench

namespace Valuation

/-- Each of the names has the same value under both valuations, or a value under neither. -/
def AgreeOn (v w : Valuation) (names : List String) : Prop := ∀ x ∈ names, v.value? x = w.value? x

variable {v w : Valuation}

theorem agreeOn_append {xs ys : List String} :
    v.AgreeOn w (xs ++ ys) ↔ v.AgreeOn w xs ∧ v.AgreeOn w ys := List.forall_mem_append

theorem agreeOn_flatMap {α : Type} {as : List α} {f : α → List String} :
    v.AgreeOn w (as.flatMap f) ↔ ∀ a ∈ as, v.AgreeOn w (f a) := List.forall_mem_flatMap

instance (v w : Valuation) (names : List String) : Decidable (v.AgreeOn w names) :=
  inferInstanceAs (Decidable (∀ x ∈ names, v.value? x = w.value? x))

end Valuation

namespace Symbols

variable {s : Symbols} {v w : Valuation}

/-- **An evaluation reads the variables of the expansion and no others.**  The references need not
be declared: one that is not has the same fault under every valuation. -/
theorem FormulasOrdered.evaluate_agree (hs : s.FormulasOrdered) (hn : s.NamesDistinct) (e : Expr) :
    v.AgreeOn w (s.expand e).vars → s.evaluate v e = s.evaluate w e := by
  have hkept := hs.checked.depthsKept
  induction e using hkept.induct with
  | var x =>
      intro h
      have hx : v.value? x = w.value? x := h x (List.mem_singleton_self x)
      rw [evaluate_var, evaluate_var, valueOf, valueOf, hx]
  | formula f ih =>
      intro h
      -- A reference has the value of its formula, whose variables are in the expansion.
      rw [evaluate_formula hkept, evaluate_formula hkept, Table.resolve]
      cases hf : s.formulas.find? f with
      | none => rfl
      | some g =>
          rw [expand_formula hs hn hf] at h
          exact ih g hf h
  | not e ih =>
      intro h
      rw [evaluate_not hkept, evaluate_not hkept, ih h]
  | binary c l r ihl ihr =>
      intro h
      rw [expand_binary, Expr.vars_binary, Valuation.agreeOn_append] at h
      rw [evaluate_binary hkept, evaluate_binary hkept, ihl h.1, ihr h.2]
  | apply o args ih =>
      intro h
      rw [expand_apply, Expr.vars_apply, List.flatMap_map, Valuation.agreeOn_flatMap] at h
      have hargs : args.mapM (s.evaluate v) = args.mapM (s.evaluate w) :=
        Except.mapM_congr fun a ha => ih a ha (h a ha)
      rw [evaluate_apply hkept, evaluate_apply hkept, hargs]

end Symbols

namespace Session

variable {s : Session} {v w : Valuation} {e : Expr}

/-- **A value depends on the variables an expression uses.**  Under two valuations that agree on the
variables of its expansion an expression has the same value, or the same fault: which fault is met
first depends on no other variable either. -/
theorem value_of_used_variables (hs : s.Reachable) (h : v.AgreeOn w (s.symbols.expand e).vars) :
    s.symbols.evaluate v e = s.symbols.evaluate w e :=
  hs.formulasOrdered.evaluate_agree hs.namesDistinct e h

/-- In the sample `g` stands for `!first(p, q)`.  Valuations that give `true` to `p` and nothing to
`q` have the same fault for `@g`, whatever else they assign and in which order.  With a value for
both the two have the same fault for `@g & @h`, where `h` is not declared. -/
theorem sample_relevance :
    sampleSession.Reachable ∧
      sampleSession.symbols.evaluate ⟨"a", [("p", true)]⟩ (.formula "g") = .error (.unbound "q") ∧
      sampleSession.symbols.evaluate ⟨"b", [("r", false), ("p", true), ("p", false)]⟩
        (.formula "g") = .error (.unbound "q") ∧
      sampleSession.symbols.evaluate ⟨"c", [("q", true), ("p", true)]⟩
          (.binary .and (.formula "g") (.formula "h")) =
        sampleSession.symbols.evaluate ⟨"d", [("p", true), ("r", true), ("q", true)]⟩
          (.binary .and (.formula "g") (.formula "h")) := by
  have hpartial := value_of_used_variables (v := ⟨"b", [("r", false), ("p", true), ("p", false)]⟩)
    (w := ⟨"a", [("p", true)]⟩) (e := .formula "g") reachable_sampleSession (by decide +kernel)
  have hunbound : sampleSession.symbols.evaluate ⟨"a", [("p", true)]⟩ (.formula "g") =
      .error (.unbound "q") := by decide +kernel
  exact ⟨reachable_sampleSession, hunbound, hpartial.trans hunbound,
    value_of_used_variables reachable_sampleSession (by decide +kernel)⟩

end Session

end PropBench
