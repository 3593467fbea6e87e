import PropBench.Proofs.Source.Printing

/-!
# Proofs — Source — Naming

The names in the statements of a text.

* `Statement.Named P`: every name in a statement satisfies `P`.
* `ProgramForm.named`: the names of a program are spelled by the names and keywords among its
  lexemes.
* `named_of_parseProgram`: so what identifiers and keywords have in common, the names of a parsed
  program have.
-/

namespace PropBench

variable {P : String → Prop}

/-- The names in a statement satisfy `P`. -/
def Statement.Named (P : String → Prop) : Statement → Prop
  | .defineVariables names => ∀ n ∈ names, P n
  | .defineFormula f e => P f ∧ e.Named P
  | .defineValuation v assignments => P v ∧ ∀ x ∈ assignments.map (·.1), P x
  | .defineOperator o => P o.name ∧ ∀ n ∈ o.parameters, P n
  | .defineOpset s identifiers => P s ∧ ∀ i ∈ identifiers, P i
  | .evaluate f v => P f ∧ P v
  | .adequate s => P s

/-- The names and keywords among some lexemes are spelled by texts that satisfy `P`. -/
def Spelled (P : String → Prop) (ls : List Lexeme) : Prop :=
  (∀ x, .name x ∈ ls → P x) ∧ ∀ k, .keyword k ∈ ls → P k.text

theorem Spelled.of_subset {ls ms : List Lexeme} (h : Spelled P ls) (hms : ms ⊆ ls) :
    Spelled P ms :=
  ⟨fun x hx => h.1 x (hms hx), fun k hk => h.2 k (hms hk)⟩

theorem Lexeme.NamesOperator.spelled {l : Lexeme} {n : String} (h : l.NamesOperator n)
    (hl : Spelled P [l]) : P n := by
  cases h with
  | name n => exact hl.1 n (List.mem_singleton_self _)
  | _ => exact hl.2 _ (List.mem_singleton_self _)

/-- Each member of a list has lexemes of its own among those of the list. -/
theorem Listed.exists_subset {α : Type} {F : List Lexeme → α → Prop} {ls : List Lexeme}
    {as : List α} (h : Listed F ls as) {a : α} (ha : a ∈ as) : ∃ ms, F ms a ∧ ms ⊆ ls := by
  obtain ⟨parts, hparts, rfl, rfl⟩ := h
  obtain ⟨p, hp, rfl⟩ := List.mem_map.mp ha
  exact ⟨p.1, hparts p hp, fun _ => mem_commaSeparated (List.mem_map_of_mem hp)⟩

/-- The names of a list are spelt in it. -/
theorem Listed.named {ls : List Lexeme} {names : List String}
    (h : Listed (Single Lexeme.IsName) ls names) (hls : Spelled P ls) : ∀ n ∈ names, P n := by
  intro n hn
  obtain ⟨ms, hms, hsub⟩ := h.exists_subset hn
  obtain ⟨⟨n⟩⟩ := hms
  exact hls.1 n (hsub (List.mem_singleton_self _))

/-- The names in a statement are spelt in it. -/
theorem StatementForm.named {E : List Lexeme → Expr → Prop} {ls : List Lexeme}
    {statement : Statement} (h : StatementForm E ls statement)
    (hE : ∀ ms e, E ms e → Spelled P ms → e.Named P) (hls : Spelled P ls) :
    statement.Named P := by
  cases h with
  | vars h _ => exact h.named (hls.of_subset fun l hl => by simp [hl])
  | formula f h =>
      exact ⟨hls.1 f (by simp), hE _ _ h (hls.of_subset fun l hl => by simp [hl])⟩
  | valuation v h =>
      refine ⟨hls.1 v (by simp), fun x hx => ?_⟩
      obtain ⟨a, ha, rfl⟩ := List.mem_map.mp hx
      obtain ⟨ms, hms, hsub⟩ := h.exists_subset ha
      obtain ⟨x, -⟩ := hms
      exact hls.1 x (by simp [hsub (List.mem_cons_self ..)])
  | operator o hp _ =>
      exact ⟨hls.1 o (by simp), hp.named (hls.of_subset fun l hl => by simp [hl])⟩
  | opset s h =>
      refine ⟨hls.1 s (by simp), fun i hi => ?_⟩
      obtain ⟨ms, hms, hsub⟩ := h.exists_subset hi
      obtain ⟨hl⟩ := hms
      exact hl.spelled (hls.of_subset fun m hm => by simp [hsub hm])
  | evaluate f v => exact ⟨hls.1 f (by simp), hls.1 v (by simp)⟩
  | adequate s => exact hls.1 s (by simp)

/-- The names in a program are spelt in it. -/
theorem ProgramForm.named {E : List Lexeme → Expr → Prop} {ls : List Lexeme} {p : Program}
    (h : ProgramForm E ls p) (hE : ∀ ms e, E ms e → Spelled P ms → e.Named P)
    (hls : Spelled P ls) : ∀ statement ∈ p, statement.Named P := by
  induction h with
  | nil => simp
  | cons hs _ ih =>
      exact List.forall_mem_cons.mpr ⟨hs.named hE (hls.of_subset (List.subset_append_left ..)),
        ih (hls.of_subset (List.subset_append_right ..))⟩

/-- The names of a parsed program are identifiers, or connectives by their keywords. -/
theorem named_of_parseProgram {limit : Nat} {source : String} {p : Program}
    (h : parseProgram limit source = .ok p) (hname : ∀ x, IsIdentifier x → P x)
    (hkeyword : ∀ k : Keyword, P k.text) : ∀ statement ∈ p, statement.Named P := by
  obtain ⟨ls, hs, hp⟩ := parseProgram_eq_ok_iff.mp h
  refine hp.named (fun ms e he hms => he.1.named hms.1) ⟨fun x hx => ?_, fun k _ => hkeyword k⟩
  exact hname x (hs.isIdentifier hx)

end PropBench
