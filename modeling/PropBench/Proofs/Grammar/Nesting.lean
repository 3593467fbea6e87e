import PropBench.Proofs.Grammar.Derivation

/-!
# Proofs — Grammar — Nesting

How deep parentheses and applications are nested in the lexemes of an expression: as many
parentheses are open at once.

* `nesting ls`: the greatest number of parentheses open at once in `ls`.
* `Nests ls k`: `ls` closes what it opens, and `k` is its nesting.
* `Derives.within_iff`: an expression is derived with nesting at most `n` exactly when the nesting
  of its lexemes is at most `n`.
* `ProgramForm.exists_beyond`: a program of which a limit does not admit the expressions has a
  formula that is too deep or too nested.
-/

namespace PropBench

/-! ### Open parentheses -/

/-- The number of parentheses open behind a lexeme, when `d` are open in front of it. -/
def Lexeme.openBehind (d : Nat) : Lexeme → Nat
  | .symbol .openParen => d + 1
  | .symbol .closeParen => d - 1
  | _ => d

/-- The greatest number of parentheses open at once, when `d` are open in front. -/
def nestingFrom (d : Nat) : List Lexeme → Nat
  | [] => d
  | l :: ls => max d (nestingFrom (l.openBehind d) ls)

/-- The greatest number of parentheses open at once. -/
def nesting (ls : List Lexeme) : Nat := nestingFrom 0 ls

theorem le_nestingFrom (d : Nat) (ls : List Lexeme) : d ≤ nestingFrom d ls := by
  cases ls with
  | nil => exact le_rfl
  | cons l ls => exact le_max_left _ _

/-- The lexemes close the parentheses that they open, at most `k` of which are open at once. -/
def Nests (ls : List Lexeme) (k : Nat) : Prop :=
  ∀ d ms, nestingFrom d (ls ++ ms) = max (d + k) (nestingFrom d ms)

namespace Nests

variable {ls ms : List Lexeme} {j k : Nat}

/-- Closed parentheses have the nesting they show from outside. -/
theorem nesting_eq (h : Nests ls k) : nesting ls = k := by
  have h₀ := h 0 []
  rw [List.append_nil] at h₀
  rw [nesting, h₀, nestingFrom, Nat.zero_add, Nat.max_zero]

theorem nil : Nests [] 0 := fun d ms => (max_eq_right (le_nestingFrom d ms)).symm

theorem single {l : Lexeme} (hl : ∀ d, l.openBehind d = d) : Nests [l] 0 := fun d ms => by
  rw [List.singleton_append, nestingFrom, hl, Nat.add_zero]

theorem append (hls : Nests ls j) (hms : Nests ms k) : Nests (ls ++ ms) (max j k) := fun d ns => by
  rw [List.append_assoc, hls, hms, ← max_assoc, Nat.add_max_add_left]

theorem cons {l : Lexeme} (hl : ∀ d, l.openBehind d = d) (h : Nests ls k) : Nests (l :: ls) k := by
  have happend := (single hl).append h
  rwa [Nat.zero_max] at happend

/-- Parentheses around a list add one. -/
theorem parens (h : Nests ls k) :
    Nests (.symbol .openParen :: (ls ++ [.symbol .closeParen])) (k + 1) := fun d ms => by
  have hclose : nestingFrom (d + 1) (.symbol .closeParen :: ms) = max (d + 1) (nestingFrom d ms) :=
    rfl
  rw [List.cons_append, List.append_assoc, List.singleton_append, nestingFrom, Lexeme.openBehind, h,
    hclose]
  omega

end Nests

theorem Lexeme.Signs.openBehind {l : Lexeme} {c : Binary} (h : l.Signs c) (d : Nat) :
    l.openBehind d = d := by cases h <;> rfl

theorem Lexeme.Negates.openBehind {l : Lexeme} (h : l.Negates) (d : Nat) :
    l.openBehind d = d := by cases h <;> rfl

/-- A connective between two lists adds nothing. -/
theorem Nests.link {l : Lexeme} {c : Binary} {ls ms : List Lexeme} {j k : Nat} (hl : l.Signs c)
    (hls : Nests ls j) (hms : Nests ms k) : Nests (ls ++ l :: ms) (max j k) :=
  hls.append (hms.cons hl.openBehind)

/-! ### Expressions -/

/-- Arguments are derived together, with the greatest nesting that one of them has. -/
theorem exists_nests_arguments {n : Nat} {parts : List (List Lexeme × Expr)}
    (h : ∀ p ∈ parts, ∃ k ≤ n, Nests p.1 k ∧ Derives 1 k p.1 p.2) :
    ∃ k ≤ n, Nests (commaSeparated (parts.map Prod.fst)) k ∧ ∀ p ∈ parts, Derives 1 k p.1 p.2 := by
  induction parts with
  | nil => exact ⟨0, Nat.zero_le n, .nil, by simp⟩
  | cons p parts ih =>
      obtain ⟨⟨j, hj, hnests, hp⟩, hparts⟩ := List.forall_mem_cons.mp h
      obtain ⟨k, hk, hnests', hparts⟩ := ih hparts
      refine ⟨max j k, max_le hj hk, ?_, List.forall_mem_cons.mpr
        ⟨hp.nest (le_max_left _ _), fun q hq => (hparts q hq).nest (le_max_right _ _)⟩⟩
      cases parts with
      | nil =>
          obtain rfl : 0 = k := hnests'.nesting_eq
          rwa [Nat.max_zero]
      | cons q parts => exact hnests.append (hnests'.cons fun _ => rfl)

/-- Lexemes of an expression, with the nesting that they have. -/
theorem Derives.exists_nests {b n : Nat} {ls : List Lexeme} {e : Expr} (h : Derives b n ls e) :
    ∃ k ≤ n, Nests ls k ∧ Derives b k ls e := by
  induction h with
  | tighter _ ih =>
      obtain ⟨k, hk, hnests, h⟩ := ih
      exact ⟨k, hk, hnests, .tighter h⟩
  -- Both operands may be nested as deep as the deeper of them.
  | right hl hc _ _ ihe ihf =>
      obtain ⟨j, hj, hnests, he⟩ := ihe
      obtain ⟨k, hk, hnests', hf⟩ := ihf
      exact ⟨max j k, max_le hj hk, hnests.link hl hnests',
        .right hl hc (he.nest (le_max_left _ _)) (hf.nest (le_max_right _ _))⟩
  | left hl hc _ _ ihe ihf =>
      obtain ⟨j, hj, hnests, he⟩ := ihe
      obtain ⟨k, hk, hnests', hf⟩ := ihf
      exact ⟨max j k, max_le hj hk, hnests.link hl hnests',
        .left hl hc (he.nest (le_max_left _ _)) (hf.nest (le_max_right _ _))⟩
  | not hl _ ih =>
      obtain ⟨k, hk, hnests, h⟩ := ih
      exact ⟨k, hk, hnests.cons hl.openBehind, .not hl h⟩
  | var n x => exact ⟨0, Nat.zero_le n, .single fun _ => rfl, .var 0 x⟩
  | formula n f =>
      exact ⟨0, Nat.zero_le n, .cons (fun _ => rfl) (.single fun _ => rfl), .formula 0 f⟩
  | parens _ ih =>
      obtain ⟨k, hk, hnests, h⟩ := ih
      exact ⟨k + 1, Nat.succ_le_succ hk, hnests.parens, .parens h⟩
  | apply o _ ih =>
      obtain ⟨k, hk, hnests, h⟩ := exists_nests_arguments ih
      exact ⟨k + 1, Nat.succ_le_succ hk, hnests.parens.cons fun _ => rfl, .apply o h⟩

/-- **The nesting bound of a derivation is a bound on the nesting of its lexemes.** -/
theorem Derives.within_iff {b n m : Nat} {ls : List Lexeme} {e : Expr} (h : Derives b n ls e) :
    Derives b m ls e ↔ nesting ls ≤ m := by
  constructor
  · intro hm
    obtain ⟨k, hk, hnests, -⟩ := hm.exists_nests
    rwa [hnests.nesting_eq]
  · intro hm
    obtain ⟨k, -, hnests, hk⟩ := h.exists_nests
    exact hk.nest (hnests.nesting_eq ▸ hm)

/-- A limit bounds the depth of the expression and the nesting of its parentheses, and nothing
else. -/
theorem derivesWithin_iff {limit : Nat} {ls : List Lexeme} {e : Expr} :
    DerivesWithin limit ls e ↔ DerivesFreely ls e ∧ e.depth ≤ limit ∧ nesting ls ≤ limit := by
  constructor
  · rintro ⟨h, hd⟩
    exact ⟨⟨limit, h⟩, hd, h.within_iff.mp h⟩
  · rintro ⟨⟨n, h⟩, hd, hn⟩
    exact ⟨h.within_iff.mpr hn, hd⟩

/-! ### Programs -/

/-- The lexemes of a definition of a formula, with those of its expression. -/
def formulaLexemes (f : String) (ls : List Lexeme) : List Lexeme :=
  .keyword .define :: .keyword .formulaKind :: .name f :: .symbol .equals ::
    (ls ++ [.symbol .semicolon])

/-- A program some of whose expressions are of another kind defines a formula with such a one. -/
theorem ProgramForm.exists_formula_not {E E' : List Lexeme → Expr → Prop} {ls : List Lexeme}
    {p : Program} (h : ProgramForm E ls p) (hno : ¬ ProgramForm E' ls p) :
    ∃ f ms e, formulaLexemes f ms <:+: ls ∧ .defineFormula f e ∈ p ∧ E ms e ∧ ¬ E' ms e := by
  induction h with
  | nil => exact absurd .nil hno
  | @cons ls ns st p hst _ ih =>
      by_cases hst' : StatementForm E' ls st
      · obtain ⟨f, ms, e, hls, hmem, he⟩ := ih fun hp => hno (.cons hst' hp)
        exact ⟨f, ms, e, hls.trans (List.suffix_append _ _).isInfix, List.mem_cons_of_mem _ hmem,
          he⟩
      · cases hst with
        | @formula f ms e he =>
            exact ⟨f, ms, e, (List.prefix_append _ _).isInfix, List.mem_cons_self .., he,
              fun he' => hst' (.formula f he')⟩
        | vars h hne => exact absurd (.vars h hne) hst'
        | valuation v h => exact absurd (.valuation v h) hst'
        | operator o hp he => exact absurd (.operator o hp he) hst'
        | opset s h => exact absurd (.opset s h) hst'
        | evaluate f v => exact absurd (.evaluate f v) hst'
        | adequate s => exact absurd (.adequate s) hst'

/-- A program that is not one within a limit has a formula beyond it. -/
theorem ProgramForm.exists_beyond {limit : Nat} {ls : List Lexeme} {p : Program}
    (h : ProgramForm DerivesFreely ls p) (hno : ¬ ProgramForm (DerivesWithin limit) ls p) :
    ∃ f ms e, formulaLexemes f ms <:+: ls ∧ .defineFormula f e ∈ p ∧ DerivesFreely ms e ∧
      (limit < e.depth ∨ limit < nesting ms) := by
  obtain ⟨f, ms, e, hls, hmem, he, hbeyond⟩ := h.exists_formula_not hno
  refine ⟨f, ms, e, hls, hmem, he, ?_⟩
  by_contra hwithin
  push Not at hwithin
  exact hbeyond (derivesWithin_iff.mpr ⟨he, hwithin⟩)

end PropBench
