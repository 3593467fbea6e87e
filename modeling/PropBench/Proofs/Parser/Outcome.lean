import PropBench.Proofs.Parser.Report
import PropBench.Proofs.Source.Composition

/-!
# Proofs — Parser — Outcome

What becomes of a text.

* `program_break`: a break that ends a parse is final, and says itself what is wrong.
* `parse_same_lexemes`: parsing has no lexer in front of it, but its outcome depends on the lexemes
  only.
-/

namespace PropBench

/-! ### Errors wherever they are -/

namespace ParseError

/-- The error wherever it is: its kind with everything but the place. -/
def cause : ParseError → ParseError
  | .unknownLexeme _ c => .unknownLexeme .start c
  | .unterminatedComment _ => .unterminatedComment .start
  | .unexpected _ expected found => .unexpected .start expected found
  | .unexpectedEnd expected => .unexpectedEnd expected
  | .tooDeep _ limit => .tooDeep .start limit
  | .unreadable => .unreadable

end ParseError

theorem SyntaxError.inWords_cause (e : SyntaxError) : e.inWords.cause = e.cause.inWords := by
  cases e <;> rfl

namespace Parser

/-- **A break that ends a parse is final**, and says itself what is wrong. -/
theorem program_break {limit : Nat} {cs : List Char} {b : Break}
    (h : program limit cs = .error b) : ∃ f, b = .final f ∧ ∀ c, f.trouble ≠ .combinator c := by
  rcases program_cases limit cs with ⟨-, hok⟩ | ⟨e, b', -, herror, hends⟩
  · rw [hok] at h
    cases h
  · rw [herror] at h
    cases h
    exact hends.settled

theorem parse_eq_ok_iff {limit : Nat} {source : String} {p : Program} :
    parse limit source = .ok p ↔ parseProgram limit source = .ok p := by
  rw [parse_eq]
  cases parseProgram limit source <;> simp [Except.mapError]

theorem parse_eq_error_iff {limit : Nat} {source : String} {err : ParseError} :
    parse limit source = .error err ↔
      ∃ e, parseProgram limit source = .error e ∧ e.inWords = err := by
  rw [parse_eq]
  cases parseProgram limit source <;> simp [Except.mapError]

/-- **The outcome of a parse depends on the lexemes only**, though every parser passes blanks and
comments and matches characters itself. -/
theorem parse_same_lexemes {limit : Nat} {s₁ s₂ : String} {ls : List Lexeme}
    (h₁ : Spells s₁.toList ls) (h₂ : Spells s₂.toList ls) :
    (∃ p, parse limit s₁ = .ok p ∧ parse limit s₂ = .ok p) ∨
      ∃ e₁ e₂, parse limit s₁ = .error e₁ ∧ parse limit s₂ = .error e₂ ∧
        e₁.cause = e₂.cause := by
  rcases parseProgram_same_lexemes limit h₁ h₂ with
    ⟨p, hp₁, hp₂⟩ | ⟨e₁, e₂, he₁, he₂, hcause⟩
  · exact .inl ⟨p, parse_eq_ok_iff.mpr hp₁, parse_eq_ok_iff.mpr hp₂⟩
  · refine .inr ⟨_, _, parse_eq_error_iff.mpr ⟨e₁, he₁, rfl⟩,
      parse_eq_error_iff.mpr ⟨e₂, he₂, rfl⟩, ?_⟩
    rw [SyntaxError.inWords_cause, SyntaxError.inWords_cause, hcause]

/-- Keywords in any case, comments and blanks, in a text that is too deep. -/
theorem negations_same_lexemes :
    let s₁ := "define formula f = !!!a;"
    let s₂ := "DEFINE/**/Formula f=! ! // three\n\t!a ;"
    let ls : List Lexeme := [.keyword .define, .keyword .formulaKind, .name "f", .symbol .equals,
      .symbol .bang, .symbol .bang, .symbol .bang, .name "a", .symbol .semicolon]
    Spells s₁.toList ls ∧ Spells s₂.toList ls ∧
      ((∃ p, parse 3 s₁ = .ok p ∧ parse 3 s₂ = .ok p) ∨
        ∃ e₁ e₂, parse 3 s₁ = .error e₁ ∧ parse 3 s₂ = .error e₂ ∧ e₁.cause = e₂.cause) := by
  intro s₁ s₂ ls
  have h₁ : Spells s₁.toList ls :=
    finishes_iff_spells.mp ⟨by decide +kernel, by decide +kernel⟩
  have h₂ : Spells s₂.toList ls :=
    finishes_iff_spells.mp ⟨by decide +kernel, by decide +kernel⟩
  exact ⟨h₁, h₂, parse_same_lexemes h₁ h₂⟩

end Parser

end PropBench
