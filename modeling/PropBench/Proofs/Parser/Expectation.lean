import PropBench.Proofs.Parser.Outcome
import PropBench.Proofs.Source.Expectation

/-!
# Proofs — Parser — Expectation

The words for what was expected, on the way from the parser that failed to the message.

* `expected_of_unexpected`, `expected_of_unexpectedEnd`: the words are those of an expectation of
  the grammar, and true of what was read.
* `parse_error_expected`: no failure reaches the top without such words.
-/

namespace PropBench

namespace Parser

section Errors

variable {limit : Nat} {source expected : String}

/-- At a lexeme that is not expected. -/
theorem expected_of_unexpected {p : Position} {found : String}
    (h : parse limit source = .error (.unexpected p expected found)) :
    ∃ (what : Expectation) (l : Lexeme), expected = what.text ∧ found = l.description ∧
      ∃ ls after, ReadUpTo source.toList p ls after ∧ Leads after l ∧ what.TrueAfter ls := by
  obtain ⟨e, he, hwords⟩ := parse_eq_error_iff.mp h
  cases e with
  | unexpected p' what l =>
      cases hwords
      exact ⟨what, l, rfl, rfl, trueAfter_of_unexpected he⟩
  | _ => cases hwords

/-- At the end of a text. -/
theorem expected_of_unexpectedEnd
    (h : parse limit source = .error (.unexpectedEnd expected)) :
    ∃ what : Expectation, expected = what.text ∧
      ∃ ls, Spells source.toList ls ∧ what.TrueAfter ls := by
  obtain ⟨e, he, hwords⟩ := parse_eq_error_iff.mp h
  cases e with
  | unexpectedEnd what =>
      cases hwords
      exact ⟨what, rfl, trueAfter_of_unexpectedEnd he⟩
  | _ => cases hwords

end Errors

/-- **What an error says was expected is true.**  No failure that others may recover from reaches
the top, and none without words, so the words are those of an expectation of the grammar.  With each
lexeme that they speak of, the lexemes in front of the reported place begin a program of the grammar
without limits.  Where the words list alternatives, those are the lexemes they speak of; where they
say a name, it is any name, and where they say an expression, any lexeme that an expression can
begin with. -/
theorem parse_error_expected (limit : Nat) (source : String) :
    (∀ b, program limit source.toList = .error b →
      ∃ f, b = .final f ∧ ∀ c, f.trouble ≠ .combinator c) ∧
    (∀ p expected found, parse limit source = .error (.unexpected p expected found) →
      expected ≠ "a statement" ∧ expected ≠ "more input" ∧
        ∃ (what : Expectation) (l : Lexeme), expected = what.text ∧ found = l.description ∧
          ∃ ls after, ReadUpTo source.toList p ls after ∧ Leads after l ∧ what.TrueAfter ls) ∧
    (∀ expected, parse limit source = .error (.unexpectedEnd expected) →
      expected ≠ "a statement" ∧ expected ≠ "more input" ∧
        ∃ what : Expectation, expected = what.text ∧
          ∃ ls, Spells source.toList ls ∧ what.TrueAfter ls) ∧
    (∀ (what : Expectation) ls, what.alternatives? = some ls →
      what.text = inWords (ls.map Lexeme.description) ∧ ∀ l, what.Describes l ↔ l ∈ ls) ∧
    (∀ what : Expectation, " name".toList <:+ what.text.toList →
      ∀ l, what.Describes l ↔ ∃ n, l = .name n) ∧
    (∀ l, Expectation.cell.Describes l ↔ Expectation.truthValue.Describes l ∨ l = .wildcard) ∧
    ∀ l, Expectation.expression.Describes l ↔ Opens DerivesFreely [l] := by
  refine ⟨fun b => program_break, fun p expected found h => ?_, fun expected h => ?_,
    fun what ls h => ⟨Expectation.text_eq h, fun l => Expectation.describes_iff_mem h⟩,
    fun what h l => Expectation.describes_iff_of_name h,
    fun l => Expectation.describes_cell_iff, fun l => Expectation.describes_expression_iff⟩
  · obtain ⟨what, l, rfl, hfound⟩ := expected_of_unexpected h
    exact ⟨what.text_specific.1, what.text_specific.2, what, l, rfl, hfound⟩
  · obtain ⟨what, rfl, hspells⟩ := expected_of_unexpectedEnd h
    exact ⟨what.text_specific.1, what.text_specific.2, what, rfl, hspells⟩

/-- The operand that is missing in front of `;` can begin with `NOT`, and the list that the end of
the text leaves open can go on with a comma or close. -/
theorem missing_operand_expected :
    parse 1024 "DEFINE FORMULA f = p & ;" = .error (.unexpected ⟨1, 24⟩ "an expression" "';'") ∧
      (∃ ls after, ReadUpTo "DEFINE FORMULA f = p & ;".toList ⟨1, 24⟩ ls after ∧
        Opens (ProgramForm DerivesFreely) (ls ++ [.keyword .not])) ∧
      parse 1024 "DEFINE OPSET s = \x7bf" = .error (.unexpectedEnd "',' or '\x7d'") ∧
      ∃ ls, Spells "DEFINE OPSET s = \x7bf".toList ls ∧
        Opens (ProgramForm DerivesFreely) (ls ++ [.symbol .comma]) ∧
        Opens (ProgramForm DerivesFreely) (ls ++ [.symbol .closeBrace]) := by
  have hoperand : parse 1024 "DEFINE FORMULA f = p & ;" =
      .error (.unexpected ⟨1, 24⟩ "an expression" "';'") :=
    parse_eq_error_iff.mpr ⟨.unexpected ⟨1, 24⟩ .expression (.symbol .semicolon),
      parseProgram_of_error? (by decide +kernel), rfl⟩
  have hlist : parse 1024 "DEFINE OPSET s = \x7bf" = .error (.unexpectedEnd "',' or '\x7d'") :=
    parse_eq_error_iff.mpr ⟨.unexpectedEnd .commaOrBrace,
      parseProgram_of_error? (by decide +kernel), rfl⟩
  obtain ⟨-, -, what, l, hwhat, -, ls, after, hread, -, hnot⟩ :=
    (parse_error_expected 1024 _).2.1 _ _ _ hoperand
  obtain ⟨-, -, what', hwhat', ms, hspells, hclose⟩ :=
    (parse_error_expected 1024 _).2.2.1 _ hlist
  obtain rfl : what = .expression := by
    cases what with
    | expression => rfl
    | _ => exact absurd hwhat (by decide +kernel)
  obtain rfl : what' = .commaOrBrace := by
    cases what' with
    | commaOrBrace => rfl
    | _ => exact absurd hwhat' (by decide +kernel)
  exact ⟨hoperand, ⟨ls, after, hread, hnot _ (.inr .not)⟩, hlist, ms, hspells,
    hclose _ (.inl rfl), hclose _ (.inr rfl)⟩

end Parser

end PropBench
