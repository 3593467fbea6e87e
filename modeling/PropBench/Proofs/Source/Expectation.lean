import PropBench.Proofs.Source.Earliest

/-!
# Proofs — Source — Expectation

What a syntax error says was expected.

* `Expectation.alternatives?`: the lexemes that the words for an expectation list, with
  `Expectation.text_eq` for the words and `Expectation.describes_iff_mem` for the lexemes.
* `Expectation.describes_iff_of_name`, `Expectation.describes_cell_iff` and
  `Expectation.describes_expression_iff`: the lexemes of the other words.
* `Expectation.TrueAfter`: each lexeme that the words speak of goes on with a program.
* `trueAfter_of_unexpected`, `trueAfter_of_unexpectedEnd`: what an error says was expected is true
  in that way.
-/

namespace PropBench

/-! ### The words for an expectation -/

/-- Alternatives in words: "a", "a or b", "a, b, or c". -/
def inWords (words : List String) : String :=
  if words.length ≤ 2 then " or ".intercalate words
  else ", ".intercalate words.dropLast ++ ", or " ++ words.getLast?.getD ""

namespace Expectation

/-- The lexemes that the words for an expectation list one by one.  Other expectations are of any
name, any truth value, any cell, or any beginning of an expression. -/
def alternatives? : Expectation → Option (List Lexeme)
  | .statement => some [.keyword .define, .keyword .evaluate, .keyword .adequate]
  | .definition => some [.keyword .variableKind, .keyword .formulaKind, .keyword .valuationKind,
      .keyword .operatorKind, .keyword .opsetKind]
  | .under => some [.keyword .under]
  | .equals => some [.symbol .equals]
  | .colon => some [.symbol .colon]
  | .semicolon => some [.symbol .semicolon]
  | .arrow => some [.symbol .arrow]
  | .openBrace => some [.symbol .openBrace]
  | .openParen => some [.symbol .openParen]
  | .closeParen => some [.symbol .closeParen]
  | .commaOrBrace => some [.symbol .comma, .symbol .closeBrace]
  | .commaOrParen => some [.symbol .comma, .symbol .closeParen]
  | .entry => some [.symbol .openParen, .keyword .otherwise]
  | .variableName | .formulaName | .valuationName | .operatorName | .opsetName | .parameterName
  | .cell | .truthValue | .expression => none

variable {what : Expectation} {l : Lexeme} {ls : List Lexeme}

/-- The words list the lexemes as a message describes what it found. -/
theorem text_eq (h : what.alternatives? = some ls) :
    what.text = inWords (ls.map Lexeme.description) := by
  cases what <;> cases h <;> decide +kernel

/-- The lexemes described are those listed, where they can be. -/
theorem describes_iff_mem (h : what.alternatives? = some ls) : what.Describes l ↔ l ∈ ls := by
  cases what with
  | statement =>
      cases h
      constructor
      · rintro ⟨v, rfl⟩
        cases v <;> decide
      · simp only [List.mem_cons, List.not_mem_nil, or_false]
        rintro (rfl | rfl | rfl)
        exacts [⟨.define, rfl⟩, ⟨.evaluate, rfl⟩, ⟨.adequate, rfl⟩]
  | definition =>
      cases h
      constructor
      · rintro ⟨k, rfl⟩
        cases k <;> decide
      · simp only [List.mem_cons, List.not_mem_nil, or_false]
        rintro (rfl | rfl | rfl | rfl | rfl)
        exacts [⟨.vars, rfl⟩, ⟨.formula, rfl⟩, ⟨.valuation, rfl⟩, ⟨.operator, rfl⟩, ⟨.opset, rfl⟩]
  | _ => cases h <;> simp [Describes]

/-- Where the words say a name, they speak of all names. -/
theorem describes_iff_of_name (h : " name".toList <:+ what.text.toList) :
    what.Describes l ↔ ∃ n, l = .name n := by
  cases what with
  | variableName | formulaName | valuationName | operatorName | opsetName | parameterName =>
      exact Iff.rfl
  | _ => exact absurd h (by decide +kernel)

/-- A cell is a truth value or the wildcard. -/
theorem describes_cell_iff :
    Expectation.cell.Describes l ↔ Expectation.truthValue.Describes l ∨ l = .wildcard := by
  constructor
  · rintro ⟨_, _ | hb⟩
    · exact .inr rfl
    · exact .inl ⟨_, hb⟩
  · rintro (⟨b, hb⟩ | rfl)
    · exact ⟨_, .value hb⟩
    · exact ⟨_, .blank⟩

/-- The words are those of an expectation, never more general ones. -/
theorem text_specific (what : Expectation) :
    what.text ≠ "a statement" ∧ what.text ≠ "more input" := by
  cases what <;> decide +kernel

end Expectation

/-- An expression begins with a negation or as a primary does. -/
theorem Derives.describes_head {b n : Nat} {ls : List Lexeme} {e : Expr} (h : Derives b n ls e) :
    ∃ l ms, ls = l :: ms ∧ Expectation.expression.Describes l := by
  induction h with
  | tighter _ ih => exact ih
  | right _ _ _ _ ih | left _ _ _ _ ih =>
      obtain ⟨l, ms, rfl, hl⟩ := ih
      exact ⟨l, _, rfl, hl⟩
  | not hl => exact ⟨_, _, rfl, .inr hl⟩
  | var _ x => exact ⟨_, _, rfl, .inl (.name x)⟩
  | formula _ f => exact ⟨_, _, rfl, .inl .atSign⟩
  | parens => exact ⟨_, _, rfl, .inl .openParen⟩
  | apply o => exact ⟨_, _, rfl, .inl (.name o)⟩

/-- The lexemes described for an expression are those that begin one. -/
theorem Expectation.describes_expression_iff {l : Lexeme} :
    Expectation.expression.Describes l ↔ Opens DerivesFreely [l] := by
  constructor
  · intro hl
    obtain ⟨tail, e, he⟩ := Reader.opens_operand (n := 0) hl
    exact ⟨tail, e, 1, he.loosen (by decide)⟩
  · rintro ⟨tail, e, n, he⟩
    obtain ⟨l', ms, hls, hl⟩ := he.describes_head
    cases hls
    exact hl

/-! ### What stands in front -/

/-- With each lexeme that the words for an expectation speak of, the lexemes in front begin a
program. -/
def Expectation.TrueAfter (what : Expectation) (front : List Lexeme) : Prop :=
  ∀ l, what.Describes l → Opens (ProgramForm DerivesFreely) (front ++ [l])

theorem Expectation.TrueAfter.opens {what : Expectation} {front : List Lexeme}
    (h : what.TrueAfter front) : Opens (ProgramForm DerivesFreely) front := by
  obtain ⟨l, hl⟩ := what.exists_describes
  exact (h l hl).of_append

/-- An unexpected lexeme is reported where one is left, and nothing else is. -/
theorem Scan.explain_eq_unexpected_iff {limit : Nat} {s : Scan} {e : Refusal} {p : Position}
    {what : Expectation} {found : Lexeme} :
    s.explain limit e = .unexpected p what found ↔
      ∃ rest, e = .expected what (found :: rest) ∧ s.place (found :: rest) = p := by
  cases e with
  | expected what' place =>
      cases place with
      | nil =>
          rw [explain, errorAtEnd]
          cases s.stop <;> simp
      | cons l ls =>
          rw [explain]
          constructor
          · rintro ⟨⟩
            exact ⟨ls, rfl, rfl⟩
          · rintro ⟨rest, he, rfl⟩
            cases he
            rfl
  | tooDeep place unread looked =>
      rw [explain]
      split <;> simp

/-- An unexpected end is reported where no lexeme is left, in a text that is scanned to its end. -/
theorem Scan.explain_eq_unexpectedEnd_iff {limit : Nat} {s : Scan} {e : Refusal}
    {what : Expectation} :
    s.explain limit e = .unexpectedEnd what ↔ e = .expected what [] ∧ s.stop = .finished := by
  cases e with
  | expected what' place =>
      cases place with
      | nil =>
          rw [explain, errorAtEnd]
          cases s.stop <;> simp
      | cons l ls => simp [explain]
  | tooDeep place unread looked =>
      rw [explain]
      split <;> simp

/-- What is expected of the lexemes still to come is true after those read, unless it is the
statement that a text cut short has no lexeme for. -/
theorem trueAfter_of_refusalOf {limit : Nat} {s : Scan} {what : Expectation} {place : List Lexeme}
    (h : refusalOf s (readProgram limit s.lexemes) = some (.expected what place))
    (hplace : place ≠ [] ∨ s.stop = .finished) :
    ∃ front, s.lexemes = front ++ place ∧ what.TrueAfter front := by
  rcases refusalOf_eq_some_iff.mp h with hr | ⟨-, hstop, he⟩
  · exact readProgram_within hr
  · cases he
    exact absurd hplace (by simpa using hstop)

section Errors

variable {limit : Nat} {source : String} {what : Expectation}

/-- At a lexeme that is not expected: the lexemes in front of its place, and each lexeme that is
expected there. -/
theorem trueAfter_of_unexpected {p : Position} {found : Lexeme}
    (h : parseProgram limit source = .error (.unexpected p what found)) :
    ∃ ls after, ReadUpTo source.toList p ls after ∧ Leads after found ∧ what.TrueAfter ls := by
  obtain ⟨e, he, hexplain⟩ := parseProgram_eq_error_iff.mp h
  obtain ⟨rest, rfl, rfl⟩ := Scan.explain_eq_unexpected_iff.mp hexplain
  obtain ⟨ls, hls, htrue⟩ := trueAfter_of_refusalOf he (.inl (List.cons_ne_nil _ _))
  obtain ⟨after, hread, hleads, -⟩ := readUpTo_place hls htrue.opens
  exact ⟨ls, after, hread, hleads found rfl, htrue⟩

/-- At the end of a text: all its lexemes, and each lexeme that is expected behind them. -/
theorem trueAfter_of_unexpectedEnd
    (h : parseProgram limit source = .error (.unexpectedEnd what)) :
    ∃ ls, Spells source.toList ls ∧ what.TrueAfter ls := by
  obtain ⟨e, he, hexplain⟩ := parseProgram_eq_error_iff.mp h
  obtain ⟨rfl, hstop⟩ := Scan.explain_eq_unexpectedEnd_iff.mp hexplain
  obtain ⟨ls, hls, htrue⟩ := trueAfter_of_refusalOf he (.inr hstop)
  rw [List.append_nil] at hls
  exact ⟨ls, finishes_iff_spells.mp ⟨Stop.of_eq_finished_iff.mp hstop, hls⟩, htrue⟩

end Errors

end PropBench
