import PropBench.Proofs.Grammar.Statement
import PropBench.Proofs.Lexeme.Spelling
import PropBench.Source.Reading

/-!
# Proofs — Source — Parsing

The texts of programs.

* `parseProgram_eq_ok_iff`: a text is parsed to a program exactly when it spells lexemes from which
  the grammar derives the program.
-/

namespace PropBench

theorem Stop.of_eq_finished_iff {cs : List Char} : Stop.of cs = .finished ↔ cs = [] := by
  unfold Stop.of
  split <;> simp

/-- A text is read if no reader refuses and no text is left. -/
theorem refusalOf_eq_none_iff {s : Scan} {r : ProgramReading} :
    refusalOf s r = none ↔ r.refusal? = none ∧ s.rest = [] := by
  rw [refusalOf, ← Stop.of_eq_finished_iff]
  cases r.refusal? with
  | some e => simp
  | none =>
      dsimp only
      rw [Scan.stop]
      split <;> simp_all

/-- A text is refused where its lexemes are, or else where its scan stops early. -/
theorem refusalOf_eq_some_iff {s : Scan} {r : ProgramReading} {e : Refusal} :
    refusalOf s r = some e ↔ r.refusal? = some e ∨
      (r.refusal? = none ∧ s.stop ≠ .finished ∧ e = .expected .statement []) := by
  unfold refusalOf
  cases r.refusal? with
  | some e' => simp
  | none =>
      by_cases hs : s.stop = .finished
      · simp [hs]
      · simp [hs, eq_comm]

/-- The error of a text explains its refusal. -/
theorem parseProgram_eq_error_iff {limit : Nat} {source : String} {err : SyntaxError} :
    parseProgram limit source = .error err ↔ ∃ e, refusalOf (scan source.toList)
        (readProgram limit (scan source.toList).lexemes) = some e ∧
      (scan source.toList).explain limit e = err := by
  rw [parseProgram, parseText]
  cases refusalOf (scan source.toList) (readProgram limit (scan source.toList).lexemes) with
  | none => simp
  | some e => simp

theorem parseProgram_of_no_error {limit : Nat} {source : String}
    (h : (parseText limit source).error? = none) :
    parseProgram limit source = .ok (parseText limit source).statements := by
  rw [parseProgram, h]

/-- An error in a text hides the statements in front of it. -/
theorem parseProgram_of_error? {limit : Nat} {source : String} {err : SyntaxError}
    (h : (parseText limit source).error? = some err) : parseProgram limit source = .error err := by
  rw [parseProgram, h]

/-- A program is parsed when the scan reaches the end of the text and the lexemes are read to the
end. -/
theorem parseProgram_eq_ok_iff_read {limit : Nat} {source : String} {p : Program} :
    parseProgram limit source = .ok p ↔ (scan source.toList).rest = [] ∧
      readProgram limit (scan source.toList).lexemes = ⟨p, none⟩ := by
  rw [parseProgram, parseText]
  cases h : refusalOf (scan source.toList) (readProgram limit (scan source.toList).lexemes) with
  | none =>
      obtain ⟨hr, hs⟩ := refusalOf_eq_none_iff.mp h
      constructor
      · intro he
        have hp : (readProgram limit (scan source.toList).lexemes).statements = p :=
          Except.ok.inj he
        exact ⟨hs, by rw [← hp, ← hr]⟩
      · rintro ⟨-, hp⟩
        rw [hp]
  | some e =>
      constructor
      · rintro ⟨⟩
      · rintro ⟨hs, hp⟩
        have hn := refusalOf_eq_none_iff.mpr ⟨congrArg ProgramReading.refusal? hp, hs⟩
        rw [h] at hn; cases hn

/-- **The parser accepts exactly the grammar**, and gives the program that is derived. -/
theorem parseProgram_eq_ok_iff {limit : Nat} {source : String} {p : Program} :
    parseProgram limit source = .ok p ↔
      ∃ ls, Spells source.toList ls ∧ ProgramForm (DerivesWithin limit) ls p := by
  rw [parseProgram_eq_ok_iff_read]
  simp only [← finishes_iff_spells, ← readProgram_eq_iff, Scan.Finishes]
  constructor
  · rintro ⟨hs, hp⟩; exact ⟨_, ⟨hs, rfl⟩, hp⟩
  · rintro ⟨_, ⟨hs, rfl⟩, hp⟩; exact ⟨hs, hp⟩

end PropBench
