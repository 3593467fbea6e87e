import PropBench.Proofs.Grammar.Exhaustion
import PropBench.Proofs.Grammar.Nesting
import PropBench.Proofs.Source.Parsing

/-!
# Proofs — Source — Limit

What the limit on expressions has to do with the parse of a text.

* `parseProgram_error_mono`: an error that is not a limit's is reported under higher limits too.
* `parse_limit`: a limit can do no more than stop a parse, and does so only for a formula that is
  deeper or more nested than it allows.
-/

namespace PropBench

/-! ### Refusals and limits -/

namespace Scan

variable {limit limit' : Nat} {s : Scan} {e : Refusal}

/-- An error that names a limit names the one in force. -/
theorem limit_of_explain {place : Position} {bound : Nat}
    (h : s.explain limit e = .tooDeep place bound) : bound = limit := by
  cases e with
  | expected what left =>
      cases left with
      | nil =>
          have hend : s.errorAtEnd what = .tooDeep place bound := h
          rw [errorAtEnd] at hend
          cases hstop : s.stop <;> simp [hstop] at hend
      | cons l ls => cases h
  | tooDeep left unread looked =>
      rw [explain] at h
      split at h
      · cases h
      · exact (SyntaxError.tooDeep.inj h).2.symm

/-- What is expected is explained without the limit. -/
theorem explain_expected (what : Expectation) (left : List Lexeme) :
    s.explain limit' (.expected what left) = s.explain limit (.expected what left) := by
  cases left <;> rfl

/-- Where a comment is never closed, a reader that looks for a lexeme comes upon it. -/
theorem explain_atEnd (hstop : s.stop = .openComment) (hend : e.AtEnd) :
    s.explain limit e = .unterminatedComment (s.place []) := by
  cases e with
  | expected what left =>
      obtain rfl : left = [] := hend
      show s.errorAtEnd what = _
      rw [errorAtEnd, hstop]
  | tooDeep left unread looked =>
      obtain ⟨rfl, rfl⟩ := hend
      rw [explain, if_pos]
      simp [hitsOpenComment, hstop]

/-- A limit is reported unless the reader came upon a comment that is never closed. -/
theorem atEnd_of_explain {left unread : List Lexeme} {looked : Bool}
    (h : ∀ place bound, s.explain limit (.tooDeep left unread looked) ≠ .tooDeep place bound) :
    s.stop = .openComment ∧ (Refusal.tooDeep left unread looked).AtEnd := by
  by_cases hlooked : (looked && s.hitsOpenComment unread) = true
  · obtain ⟨hl, hunread, hstop⟩ : looked = true ∧ unread = [] ∧ s.stop = .openComment := by
      simpa [hitsOpenComment] using hlooked
    exact ⟨hstop, hunread, hl⟩
  · exact absurd (if_neg hlooked) (h _ _)

end Scan

/-! ### Texts -/

section Texts

variable {limit limit' : Nat} (hl : limit ≤ limit') {source : String}
include hl

/-- A higher limit takes the same programs. -/
theorem parseProgram_ok_mono {p : Program} (h : parseProgram limit source = .ok p) :
    parseProgram limit' source = .ok p := by
  obtain ⟨ls, hs, hp⟩ := parseProgram_eq_ok_iff.mp h
  exact parseProgram_eq_ok_iff.mpr ⟨ls, hs, hp.mono fun _ _ he => he.mono hl⟩

theorem readProgram_refusal?_eq_none_mono {ls : List Lexeme}
    (h : (readProgram limit ls).refusal? = none) : (readProgram limit' ls).refusal? = none := by
  have hread : readProgram limit ls = ⟨(readProgram limit ls).statements, none⟩ := by rw [← h]
  have hp := (readProgram_eq_iff.mp hread).mono fun _ _ he => he.mono hl
  rw [readProgram_eq_iff.mpr hp]

/-- **An error that is not a limit's** is reported under higher limits too. -/
theorem parseProgram_error_mono {err : SyntaxError} (h : parseProgram limit source = .error err)
    (herr : ∀ place bound, err ≠ .tooDeep place bound) :
    parseProgram limit' source = .error err := by
  obtain ⟨e, he, rfl⟩ := parseProgram_eq_error_iff.mp h
  rw [parseProgram_eq_error_iff]
  rcases refusalOf_eq_some_iff.mp he with hr | ⟨hnone, hstop, rfl⟩
  · cases e with
    | expected what left =>
        have hr' : (readProgram limit' (scan source.toList).lexemes).refusal? = some _ :=
          (readProgram_agrees hl hr).self
        exact ⟨_, refusalOf_eq_some_iff.mpr (.inl hr'), Scan.explain_expected what left⟩
    | tooDeep left unread looked =>
        -- The readers still come to the comment, whatever they then miss or find too deep.
        obtain ⟨hstop, hend⟩ := Scan.atEnd_of_explain herr
        obtain ⟨e', hr', hend'⟩ := readProgram_keepsEnd hl hr hend
        refine ⟨e', refusalOf_eq_some_iff.mpr (.inl hr'), ?_⟩
        rw [Scan.explain_atEnd hstop hend', Scan.explain_atEnd hstop hend]
  · have hnone' := readProgram_refusal?_eq_none_mono hl hnone
    exact ⟨_, refusalOf_eq_some_iff.mpr (.inr ⟨hnone', hstop, rfl⟩), Scan.explain_expected ..⟩

/-- **The limit on expressions can only stop a parse.**  What is parsed or refused for another cause
under a limit is parsed or refused alike under a higher one.  A text that only the higher limit lets
through has a formula that is too deep, or too deeply nested, for the lower one. -/
theorem parse_limit (source : String) :
    ((∀ place bound, parseProgram limit source ≠ .error (.tooDeep place bound)) →
      parseProgram limit' source = parseProgram limit source) ∧
    (∀ place bound, parseProgram limit source = .error (.tooDeep place bound) → bound = limit) ∧
    ∀ p, parseProgram limit' source = .ok p → (∀ q, parseProgram limit source ≠ .ok q) →
      (∃ place, parseProgram limit source = .error (.tooDeep place limit)) ∧
      ∃ ls f ms e, Spells source.toList ls ∧ formulaLexemes f ms <:+: ls ∧
        .defineFormula f e ∈ p ∧ DerivesFreely ms e ∧ (limit < e.depth ∨ limit < nesting ms) := by
  have hsame (hno : ∀ place bound, parseProgram limit source ≠ .error (.tooDeep place bound)) :
      parseProgram limit' source = parseProgram limit source := by
    cases h : parseProgram limit source with
    | ok p => exact parseProgram_ok_mono hl h
    | error err =>
        exact parseProgram_error_mono hl h fun place bound herr => hno place bound (herr ▸ h)
  have hbound (place : Position) (bound : Nat)
      (h : parseProgram limit source = .error (.tooDeep place bound)) : bound = limit := by
    obtain ⟨e, -, he⟩ := parseProgram_eq_error_iff.mp h
    exact Scan.limit_of_explain he
  refine ⟨hsame, hbound, fun p hp hno => ⟨?_, ?_⟩⟩
  · by_contra hdeep
    push Not at hdeep
    refine hno p ((hsame fun place bound h => ?_).symm.trans hp)
    exact hdeep place (hbound place bound h ▸ h)
  · obtain ⟨ls, hs, hform⟩ := parseProgram_eq_ok_iff.mp hp
    -- If the program kept the lower limit it would be parsed under it.
    have hlow : ¬ ProgramForm (DerivesWithin limit) ls p := fun hq =>
      hno p (parseProgram_eq_ok_iff.mpr ⟨ls, hs, hq⟩)
    obtain ⟨f, ms, e, h⟩ := (hform.mono fun _ _ he => he.freely).exists_beyond hlow
    exact ⟨ls, f, ms, e, hs, h⟩

end Texts

/-- Parentheses that the lower limit does not allow, and a chain that neither limit allows, in front
of a comment that is never closed. -/
theorem parentheses_beyond_limit :
    let nested := "DEFINE FORMULA f = ((a));"
    let chain := "DEFINE FORMULA f = a & b & c /*"
    let unclosed : SyntaxError := .unterminatedComment ⟨1, 30⟩
    1 ≤ 2 ∧ parseProgram 1 nested = .error (.tooDeep ⟨1, 21⟩ 1) ∧
      parseProgram 2 nested = .ok [.defineFormula "f" (.var "a")] ∧
      (∃ ls f ms e, Spells nested.toList ls ∧ formulaLexemes f ms <:+: ls ∧
        .defineFormula f e ∈ [Statement.defineFormula "f" (.var "a")] ∧ DerivesFreely ms e ∧
        (1 < e.depth ∨ 1 < nesting ms)) ∧
      parseProgram 1 chain = .error unclosed ∧ parseProgram 2 chain = parseProgram 1 chain := by
  intro nested chain unclosed
  have hlow : parseProgram 1 nested = .error (.tooDeep ⟨1, 21⟩ 1) :=
    parseProgram_of_error? (by decide +kernel)
  have hhigh : parseProgram 2 nested = .ok [.defineFormula "f" (.var "a")] := by
    rw [parseProgram_of_no_error (by decide +kernel)]
    exact congrArg _ (by decide +kernel)
  have hopen : parseProgram 1 chain = .error unclosed := parseProgram_of_error? (by decide +kernel)
  have hle : 1 ≤ 2 := by decide
  refine ⟨hle, hlow, hhigh, ?_, hopen, ?_⟩
  · exact ((parse_limit hle nested).2.2 _ hhigh fun q hq => by rw [hlow] at hq; cases hq).2
  · exact (parse_limit hle chain).1 fun place bound h => by simp [hopen, unclosed] at h

end PropBench
