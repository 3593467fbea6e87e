import PropBench.Proofs.Lexeme.Pieces
import PropBench.Proofs.Source.Parsing
import PropBench.Proofs.Text.Position
import PropBench.Proofs.Viability.Statement

/-!
# Proofs — Source — Composition

The parse of a text behind another, and of texts with the same lexemes.

* `parse_line_append`: behind a program and a line feed, a text is parsed as on its own, to the
  statements behind those of the program or to the error further down.
* `parseProgram_same_lexemes`: texts that spell the same lexemes are read as the same program, or
  are refused for the same cause.
-/

namespace PropBench

/-! ### Places of errors -/

namespace SyntaxError

/-- The error with its place, if it has one, moved. -/
def mapPlace (f : Position → Position) : SyntaxError → SyntaxError
  | .unknownLexeme p c => .unknownLexeme (f p) c
  | .unterminatedComment p => .unterminatedComment (f p)
  | .unexpected p e l => .unexpected (f p) e l
  | .unexpectedEnd e => .unexpectedEnd e
  | .tooDeep p limit => .tooDeep (f p) limit
  | .unreadable => .unreadable

/-- The error wherever it is: its kind with everything but the place. -/
def cause (e : SyntaxError) : SyntaxError := e.mapPlace fun _ => .start

end SyntaxError

theorem hitsOpenComment_congr {s t : Scan} (hstop : s.stop = t.stop) (left : List Lexeme) :
    s.hitsOpenComment left = t.hitsOpenComment left := by
  rw [Scan.hitsOpenComment, hstop]
  rfl

/-- Scans that stop alike explain a refusal alike, apart from its place. -/
theorem explain_cause {s t : Scan} (hstop : s.stop = t.stop) (limit : Nat) (e : Refusal) :
    (s.explain limit e).cause = (t.explain limit e).cause := by
  cases e with
  | expected what place =>
      cases place with
      | nil =>
          show (s.errorAtEnd what).cause = (t.errorAtEnd what).cause
          unfold Scan.errorAtEnd
          rw [hstop]
          cases t.stop <;> rfl
      | cons l ls => rfl
  | tooDeep place unread looked =>
      rw [Scan.explain, Scan.explain, hitsOpenComment_congr hstop]
      split <;> rfl

/-! ### Texts with the same lexemes -/

/-- What is read of a text depends on its lexemes only. -/
theorem parseProgram_same_lexemes (limit : Nat) {s₁ s₂ : String} {ls : List Lexeme}
    (h₁ : Spells s₁.toList ls) (h₂ : Spells s₂.toList ls) :
    (∃ p, parseProgram limit s₁ = .ok p ∧ parseProgram limit s₂ = .ok p) ∨
      ∃ e₁ e₂, parseProgram limit s₁ = .error e₁ ∧ parseProgram limit s₂ = .error e₂ ∧
        e₁.cause = e₂.cause := by
  obtain ⟨hr₁, hl₁⟩ := finishes_iff_spells.mpr h₁
  obtain ⟨hr₂, hl₂⟩ := finishes_iff_spells.mpr h₂
  have hstop : (scan s₁.toList).stop = (scan s₂.toList).stop := by
    rw [Scan.stop, Scan.stop, hr₁, hr₂]
  cases hr : (readProgram limit ls).refusal? with
  | none =>
      have hread : readProgram limit ls = ⟨(readProgram limit ls).statements, none⟩ := by rw [← hr]
      refine .inl ⟨(readProgram limit ls).statements, ?_, ?_⟩
      · exact parseProgram_eq_ok_iff_read.mpr ⟨hr₁, hl₁ ▸ hread⟩
      · exact parseProgram_eq_ok_iff_read.mpr ⟨hr₂, hl₂ ▸ hread⟩
  | some e =>
      refine .inr ⟨_, _, parseProgram_eq_error_iff.mpr ⟨e, ?_, rfl⟩,
        parseProgram_eq_error_iff.mpr ⟨e, ?_, rfl⟩, explain_cause hstop limit e⟩
      · exact refusalOf_eq_some_iff.mpr (.inl (hl₁ ▸ hr))
      · exact refusalOf_eq_some_iff.mpr (.inl (hl₂ ▸ hr))

/-! ### A text behind another -/

/-- The statements of a program are read first. -/
theorem readProgram_append {limit : Nat} {ls : List Lexeme} {p : Program}
    (h : ProgramForm (DerivesWithin limit) ls p) (ms : List Lexeme) :
    readProgram limit (ls ++ ms) =
      ⟨p ++ (readProgram limit ms).statements, (readProgram limit ms).refusal?⟩ := by
  induction h with
  | nil => rfl
  | @cons ls ns st p hst _ ih =>
      rw [List.append_assoc, readProgram_of_gives (Reader.statement_complete hst _), ih]
      rfl

section Precedes

variable {cs : List Char} {ls : List Lexeme} {s t : Scan}

/-- Behind a line the same lexeme stands as many lines further down. -/
theorem Scan.Precedes.place (h : Scan.Precedes (cs ++ ['\n']) ls t s) {left : List Lexeme}
    (hleft : left.length ≤ t.lexemes.length) :
    s.place left = (t.place left).down (cs.count '\n' + 1) := by
  have hindex : s.index left = ls.length + t.index left := by
    rw [Scan.index, Scan.index, h.lexemes, List.length_append, Nat.add_sub_assoc hleft]
  rw [Scan.place, hindex, h.before, List.append_assoc, List.singleton_append, Position.after_line]
  rfl

theorem Scan.Precedes.stop (h : Scan.Precedes cs ls t s) : s.stop = t.stop := by
  rw [Scan.stop, h.rest]
  rfl

/-- A refusal of what stands behind a line is explained as on its own, further down. -/
theorem Scan.Precedes.explain (h : Scan.Precedes (cs ++ ['\n']) ls t s) (limit : Nat)
    {e : Refusal} (hplace : e.place.length ≤ t.lexemes.length) :
    s.explain limit e = (t.explain limit e).mapPlace (Position.down (cs.count '\n' + 1)) := by
  have hend : s.place [] = (t.place []).down (cs.count '\n' + 1) := h.place (Nat.zero_le _)
  cases e with
  | expected what place =>
      cases place with
      | nil =>
          show s.errorAtEnd what = (t.errorAtEnd what).mapPlace _
          unfold Scan.errorAtEnd
          rw [h.stop, hend]
          cases t.stop <;> rfl
      | cons l ms =>
          have hat : s.place (l :: ms) = _ := h.place hplace
          show SyntaxError.unexpected (s.place (l :: ms)) what l = _
          rw [hat]
          rfl
  | tooDeep place unread looked =>
      have hat : s.place place = _ := h.place hplace
      rw [Scan.explain, Scan.explain, hitsOpenComment_congr h.stop, hend, hat]
      split <;> rfl

end Precedes

/-- **Parsing is compositional**: behind a program and a line feed, a text is parsed as on its own,
except that an error is further down. -/
theorem parse_line_append {limit : Nat} {s₁ s₂ : String} {p₁ : Program}
    (h : parseProgram limit s₁ = .ok p₁) :
    (∀ p₂, parseProgram limit s₂ = .ok p₂ →
      parseProgram limit (s₁ ++ "\n" ++ s₂) = .ok (p₁ ++ p₂)) ∧
    ∀ e, parseProgram limit s₂ = .error e →
      parseProgram limit (s₁ ++ "\n" ++ s₂) =
        .error (e.mapPlace (Position.down (s₁.toList.count '\n' + 1))) := by
  obtain ⟨ls, hs, hp⟩ := parseProgram_eq_ok_iff.mp h
  have hprec := precedes_of_spells hs s₂.toList
  have htext : (s₁ ++ "\n" ++ s₂).toList = s₁.toList ++ '\n' :: s₂.toList := by simp
  rw [← htext] at hprec
  have hread := readProgram_append hp (scan s₂.toList).lexemes
  rw [← hprec.lexemes] at hread
  refine ⟨fun p₂ h₂ => ?_, fun err h₂ => ?_⟩
  · obtain ⟨hrest, hread₂⟩ := parseProgram_eq_ok_iff_read.mp h₂
    rw [hread₂] at hread
    exact parseProgram_eq_ok_iff_read.mpr ⟨hprec.rest.trans hrest, hread⟩
  · obtain ⟨e, he, rfl⟩ := parseProgram_eq_error_iff.mp h₂
    -- The place of the refusal is in the second text, so it moves down with it.
    have hplace : e.place.length ≤ (scan s₂.toList).lexemes.length := by
      rcases refusalOf_eq_some_iff.mp he with hr | ⟨-, -, rfl⟩
      · exact (readProgram_within hr).place_suffix.length_le
      · exact Nat.zero_le _
    refine parseProgram_eq_error_iff.mpr ⟨e, ?_, hprec.explain limit hplace⟩
    rw [refusalOf_eq_some_iff] at he ⊢
    rwa [hread, hprec.stop]

/-- A declaration, and behind it a query that is parsed, and one that is not. -/
theorem query_behind_declaration :
    let s₁ := "DEFINE VARIABLE a; // é\n/* p */"
    let s₂ := "ADEQUATE s;"
    let s₃ := "\n  ADEQUATE ;"
    parseProgram 3 s₁ = .ok [.defineVariables ["a"]] ∧
      parseProgram 3 s₂ = .ok [.adequate "s"] ∧
      parseProgram 3 (s₁ ++ "\n" ++ s₂) = .ok [.defineVariables ["a"], .adequate "s"] ∧
      parseProgram 3 s₃ = .error (.unexpected ⟨2, 12⟩ .opsetName (.symbol .semicolon)) ∧
      parseProgram 3 (s₁ ++ "\n" ++ s₃) =
        .error (.unexpected ⟨4, 12⟩ .opsetName (.symbol .semicolon)) := by
  intro s₁ s₂ s₃
  have h₁ : parseProgram 3 s₁ = .ok [.defineVariables ["a"]] := by
    rw [parseProgram_of_no_error (by decide +kernel)]
    exact congrArg _ (by decide +kernel)
  have h₂ : parseProgram 3 s₂ = .ok [.adequate "s"] := by
    rw [parseProgram_of_no_error (by decide +kernel)]
    exact congrArg _ (by decide +kernel)
  have h₃ : parseProgram 3 s₃ = .error (.unexpected ⟨2, 12⟩ .opsetName (.symbol .semicolon)) :=
    parseProgram_of_error? (by decide +kernel)
  have hlines : s₁.toList.count '\n' + 1 = 2 := by decide +kernel
  have h := (parse_line_append h₁).2 _ h₃
  rw [hlines] at h
  exact ⟨h₁, h₂, (parse_line_append h₁).1 _ h₂, h₃, h⟩

end PropBench
