import PropBench.Proofs.Grammar.Lookahead
import PropBench.Proofs.Lexeme.Pieces
import PropBench.Proofs.Source.Parsing
import PropBench.Proofs.Text.Position
import PropBench.Proofs.Viability.Statement

/-!
# Proofs — Source — Earliest

Where the errors of a text are reported: at the earliest place at which the text in front of it is
known to begin no program.

* `not_program_of_expected`: no program goes on with a lexeme that is refused.
* `ReadUpTo`: a place of a text, with the lexemes in front of it, which begin a program.
* `parse_error_earliest`: what stands at the place of each kind of error.
-/

namespace PropBench

/-- No program goes on as the lexemes do where something else is expected. -/
theorem not_program_of_expected {limit : Nat} {front place place' : List Lexeme}
    {what : Expectation}
    (h : (readProgram limit (front ++ place)).refusal? = some (.expected what place))
    (hhead : place'.head? = place.head?) (p : Program) :
    ¬ ProgramForm DerivesFreely (front ++ place') p := by
  intro hp
  -- Under a limit that admits the program, it is still refused at the same lexeme.
  obtain ⟨bound, hbound⟩ := hp.exists_limit
  obtain ⟨front', hfront, hlocal⟩ := readProgram_agrees (le_max_left limit bound) h
  obtain rfl := List.append_cancel_right hfront
  have hrefused : (readProgram (max limit bound) (front ++ place')).refusal? = some _ :=
    hlocal place' hhead
  rw [readProgram_eq_iff.mpr (hbound _ (le_max_right limit bound))] at hrefused
  cases hrefused

/-- What has been read of a text that is refused begins a program. -/
theorem exists_front_of_refusalOf {limit : Nat} {s : Scan} {e : Refusal}
    (h : refusalOf s (readProgram limit s.lexemes) = some e) :
    ∃ front, s.lexemes = front ++ e.left ∧ Opens (ProgramForm DerivesFreely) front := by
  rcases refusalOf_eq_some_iff.mp h with hr | ⟨hr, -, rfl⟩
  · exact (readProgram_within hr).opens
  · have hread : readProgram limit s.lexemes =
        ⟨(readProgram limit s.lexemes).statements, none⟩ := by rw [← hr]
    have hp := (readProgram_eq_iff.mp hread).mono fun _ _ hx => hx.freely
    exact ⟨s.lexemes, (List.append_nil _).symm, opens_of_form hp⟩

/-! ### Places -/

/-- The text in front of the place spells lexemes that begin a program, and `after` is the text from
there on. -/
def ReadUpTo (source : List Char) (p : Position) (ls : List Lexeme) (after : List Char) : Prop :=
  ∃ before, source = before ++ after ∧ p.line = before.count '\n' + 1 ∧
    p.column = (before.rtakeWhile (· ≠ '\n')).length + 1 ∧ Spells before ls ∧
    Opens (ProgramForm DerivesFreely) ls

/-- The place of the lexemes still to come is behind a text that spells those in front. -/
theorem exists_before_place {cs : List Char} {front left : List Lexeme}
    (h : (scan cs).lexemes = front ++ left) :
    ∃ before after, cs = before ++ after ∧ (scan cs).place left = Position.start.after before ∧
      Spells before front ∧ (∀ l ∈ left.head?, Leads after l) ∧
      (left = [] → after = (scan cs).rest) := by
  obtain ⟨after, hcs, hspells, hleads, hend⟩ := scan_before h
  refine ⟨_, after, hcs, ?_, hspells, hleads, hend⟩
  rw [Scan.place, Scan.index, h, List.length_append, Nat.add_sub_cancel]

/-- The place of the lexemes still to come is where those read end. -/
theorem readUpTo_place {cs : List Char} {front left : List Lexeme}
    (h : (scan cs).lexemes = front ++ left) (hopens : Opens (ProgramForm DerivesFreely) front) :
    ∃ after, ReadUpTo cs ((scan cs).place left) front after ∧
      (∀ l ∈ left.head?, Leads after l) ∧ (left = [] → after = (scan cs).rest) := by
  obtain ⟨before, after, hcs, hplace, hspells, hleads, hend⟩ := exists_before_place h
  rw [Position.after_start] at hplace
  exact ⟨after, ⟨before, hcs, by rw [hplace], by rw [hplace], hspells, hopens⟩, hleads, hend⟩

/-- What an error says of a text, apart from what is expected: the text in front of the place begins
a program, and what stands there is such that the text as a whole does not. -/
def SyntaxError.EarliestIn (source : List Char) : SyntaxError → Prop
  | .unexpected p _ found => ∃ ls after, ReadUpTo source p ls after ∧ Leads after found ∧
      ¬ Opens (ProgramForm DerivesFreely) (ls ++ [found])
  | .unknownLexeme p c => ∃ ls after, ReadUpTo source p ls (c :: after) ∧ isBlank c = false ∧
      (∀ l, ¬ Leads (c :: after) l) ∧ ¬ ['/', '/'] <+: c :: after ∧ ¬ ['/', '*'] <+: c :: after
  | .unterminatedComment p => ∃ ls body, ReadUpTo source p ls ('/' :: '*' :: body) ∧
      ¬ ['*', '/'] <:+: body
  | .unexpectedEnd _ => ∃ ls, Spells source ls ∧ Opens (ProgramForm DerivesFreely) ls ∧
      ∀ p, ¬ ProgramForm DerivesFreely ls p
  | .tooDeep _ _ => True
  | .unreadable => False

section Scanned

variable {cs : List Char} (hopens : Opens (ProgramForm DerivesFreely) (scan cs).lexemes)
include hopens

/-- Where every lexeme can be read, the text is read up to what is no lexeme. -/
theorem readUpTo_rest : ReadUpTo cs ((scan cs).place []) (scan cs).lexemes (scan cs).rest := by
  obtain ⟨after, hread, -, hend⟩ := readUpTo_place (List.append_nil _).symm hopens
  rwa [hend rfl] at hread

/-- A comment left open is reported where it opens. -/
theorem earliest_unterminatedComment (h : (scan cs).stop = .openComment) :
    (SyntaxError.unterminatedComment ((scan cs).place [])).EarliestIn cs := by
  obtain ⟨body, hrest, hno⟩ := of_stop_openComment h
  exact ⟨_, body, hrest ▸ readUpTo_rest hopens, hno⟩

/-- A stray character is reported where it stands. -/
theorem earliest_unknownLexeme {c : Char} (h : (scan cs).stop = .stray c) :
    (SyntaxError.unknownLexeme ((scan cs).place []) c).EarliestIn cs := by
  obtain ⟨tail, hrest, hno⟩ := of_stop_stray h
  exact ⟨_, tail, hrest ▸ readUpTo_rest hopens, hno⟩

end Scanned

/-- **An error is reported at the earliest place**: the text in front of it begins a program, and
with what stands there it begins none. -/
theorem parse_error_earliest {limit : Nat} {source : String} {err : SyntaxError}
    (h : parseProgram limit source = .error err) : err.EarliestIn source.toList := by
  obtain ⟨e, he, rfl⟩ := parseProgram_eq_error_iff.mp h
  obtain ⟨front, hfront, hopens⟩ := exists_front_of_refusalOf he
  cases e with
  | expected what place =>
      cases place with
      | nil =>
          obtain rfl : (scan source.toList).lexemes = front := hfront.trans (List.append_nil _)
          show SyntaxError.EarliestIn _ ((scan source.toList).errorAtEnd what)
          unfold Scan.errorAtEnd
          cases hstop : (scan source.toList).stop with
          | finished =>
              have hrest := Stop.of_eq_finished_iff.mp hstop
              rcases refusalOf_eq_some_iff.mp he with hr | ⟨-, hne, -⟩
              · refine ⟨_, finishes_iff_spells.mp ⟨hrest, rfl⟩, hopens, fun p hp => ?_⟩
                rw [← List.append_nil (scan source.toList).lexemes] at hr hp
                exact not_program_of_expected hr rfl p hp
              · exact absurd hstop hne
          | openComment => exact earliest_unterminatedComment hopens hstop
          | stray c => exact earliest_unknownLexeme hopens hstop
      | cons l rest =>
          have hr : (readProgram limit (front ++ l :: rest)).refusal? =
              some (.expected what (l :: rest)) := by
            rcases refusalOf_eq_some_iff.mp he with hr | ⟨-, -, heq⟩
            · rwa [hfront] at hr
            · cases heq
          obtain ⟨after, hread, hleads, -⟩ := readUpTo_place hfront hopens
          refine ⟨front, after, hread, hleads l rfl, ?_⟩
          rintro ⟨tail, p, hp⟩
          have hhead : (l :: tail).head? = (l :: rest).head? := rfl
          rw [List.append_assoc] at hp
          exact not_program_of_expected hr hhead p hp
  | tooDeep place unread looked =>
      rw [Scan.explain]
      split
      · next hlooked =>
          -- Only a reader that looks for another lexeme comes upon the comment.
          obtain ⟨-, hunread, hstop⟩ : looked = true ∧ unread = [] ∧
              (scan source.toList).stop = .openComment := by
            simpa [Scan.hitsOpenComment] using hlooked
          subst hunread
          obtain rfl : (scan source.toList).lexemes = front := hfront.trans (List.append_nil _)
          exact earliest_unterminatedComment hopens hstop
      · trivial

/-- The column counts characters, and what stands in a comment is passed over. -/
theorem missing_variable_earliest :
    let source := "DEFINE // é\n  VARIABLE ;"
    let err : SyntaxError := .unexpected ⟨2, 12⟩ .variableName (.symbol .semicolon)
    parseProgram 3 source = .error err ∧ err.EarliestIn source.toList := by
  intro source err
  have h : parseProgram 3 source = .error err := parseProgram_of_error? (by decide +kernel)
  exact ⟨h, parse_error_earliest h⟩

end PropBench
