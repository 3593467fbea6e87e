import PropBench.Proofs.Parser.Statement
import PropBench.Proofs.Source.Parsing

/-!
# Proofs — Parser — Program

Programs are parsed as their lexemes are read.

* `program_cases`: a text is parsed to the statements that are read of it, or breaks where the
  reading is refused.
-/

namespace PropBench

open Scan

namespace Parser

variable {limit : Nat} {cs : List Char}

section Steps

variable {u : Passed Unit cs} {b : Break}

theorem program_of_skip_error (h : skip cs = .error b) : program limit cs = .error b := by
  rw [program, h]

theorem program_of_nil (h : skip cs = .ok u) (hrest : u.rest = []) :
    program limit cs = .ok [] := by
  rw [program, h]
  exact if_pos hrest

theorem program_of_statement_error (h : skip cs = .ok u) (hrest : u.rest ≠ [])
    (hb : statement limit u.rest = .error b) : program limit cs = .error b := by
  rw [program, h]
  dsimp only
  rw [if_neg hrest, hb]

theorem program_of_statement (h : skip cs = .ok u) (hrest : u.rest ≠ [])
    {t : Parsed Statement u.rest} (ht : statement limit u.rest = .ok t) :
    program limit cs = (program limit t.rest).map (t.value :: ·) := by
  rw [program, h]
  dsimp only
  rw [if_neg hrest, ht]

end Steps

/-- What is left of a text behind a statement is refused as the text is. -/
theorem refusalOf_of_cutsAt {ds : List Char} (h : CutsAt cs ds) (st : Statement)
    (r : ProgramReading) :
    refusalOf (scan cs) ⟨st :: r.statements, r.refusal?⟩ = refusalOf (scan ds) r := by
  rw [refusalOf, refusalOf, stop_eq_of_cutsAt h]

/-- Behind blanks and comments stands a lexeme, or what the scan stops at. -/
theorem scan_rest_of_faces {ds : List Char} (h : Faces ds []) : (scan ds).rest = ds := by
  cases h with
  | nothing h => rw [scan_of_firstPiece_none h]

/-- **A program is parsed as its lexemes are read**: to the same statements where none is refused,
and else up to the refusal. -/
theorem program_cases (limit : Nat) (cs : List Char) :
    (refusalOf (scan cs) (readProgram limit (scan cs).lexemes) = none ∧
      program limit cs = .ok (readProgram limit (scan cs).lexemes).statements) ∨
    ∃ e b, refusalOf (scan cs) (readProgram limit (scan cs).lexemes) = some e ∧
      program limit cs = .error b ∧ Ends limit cs e b := by
  -- On the length of the text, as each statement leaves less of it.
  induction hn : cs.length using Nat.strong_induction_on generalizing cs with
  | _ n ih =>
      rcases skip_cases cs with ⟨hhit, hskip⟩ | ⟨-, u, hskip, hcut, hf⟩
      · obtain ⟨hl, hstop⟩ := eq_nil_of_hitsOpenComment hhit
        refine .inr ⟨.expected .statement [], _, refusalOf_eq_some_iff.mpr (.inr ⟨?_, ?_, rfl⟩),
          program_of_skip_error hskip, .unclosed rfl hstop⟩
        · rw [hl, readProgram_nil]
        · rw [hstop]; decide
      have hlexemes := hf.lexemes_eq
      by_cases hrest : u.rest = []
      · have hscan : scan u.rest = ⟨[], []⟩ := hrest ▸ scan_nil
        have hl : (scan cs).lexemes = [] := by rw [← hlexemes, hscan]; rfl
        rw [hl, readProgram_nil]
        refine .inl ⟨refusalOf_eq_none_iff.mpr ⟨rfl, ?_⟩, program_of_nil hskip hrest⟩
        rw [← hcut.rest_eq, hscan]
      have hstatement := mirrors_statement limit u.rest
      rcases (Reader.statement limit).gives_or_refuses (scan u.rest).lexemes with
        ⟨st, rest, hg⟩ | ⟨e, he⟩
      · obtain ⟨ds, ⟨t, ht, rfl, rfl⟩, hcut', rfl⟩ := (hstatement.gives hg).resolve_right
          fun h => h.1
        have hcut'' := hcut.trans hcut'
        have hshort : t.rest.length < n := hn ▸ Nat.lt_of_lt_of_le t.shorter u.noLonger
        rw [← hlexemes, readProgram_of_gives hg, program_of_statement hskip hrest ht,
          refusalOf_of_cutsAt hcut'']
        rcases ih _ hshort t.rest rfl with ⟨hnone, hok⟩ | ⟨e, b, hsome, herror, hends⟩
        · exact .inl ⟨hnone, by rw [hok]; rfl⟩
        · exact .inr ⟨e, b, hsome, by rw [herror]; rfl, hends.of_cutsAt hcut''⟩
      · obtain ⟨b, hb, hends⟩ := hstatement.refuses he
        refine .inr ⟨e, b, refusalOf_eq_some_iff.mpr ?_,
          program_of_statement_error hskip hrest hb, hends.of_cutsAt hcut⟩
        rw [hlexemes] at he
        by_cases hl : (scan cs).lexemes = []
        · -- What follows the lexemes is no blank and no comment, so the scan stopped there.
          rw [hl] at he hf ⊢
          cases he
          refine .inr ⟨by rw [readProgram_nil], fun hstop => hrest ?_, rfl⟩
          rw [← scan_rest_of_faces hf, hcut.rest_eq]
          exact Stop.of_eq_finished_iff.mp hstop
        · exact .inl (readProgram_refusal?_eq_some.mpr ⟨hl, .inl he⟩)

end Parser

end PropBench
