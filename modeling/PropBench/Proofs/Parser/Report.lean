import PropBench.Parser.Report
import PropBench.Proofs.Parser.Program

/-!
# Proofs — Parser — Report

The errors that breaks are reported as.

* `position_eq_place`: a place that is measured in the text is that of the lexemes that begin there.
* `describe_cases`: what a message calls the front of a text is its first lexeme, or the character
  that begins none.
* `report_eq`: a break is reported as the refusal of the lexemes is explained.
* `parse_eq`: **a text is parsed as its lexemes are read**.
-/

namespace PropBench

open Scan

namespace Parser

variable {source cs : List Char} {ls : List Lexeme}

/-! ### Places -/

theorem position_append (front cs : List Char) :
    position (front ++ cs) cs = Position.start.after front := by
  rw [position, List.length_append, Nat.add_sub_cancel, List.take_left]

/-- In front of the first lexeme stand only blanks and comments. -/
theorem textOf_inFrontOf_zero (h : Faces cs ls) : textOf (inFrontOf 0 (scan cs).pieces) = [] := by
  cases h with
  | lexeme h hl => rw [scan_of_firstPiece h, inFrontOf_zero_cons hl]; rfl
  | nothing h => rw [scan_of_firstPiece_none h]; rfl

theorem position_eq_place (hcut : CutsAt source cs) (hf : Faces cs ls) :
    position source cs = (scan source).place ls := by
  obtain ⟨front, ms, rfl, hp⟩ := hcut
  have hindex : (scan (front ++ cs)).index ls = ms.length + 0 := by
    rw [index, hp.lexemes, hf.lexemes_eq, List.length_append, Nat.add_sub_cancel]
    rfl
  rw [position_append, Scan.place, hindex, hp.before, textOf_inFrontOf_zero hf, List.append_nil]

/-- What a scan stops at stands behind all lexemes. -/
theorem position_rest (source : List Char) :
    position source (scan source).rest = (scan source).place [] := by
  obtain ⟨after, hsource, -, -, hend⟩ := scan_before (List.append_nil (scan source).lexemes).symm
  rw [hend rfl] at hsource
  have hplace : (scan source).place [] = Position.start.after
      (textOf (inFrontOf (scan source).lexemes.length (scan source).pieces)) := rfl
  generalize hfront : textOf (inFrontOf _ (scan source).pieces) = front at hsource hplace
  generalize (scan source).rest = rest at hsource ⊢
  rw [hplace]
  conv_lhs => rw [hsource]
  exact position_append front rest

/-! ### What stands there -/

theorem mem_all_symbols (s : Symbol) : s ∈ Symbol.all := by cases s <;> decide

/-- Of all symbols, only the one that a text faces stands at its front. -/
theorem atFront?_eq_some_iff (h : Faces cs ls) {s : Symbol} :
    Symbol.atFront? cs = some s ↔ ls.head? = some (.symbol s) := by
  constructor
  · intro hs
    exact (isPrefixOf_iff_of_faces h).mp (by simpa using List.find?_some hs)
  · intro hs
    cases hfront : Symbol.atFront? cs with
    | none =>
        have hno := List.find?_eq_none.mp hfront s (mem_all_symbols s)
        exact absurd ((isPrefixOf_iff_of_faces h).mpr hs) hno
    | some s' =>
        have hs' := (isPrefixOf_iff_of_faces h).mp (by simpa using List.find?_some hfront)
        rw [hs] at hs'
        cases hs'
        rfl

/-- **What a message calls the front of a text** is the lexeme there. -/
theorem describe_of_lexeme {l : Lexeme} (h : Faces cs (l :: ls)) :
    describe cs = .ok l.description := by
  unfold describe
  rcases word_cases h with ⟨t, l', ms, ht, hls, rfl, -⟩ | ⟨⟨x, hx⟩, hsymbol⟩
  · cases hls
    rw [ht]
  · obtain ⟨s, rfl⟩ := hsymbol l rfl
    rw [hx, (atFront?_eq_some_iff h).mpr rfl]

/-- A text that begins with no lexeme begins with the character that its scan stops at. -/
theorem describe_of_nothing {c : Char} (h : Faces (c :: cs) []) :
    describe (c :: cs) = .error c ∧ (scan (c :: cs)).stop = .stray c := by
  constructor
  · have hfront : Symbol.atFront? (c :: cs) = none := by
      by_contra hs
      obtain ⟨s, hs⟩ := Option.ne_none_iff_exists'.mp hs
      cases (atFront?_eq_some_iff h).mp hs
    unfold describe
    rcases word_cases h with ⟨t, l, ms, -, hls, -⟩ | ⟨⟨x, hx⟩, -⟩
    · cases hls
    · rw [hx, hfront]
  · cases h with
    | nothing h hopen =>
        rw [scan_of_firstPiece_none h]
        show Stop.of (c :: cs) = _
        unfold Stop.of
        split
        · next hnil => cases hnil
        · next hcs =>
            rw [hcs] at hopen
            cases hopen
        · next hcs => rw [(List.cons.inj hcs).1]

/-! ### Errors -/

/-- An expectation that is not met where a text faces its lexemes is reported as their refusal is
explained. -/
theorem reportUnmet_eq (hcut : CutsAt source cs) (hf : Faces cs ls) (limit : Nat)
    (what : Expectation) :
    reportUnmet source cs what.text =
      ((scan source).explain limit (.expected what ls)).inWords := by
  have hplace := position_eq_place hcut hf
  have hstop := stop_eq_of_cutsAt hcut
  unfold reportUnmet
  cases ls with
  | cons l ls =>
      have hne : cs ≠ [] := by
        rintro rfl
        have hl := hf.lexemes_eq
        rw [scan_nil] at hl
        cases hl
      rw [describe_of_lexeme hf]
      dsimp only
      rw [if_neg hne, hplace]
      rfl
  | nil =>
      rw [Scan.explain, Scan.errorAtEnd, ← hstop]
      cases cs with
      | nil =>
          rw [scan_nil]
          rfl
      | cons c cs =>
          obtain ⟨hdescribe, hstray⟩ := describe_of_nothing hf
          rw [hdescribe, hstray, hplace]
          rfl

/-- **A break is reported as the refusal is explained.** -/
theorem report_eq {limit : Nat} {e : Refusal} {b : Break} (h : Ends limit source e b) :
    report source b = ((scan source).explain limit e).inWords := by
  cases h with
  | unclosed hend hstop =>
      have hhit := hitsOpenComment_nil hstop
      have hexplain : (scan source).explain limit e =
          .unterminatedComment ((scan source).place []) := by
        cases e with
        | expected what place =>
            obtain rfl : place = [] := hend
            rw [Scan.explain, Scan.errorAtEnd, hstop]
        | tooDeep place unread looked =>
            obtain ⟨rfl, rfl⟩ := hend
            rw [Scan.explain, hhit]
            rfl
      rw [hexplain, SyntaxError.inWords, ← position_rest]
      rfl
  | @stands ds hno hcut hplace hface =>
      rcases skip_cases ds with ⟨hhit, -⟩ | ⟨-, u, hskip, hcut', hf⟩
      · rw [hplace, hcut.hitsOpenComment_eq, hface] at hhit
        cases hhit
      rw [hplace] at hf
      have hcut'' := hcut.trans hcut'
      rw [report, reportFailing]
      cases e with
      | expected what place =>
          rw [if_neg (by simp [Refusal.trouble]), hskip]
          exact reportUnmet_eq hcut'' hf limit what
      | tooDeep place unread looked =>
          have hlooked : (looked && (scan source).hitsOpenComment unread) = false := by
            by_contra hlook
            obtain ⟨hl, hhit⟩ := (Bool.and_eq_true _ _).mp (by simpa using hlook)
            obtain ⟨hnil, hstop⟩ := eq_nil_of_hitsOpenComment hhit
            exact hno ⟨hnil, hl⟩ hstop
          rw [if_neg (by simp [Refusal.trouble]), hskip, Scan.explain, hlooked]
          show ParseError.tooDeep (position source u.rest) limit = _
          rw [position_eq_place hcut'' hf]
          rfl

/-- **A text is parsed as its lexemes are read**: to the same program, or to the error of their
refusal in words. -/
theorem parse_eq (limit : Nat) (source : String) :
    parse limit source = (parseProgram limit source).mapError SyntaxError.inWords := by
  rw [parse, parseProgram, parseText]
  rcases program_cases limit source.toList with ⟨hnone, hok⟩ | ⟨e, b, hsome, herror, hends⟩
  · rw [hnone, hok]
    rfl
  · rw [hsome, herror]
    show Except.error (report source.toList b) = _
    rw [report_eq hends]
    rfl

end Parser

end PropBench
