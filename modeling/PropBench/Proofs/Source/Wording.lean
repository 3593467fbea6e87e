import PropBench.Proofs.Source.Earliest

/-!
# Proofs — Source — Wording

The message about a text that is no program.

* `messageAt`: a message begins with the line and the column of its place, counted in the text in
  front of it.
* `Malformed`: the message, and what stands at its place.  Where the text ends too early there is no
  place.
* `malformed_iff`: the message is that of the error in the text.
-/

namespace PropBench

/-- What is wrong behind `before`, with the line and the column there. -/
def messageAt (before : List Char) (words : String) : String :=
  toString (before.count '\n' + 1) ++ ":" ++
    toString ((before.rtakeWhile (· ≠ '\n')).length + 1) ++ ": " ++ words

/-- The message names the line and the column behind what comes before. -/
theorem messageAt_eq (before : List Char) (words : String) :
    messageAt before words = (Position.start.after before).text ++ ": " ++ words := by
  rw [Position.after_start]
  rfl

/-- A message with a place begins with a digit. -/
theorem ne_messageAt {m : String} {c : Char} (hc : c ∈ m.toList.head?) (hdigit : c.isDigit = false)
    (before : List Char) (words : String) : m ≠ messageAt before words := by
  rintro rfl
  have hdigits : Nat.toDigits 10 (before.count '\n' + 1) ≠ [] := Nat.toDigits_ne_nil
  rw [messageAt] at hc
  simp only [String.toList_append, Nat.toString_eq_repr, Nat.toList_repr, List.append_assoc] at hc
  rw [List.head?_append_of_ne_nil _ hdigits] at hc
  have := Nat.isDigit_of_mem_toDigits (by decide) (by decide) (List.mem_of_mem_head? hc)
  rw [hdigit] at this
  cases this

/-- The text is no program, and the message says why. -/
inductive Malformed (limit : Nat) (source : String) : String → Prop
  | unknownLexeme {before after : List Char} {c : Char}
      (hsource : source.toList = before ++ c :: after)
      (h : parseProgram limit source = .error (.unknownLexeme (.after .start before) c)) :
      Malformed limit source (messageAt before ("unknown lexeme '" ++ c.toString ++ "'"))
  | unterminatedComment {before body : List Char}
      (hsource : source.toList = before ++ '/' :: '*' :: body)
      (h : parseProgram limit source = .error (.unterminatedComment (.after .start before))) :
      Malformed limit source (messageAt before "unterminated comment")
  | unexpected {before after : List Char} {what : Expectation} {found : Lexeme}
      (hsource : source.toList = before ++ after) (hfound : Leads after found)
      (h : parseProgram limit source = .error (.unexpected (.after .start before) what found)) :
      Malformed limit source
        (messageAt before ("expected " ++ what.text ++ ", found " ++ found.description))
  | unexpectedEnd {what : Expectation}
      (h : parseProgram limit source = .error (.unexpectedEnd what)) :
      Malformed limit source ("unexpected end of input, expected " ++ what.text)
  | tooDeep {before after : List Char} (hsource : source.toList = before ++ after)
      (h : parseProgram limit source = .error (.tooDeep (.after .start before) limit)) :
      Malformed limit source (messageAt before ("expression nested deeper than " ++ toString limit))

section Messages

variable {limit : Nat} {source m : String}

/-- The words of a message follow its place. -/
theorem text_append_eq (before : List Char) {lead words : String} (hlead : lead = ": " ++ words)
    (rest : String) :
    (Position.start.after before).text ++ lead ++ rest = messageAt before (words ++ rest) := by
  rw [messageAt_eq, hlead]
  simp only [String.append_assoc]

/-- The message is that of the error. -/
theorem Malformed.exists_error (h : Malformed limit source m) :
    ∃ e, parseProgram limit source = .error e ∧ e.message = m := by
  cases h with
  | @unknownLexeme before after c _ h =>
      -- The literal begins with the colon that ends the place.
      have hlead : ": unknown lexeme '" = ": " ++ "unknown lexeme '" := by decide +kernel
      refine ⟨_, h, ?_⟩
      rw [String.append_assoc, ← text_append_eq before hlead, ← String.append_assoc]
      rfl
  | @unterminatedComment before _ _ h =>
      have hlead : ": unterminated comment" = ": " ++ "unterminated comment" := by decide +kernel
      have hmessage := text_append_eq before hlead ""
      rw [String.append_empty, String.append_empty] at hmessage
      exact ⟨_, h, hmessage⟩
  | @unexpected before after what found _ _ h =>
      have hlead : ": expected " = ": " ++ "expected " := by decide +kernel
      refine ⟨_, h, ?_⟩
      rw [String.append_assoc, String.append_assoc, ← text_append_eq before hlead,
        ← String.append_assoc, ← String.append_assoc]
      rfl
  | @tooDeep before _ _ h =>
      have hlead : ": expression nested deeper than " =
        ": " ++ "expression nested deeper than " := by decide +kernel
      exact ⟨_, h, text_append_eq before hlead _⟩
  | unexpectedEnd h => exact ⟨_, h, rfl⟩

/-- What a scan stops at stands behind all lexemes. -/
theorem exists_before_rest (source : String) :
    ∃ before, source.toList = before ++ (scan source.toList).rest ∧
      (scan source.toList).place [] = Position.start.after before := by
  obtain ⟨before, after, hsource, hplace, -, -, hend⟩ :=
    exists_before_place (List.append_nil (scan source.toList).lexemes).symm
  exact ⟨before, hend rfl ▸ hsource, hplace⟩

/-- A comment left open makes a text malformed. -/
theorem exists_malformed_of_openComment (hstop : (scan source.toList).stop = .openComment)
    (h : parseProgram limit source =
      .error (.unterminatedComment ((scan source.toList).place []))) :
    ∃ m, Malformed limit source m := by
  obtain ⟨before, hsource, hplace⟩ := exists_before_rest source
  obtain ⟨body, hrest, -⟩ := of_stop_openComment hstop
  rw [hrest] at hsource
  rw [hplace] at h
  exact ⟨_, .unterminatedComment hsource h⟩

/-- **Each error has its message**, and stands where the message says. -/
theorem exists_malformed_of_error {e : SyntaxError} (h : parseProgram limit source = .error e) :
    ∃ m, Malformed limit source m := by
  obtain ⟨r, hr, rfl⟩ := parseProgram_eq_error_iff.mp h
  have hsuffix : r.place <:+ (scan source.toList).lexemes := by
    rcases refusalOf_eq_some_iff.mp hr with hr | ⟨-, -, rfl⟩
    · exact (readProgram_within hr).place_suffix
    · exact List.nil_suffix
  obtain ⟨front, hfront⟩ := hsuffix
  obtain ⟨before, after, hsource, hplace, -, hleads, -⟩ := exists_before_place hfront.symm
  cases r with
  | expected what place =>
      cases place with
      | nil =>
          rw [Scan.explain, Scan.errorAtEnd] at h
          cases hstop : (scan source.toList).stop with
          | finished =>
              rw [hstop] at h
              exact ⟨_, .unexpectedEnd h⟩
          | openComment =>
              rw [hstop] at h
              exact exists_malformed_of_openComment hstop h
          | stray c =>
              rw [hstop] at h
              obtain ⟨before, hsource, hplace⟩ := exists_before_rest source
              obtain ⟨tail, hrest, -⟩ := of_stop_stray hstop
              rw [hrest] at hsource
              rw [hplace] at h
              exact ⟨_, .unknownLexeme hsource h⟩
      | cons l ls =>
          have hplace : (scan source.toList).place (l :: ls) = .after .start before := hplace
          rw [Scan.explain, hplace] at h
          exact ⟨_, .unexpected hsource (hleads l rfl) h⟩
  | tooDeep place unread looked =>
      rw [Scan.explain] at h
      -- Only a reader that had looked at the end is told of the comment.
      split at h
      · next hlooked =>
          obtain ⟨-, -, hstop⟩ : looked = true ∧ unread = [] ∧
              (scan source.toList).stop = .openComment := by
            simpa [Scan.hitsOpenComment] using hlooked
          exact exists_malformed_of_openComment hstop h
      · have hplace : (scan source.toList).place place = .after .start before := hplace
        rw [hplace] at h
        exact ⟨_, .tooDeep hsource h⟩

/-- A text is malformed, in the words of its message, just where it is refused with it. -/
theorem malformed_iff :
    Malformed limit source m ↔ ∃ e, parseProgram limit source = .error e ∧ e.message = m := by
  refine ⟨fun h => h.exists_error, ?_⟩
  rintro ⟨e, he, rfl⟩
  obtain ⟨m, hm⟩ := exists_malformed_of_error he
  obtain ⟨e', he', rfl⟩ := hm.exists_error
  rw [he] at he'
  cases he'
  exact hm

end Messages

end PropBench
