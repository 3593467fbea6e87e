import PropBench.Parser.Basic
import PropBench.Proofs.Lexeme.Pieces
import PropBench.Source.Reading

/-!
# Proofs — Parser — Trivia

Where a parser stands in a text, and what it finds there behind blanks and comments.

* `CutsAt cs ds`: the end `ds` of the text `cs` is scanned as it is in `cs`.
* `Faces cs ls`: the text `cs`, with the lexemes `ls`, begins with the first of them.
* `skip_cases`: blanks and comments are passed up to the next lexeme, or up to a comment that is
  never closed.
-/

namespace PropBench

open Scan

/-! ### Ends of a text -/

/-- The end `ds` of a text is scanned on its own as it is in the text. -/
def CutsAt (cs ds : List Char) : Prop :=
  ∃ front ls, cs = front ++ ds ∧ Precedes front ls (scan ds) (scan cs)

namespace CutsAt

variable {cs ds es : List Char}

theorem refl (cs : List Char) : CutsAt cs cs := ⟨[], [], rfl, .refl _⟩

theorem trans (h : CutsAt cs ds) (h' : CutsAt ds es) : CutsAt cs es := by
  obtain ⟨front, ls, rfl, hp⟩ := h
  obtain ⟨front', ls', rfl, hp'⟩ := h'
  exact ⟨front ++ front', ls ++ ls', by rw [List.append_assoc], hp.trans hp'⟩

theorem of_firstPiece {p : Piece} (h : firstPiece? cs = some (p, ds)) : CutsAt cs ds :=
  ⟨p.text, _, ((cuts_firstPiece h).2).symm, precedes_of_firstPiece h⟩

/-- Both scans stop at the same text. -/
theorem rest_eq (h : CutsAt cs ds) : (scan ds).rest = (scan cs).rest := by
  obtain ⟨front, ls, -, hp⟩ := h
  exact hp.rest.symm

theorem hitsOpenComment_eq (h : CutsAt cs ds) (left : List Lexeme) :
    (scan ds).hitsOpenComment left = (scan cs).hitsOpenComment left := by
  rw [hitsOpenComment, hitsOpenComment, Scan.stop, Scan.stop, h.rest_eq]

/-- The lexemes at the end are the last ones of the text. -/
theorem lexemes_suffix (h : CutsAt cs ds) : (scan ds).lexemes <:+ (scan cs).lexemes := by
  obtain ⟨front, ls, -, hp⟩ := h
  exact ⟨ls, hp.lexemes.symm⟩

end CutsAt

theorem eq_nil_of_hitsOpenComment {s : Scan} {left : List Lexeme}
    (h : s.hitsOpenComment left = true) : left = [] ∧ s.stop = .openComment := by
  simpa [hitsOpenComment] using h

/-! ### The front of a text -/

/-- The text begins with its first lexeme, or with none if it has none: there are neither blanks
nor comments in front. -/
inductive Faces : List Char → List Lexeme → Prop
  | lexeme {cs ds : List Char} {p : Piece} {l : Lexeme} (h : firstPiece? cs = some (p, ds))
      (hl : p.lexeme? = some l) : Faces cs (l :: (scan ds).lexemes)
  | nothing {cs : List Char} (h : firstPiece? cs = none)
      (hopen : Parser.opensComment cs = false) : Faces cs []

theorem scan_of_firstPiece_none {cs : List Char} (h : firstPiece? cs = none) :
    scan cs = ⟨[], cs⟩ := by
  rw [scan]
  split
  · rfl
  · next r hr => rw [h] at hr; cases hr

theorem scan_nil : scan [] = ⟨[], []⟩ := scan_of_firstPiece_none rfl

theorem lexemes_of_firstPiece {cs ds : List Char} {p : Piece}
    (h : firstPiece? cs = some (p, ds)) :
    (scan cs).lexemes = p.lexeme?.toList ++ (scan ds).lexemes :=
  (precedes_of_firstPiece h).lexemes

/-- A text stops with an open comment if it begins with one. -/
theorem stop_eq_openComment_iff {cs : List Char} :
    Stop.of cs = .openComment ↔ Parser.opensComment cs = true := by
  unfold Stop.of Parser.opensComment
  split
  · simp
  · simp
  · next c tail hno =>
      refine iff_of_false (by simp) fun h => ?_
      obtain ⟨body, hbody⟩ := List.isPrefixOf_iff_prefix.mp h
      cases hbody
      exact hno body rfl rfl

namespace Faces

variable {cs : List Char} {ls : List Lexeme}

theorem lexemes_eq (h : Faces cs ls) : (scan cs).lexemes = ls := by
  cases h with
  | lexeme h hl => rw [lexemes_of_firstPiece h, hl]; rfl
  | nothing h => rw [scan_of_firstPiece_none h]; rfl

theorem hitsOpenComment_eq (h : Faces cs ls) : (scan cs).hitsOpenComment ls = false := by
  cases h with
  | lexeme h hl => rfl
  | nothing h hopen =>
      rw [scan_of_firstPiece_none h, Bool.eq_false_iff]
      intro hhit
      have := stop_eq_openComment_iff.mp (eq_nil_of_hitsOpenComment hhit).2
      rw [hopen] at this
      cases this

end Faces

/-! ### Passing blanks and comments -/

namespace Parser

/-- The parse ends at the comment that a scan stops at. -/
def unclosed (cs : List Char) : Break := .final ⟨(scan cs).rest, .openComment⟩

theorem unclosed_eq {cs ds : List Char} (h : CutsAt cs ds) : unclosed ds = unclosed cs := by
  rw [unclosed, unclosed, h.rest_eq]

theorem firstPiece?_of_trivia {cs : List Char} {r : Piece × List Char}
    (h : trivia? cs = some r) : firstPiece? cs = some r ∧ r.1.lexeme? = none := by
  have hfirst : firstPiece? cs = some r := by
    rw [trivia?] at h
    rw [firstPiece?, ← Option.or_assoc, ← Option.or_assoc, @Option.or_assoc _ (blanks? cs), h]
    rfl
  refine ⟨hfirst, ?_⟩
  simp only [trivia?, Option.or_eq_some_iff] at h
  rcases h with h | ⟨-, h | ⟨-, h⟩⟩
  · unfold blanks? at h
    split at h <;> cases h
    rfl
  · unfold lineComment? at h
    split at h <;> cases h
    rfl
  · unfold blockComment? at h
    split at h
    · obtain ⟨u, -, rfl⟩ := Option.map_eq_some_iff.mp h
      rfl
    · cases h

theorem firstPiece?_of_no_trivia {cs : List Char} (h : trivia? cs = none) :
    firstPiece? cs = (word? cs).or (symbol? cs) := by
  rw [trivia?] at h
  rw [firstPiece?, ← Option.or_assoc, ← Option.or_assoc, @Option.or_assoc _ (blanks? cs), h]
  rfl

theorem lexeme?_of_word {cs : List Char} {r : Piece × List Char} (h : word? cs = some r) :
    r.1.lexeme? = some (.ofWord (String.ofList r.1.text)) := by
  obtain ⟨c, w, ds, -, rfl, -⟩ := word?_eq_some h
  rfl

theorem lexeme?_of_symbol {cs : List Char} {r : Piece × List Char} (h : symbol? cs = some r) :
    ∃ s, r.1.lexeme? = some (.symbol s) := by
  obtain ⟨s, ds, -, rfl⟩ := symbol?_eq_some h
  exact ⟨s, rfl⟩

/-- Behind blanks and comments stands the first lexeme, if there is one. -/
theorem faces_of_no_trivia {cs : List Char} (h : trivia? cs = none)
    (hopen : opensComment cs = false) : Faces cs (scan cs).lexemes := by
  have hfirst := firstPiece?_of_no_trivia h
  cases hr : firstPiece? cs with
  | none =>
      have hf : Faces cs [] := .nothing hr hopen
      rwa [hf.lexemes_eq]
  | some r =>
      obtain ⟨l, hl⟩ : ∃ l, r.1.lexeme? = some l := by
        rw [hr] at hfirst
        rcases Option.or_eq_some_iff.mp hfirst.symm with h | ⟨-, h⟩
        · exact ⟨_, lexeme?_of_word h⟩
        · obtain ⟨s, hs⟩ := lexeme?_of_symbol h
          exact ⟨_, hs⟩
      have hf : Faces cs (l :: (scan r.2).lexemes) := .lexeme hr hl
      rwa [hf.lexemes_eq]

/-- A text that begins with an open comment begins with no piece. -/
theorem firstPiece?_of_opensComment {cs : List Char} (h : trivia? cs = none)
    (hopen : opensComment cs = true) : firstPiece? cs = none := by
  obtain ⟨body, rfl⟩ := List.isPrefixOf_iff_prefix.mp hopen
  rw [firstPiece?_of_no_trivia h]
  rfl

/-- **Blanks and comments are passed** up to the next lexeme or the end; a comment that is never
closed ends the parse. -/
theorem skip_cases (cs : List Char) :
    ((scan cs).hitsOpenComment (scan cs).lexemes = true ∧ skip cs = .error (unclosed cs)) ∨
      ((scan cs).hitsOpenComment (scan cs).lexemes = false ∧
        ∃ u, skip cs = .ok u ∧ CutsAt cs u.rest ∧ Faces u.rest (scan cs).lexemes) := by
  fun_induction skip cs with
  | case1 cs h hopen =>
      have hscan := scan_of_firstPiece_none (firstPiece?_of_opensComment h hopen)
      refine .inl ⟨?_, by rw [unclosed, hscan]⟩
      rw [hscan, hitsOpenComment, Scan.stop, stop_eq_openComment_iff.mpr hopen]
      rfl
  | case2 cs h hopen =>
      have hf := faces_of_no_trivia h (by simpa using hopen)
      exact .inr ⟨hf.hitsOpenComment_eq, _, rfl, .refl _, hf⟩
  | case3 cs r h hlt ih =>
      -- One piece of trivia is passed, and the scan loses no lexeme with it.
      obtain ⟨hfirst, hl⟩ := firstPiece?_of_trivia h
      have hcut := CutsAt.of_firstPiece hfirst
      have hlexemes : (scan r.2).lexemes = (scan cs).lexemes := by
        rw [lexemes_of_firstPiece hfirst, hl]
        rfl
      rw [hcut.hitsOpenComment_eq, unclosed_eq hcut, hlexemes] at ih
      rcases ih with ⟨hhit, hskip⟩ | ⟨hhit, u, hskip, hu, hf⟩
      · exact .inl ⟨hhit, by rw [hskip]; rfl⟩
      · exact .inr ⟨hhit, _, by rw [hskip]; rfl, hcut.trans hu, hf⟩

end Parser

end PropBench
