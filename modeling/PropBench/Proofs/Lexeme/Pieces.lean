import PropBench.Proofs.Lexeme.Spelling

/-!
# Proofs — Lexeme — Pieces

What stands in front of a lexeme of a text, what a scan stops at, and the scan of a text behind
another.

* `Leads cs l`: the text `cs` begins with the lexeme `l`.
* `scan_before`: the text in front of a lexeme spells the lexemes in front of it.
* `of_stop_openComment`, `of_stop_stray`: the text where a scan stops early.
* `precedes_of_spells`: the scan of a text behind a line that spells some lexemes is the scan of the
  text, behind those lexemes.
-/

namespace PropBench

/-- The text begins with the lexeme. -/
inductive Leads : List Char → Lexeme → Prop
  | word {c : Char} {w cs : List Char} {l : Lexeme} (hc : isWordStart c = true)
      (hw : ∀ d ∈ w, isWordChar d = true) (hend : ∀ d ∈ cs.head?, isWordChar d = false)
      (hl : l.IsWord (String.ofList (c :: w))) : Leads (c :: (w ++ cs)) l
  | symbol (s : Symbol) (cs : List Char) : Leads (s.chars ++ cs) (.symbol s)

/-- A first piece that is a lexeme leads the text. -/
theorem leads_of_firstPiece {cs ds : List Char} {p : Piece} {l : Lexeme}
    (h : firstPiece? cs = some (p, ds)) (hl : p.lexeme? = some l) : Leads cs l := by
  obtain ⟨-, rfl⟩ := cuts_firstPiece h
  obtain ⟨kind, text⟩ := p
  cases isPiece_of_firstPiece h with
  | word hc hw hend hword => cases hl; exact .word hc hw hend hword
  | symbol s => cases hl; exact .symbol s _
  | _ => cases hl

/-- A text that a lexeme leads begins with some piece. -/
theorem Leads.exists_firstPiece {cs : List Char} {l : Lexeme} (h : Leads cs l) :
    ∃ r, firstPiece? cs = some r := by
  cases h with
  | word hc hw hend => exact ⟨_, firstPiece?_word hc hw hend⟩
  | symbol s cs => exact ⟨_, firstPiece?_symbol s cs⟩

/-! ### In front of a lexeme -/

theorem inFrontOf_cons {p : Piece} (hp : p.lexeme? = none) (k : Nat) (ps : List Piece) :
    inFrontOf k (p :: ps) = p :: inFrontOf k ps := by
  cases k <;> simp [inFrontOf, Piece.isLexeme, hp]

theorem inFrontOf_succ_cons {p : Piece} {l : Lexeme} (hp : p.lexeme? = some l) (k : Nat)
    (ps : List Piece) : inFrontOf (k + 1) (p :: ps) = p :: inFrontOf k ps := by
  rw [inFrontOf, Piece.isLexeme, hp]
  rfl

theorem inFrontOf_zero_cons {p : Piece} {l : Lexeme} (hp : p.lexeme? = some l)
    (ps : List Piece) : inFrontOf 0 (p :: ps) = [] := by
  rw [inFrontOf, Piece.isLexeme, hp]
  rfl

/-- Pieces divide in front of a lexeme, or behind the last piece. -/
theorem exists_inFrontOf (ps : List Piece) {front place : List Lexeme}
    (h : ps.filterMap Piece.lexeme? = front ++ place) :
    ∃ qs, ps = inFrontOf front.length ps ++ qs ∧
      (inFrontOf front.length ps).filterMap Piece.lexeme? = front ∧
      qs.head?.map Piece.lexeme? = place.head?.map some := by
  induction ps generalizing front with
  | nil =>
      obtain ⟨rfl, rfl⟩ := List.append_eq_nil_iff.mp h.symm
      exact ⟨[], rfl, rfl, rfl⟩
  | cons p ps ih =>
      cases hp : p.lexeme? with
      | none =>
          rw [List.filterMap_cons_none hp] at h
          obtain ⟨qs, hps, hfront, hqs⟩ := ih h
          rw [inFrontOf_cons hp]
          exact ⟨qs, by rw [List.cons_append, ← hps], by rw [List.filterMap_cons_none hp, hfront],
            hqs⟩
      | some l =>
          rw [List.filterMap_cons_some hp] at h
          cases front with
          | nil =>
              rw [List.length_nil, inFrontOf_zero_cons hp]
              obtain rfl : l :: ps.filterMap Piece.lexeme? = place := h
              exact ⟨p :: ps, rfl, rfl, by simp [hp]⟩
          | cons l' front =>
              cases (List.cons.inj h).1
              obtain ⟨qs, hps, hfront, hqs⟩ := ih (List.cons.inj h).2
              rw [List.length_cons, inFrontOf_succ_cons hp]
              exact ⟨qs, by rw [List.cons_append, ← hps],
                by rw [List.filterMap_cons_some hp, hfront], hqs⟩

/-- A text behind its first pieces is scanned as it stands. -/
theorem exists_of_scan_append {cs : List Char} {ps qs : List Piece}
    (h : (scan cs).pieces = ps ++ qs) :
    ∃ ds, cs = textOf ps ++ ds ∧ (scan ds).pieces = qs ∧ (scan ds).rest = (scan cs).rest := by
  induction ps generalizing cs with
  | nil => exact ⟨cs, rfl, h, rfl⟩
  | cons p ps ih =>
      obtain ⟨es, hp, hes, hrest⟩ := firstPiece_of_scan h
      obtain ⟨ds, rfl, hds, hdrest⟩ := ih hes
      have hcut : p.text ++ (textOf ps ++ ds) = cs := (cuts_firstPiece hp).2
      exact ⟨ds, by rw [← hcut, ← List.append_assoc]; rfl, hds, hdrest.trans hrest⟩

/-- **The text in front of a lexeme** spells the lexemes in front of it, and the text behind begins
with it; behind the last lexeme the text is what the scan stops at. -/
theorem scan_before {cs : List Char} {front place : List Lexeme}
    (h : (scan cs).lexemes = front ++ place) :
    ∃ after, cs = textOf (inFrontOf front.length (scan cs).pieces) ++ after ∧
      Spells (textOf (inFrontOf front.length (scan cs).pieces)) front ∧
      (∀ l ∈ place.head?, Leads after l) ∧ (place = [] → after = (scan cs).rest) := by
  obtain ⟨qs, hps, hfront, hqs⟩ := exists_inFrontOf (scan cs).pieces h
  obtain ⟨ds, hcs, hds, hrest⟩ := exists_of_scan_append hps
  have hspells := spells_of_scan hps
  rw [hfront] at hspells
  refine ⟨ds, hcs, hspells, fun l hl => ?_, fun hplace => ?_⟩
  · rw [Option.mem_def.mp hl] at hqs
    obtain ⟨p, hp, hpl⟩ := Option.map_eq_some_iff.mp hqs
    obtain ⟨tail, rfl⟩ := List.head?_eq_some_iff.mp hp
    obtain ⟨es, hpiece, -⟩ := firstPiece_of_scan hds
    exact leads_of_firstPiece hpiece hpl
  · subst hplace
    obtain rfl : qs = [] := by simpa using hqs
    have htext := scan_text ds
    rw [hds, hrest] at htext
    exact htext.symm

/-! ### Where a scan stops -/

/-- The scan goes on as long as there is a piece. -/
theorem firstPiece?_rest (cs : List Char) : firstPiece? (scan cs).rest = none := by
  fun_induction scan cs with
  | case1 cs h => exact h
  | case2 cs r h _ s ih => exact ih

/-- An open comment holds no mark that would close it. -/
theorem not_infix_of_closing?_eq_none {cs : List Char} (h : closing? cs = none) :
    ¬ ['*', '/'] <:+: cs := by
  fun_induction closing? cs with
  | case1 => cases h
  | case2 c cs hc ih =>
      intro hin
      rcases List.infix_cons_iff.mp hin with ⟨rest, hrest⟩ | hin
      · cases hrest
        exact hc rest rfl rfl
      · exact ih (by simpa using h) hin
  | case3 => simp

/-- A scan that stops at a comment stops at one that is never closed. -/
theorem of_stop_openComment {cs : List Char} (h : (scan cs).stop = .openComment) :
    ∃ body, (scan cs).rest = '/' :: '*' :: body ∧ ¬ ['*', '/'] <:+: body := by
  have hnone := firstPiece?_rest cs
  unfold Scan.stop Stop.of at h
  split at h
  · cases h
  · next body hrest =>
      refine ⟨body, hrest, not_infix_of_closing?_eq_none ?_⟩
      rw [hrest, firstPiece?, Option.or_eq_none_iff, Option.or_eq_none_iff,
        Option.or_eq_none_iff] at hnone
      have hblock := hnone.2.2.1
      rw [blockComment?] at hblock
      simpa using hblock
  · cases h

/-- A scan that stops at a character stops at one that is no blank and begins neither a
lexeme nor a comment. -/
theorem of_stop_stray {cs : List Char} {c : Char} (h : (scan cs).stop = .stray c) :
    ∃ tail, (scan cs).rest = c :: tail ∧ isBlank c = false ∧ (∀ l, ¬ Leads (c :: tail) l) ∧
      ¬ ['/', '/'] <+: c :: tail ∧ ¬ ['/', '*'] <+: c :: tail := by
  have hnone := firstPiece?_rest cs
  unfold Scan.stop Stop.of at h
  split at h
  · cases h
  · cases h
  · next d tail hopen hrest =>
      cases h
      rw [hrest] at hnone
      refine ⟨tail, hrest, ?_, fun l hl => ?_, ?_, ?_⟩
      · -- A blank would have been cut, and so would the comment below.
        rw [firstPiece?, Option.or_eq_none_iff] at hnone
        by_contra hblank
        rw [blanks?, List.takeWhile_cons_of_pos (by simpa using hblank)] at hnone
        cases hnone.1
      · obtain ⟨r, hr⟩ := hl.exists_firstPiece
        rw [hnone] at hr
        cases hr
      · rintro ⟨body, hbody⟩
        rw [← hbody, firstPiece?, Option.or_eq_none_iff, Option.or_eq_none_iff] at hnone
        cases hnone.2.1
      · rintro ⟨body, hbody⟩
        cases hbody
        exact hopen body rfl rfl

/-! ### A text behind another -/

/-- The scan `s` is the scan `t` with the text `cs` and its lexemes `ls` in front. -/
structure Scan.Precedes (cs : List Char) (ls : List Lexeme) (t s : Scan) : Prop where
  lexemes : s.lexemes = ls ++ t.lexemes
  rest : s.rest = t.rest
  before : ∀ k, textOf (inFrontOf (ls.length + k) s.pieces) = cs ++ textOf (inFrontOf k t.pieces)

namespace Scan.Precedes

variable {cs ds : List Char} {ls ms : List Lexeme} {s t u : Scan}

theorem refl (s : Scan) : Precedes [] [] s s where
  lexemes := rfl
  rest := rfl
  before k := by rw [List.length_nil, Nat.zero_add]; rfl

/-- What lies between two scans is put together. -/
theorem trans (h₁ : Precedes cs ls t s) (h₂ : Precedes ds ms u t) :
    Precedes (cs ++ ds) (ls ++ ms) u s where
  lexemes := by rw [h₁.lexemes, h₂.lexemes, List.append_assoc]
  rest := h₁.rest.trans h₂.rest
  before k := by
    rw [List.length_append, Nat.add_assoc, h₁.before, h₂.before, List.append_assoc]

/-- Texts without lexemes can be taken off both. -/
theorem of_trans (h : Precedes (cs ++ ds) ls u s) (h₂ : Precedes ds [] u t) :
    Precedes cs ls t s where
  lexemes := by rw [h.lexemes, h₂.lexemes]; rfl
  rest := h.rest.trans h₂.rest.symm
  before k := by
    have := h₂.before k
    rw [List.length_nil, Nat.zero_add] at this
    rw [h.before, this, List.append_assoc]

end Scan.Precedes

open Scan

/-- One piece lies between a text and what is left behind the piece. -/
theorem precedes_of_firstPiece {cs ds : List Char} {p : Piece}
    (h : firstPiece? cs = some (p, ds)) :
    Precedes p.text p.lexeme?.toList (scan ds) (scan cs) := by
  rw [scan_of_firstPiece h]
  cases hp : p.lexeme? with
  | none =>
      refine ⟨List.filterMap_cons_none hp, rfl, fun k => ?_⟩
      simp only [Option.toList_none, List.length_nil, Nat.zero_add]
      rw [inFrontOf_cons hp]
      rfl
  | some l =>
      refine ⟨List.filterMap_cons_some hp, rfl, fun k => ?_⟩
      simp only [Option.toList_some, List.length_singleton, Nat.add_comm 1 k]
      rw [inFrontOf_succ_cons hp]
      rfl

/-- Blanks lie between a text and its first mark, and hold no lexeme. -/
theorem precedes_takeWhile (cs : List Char) :
    Precedes (cs.takeWhile isBlank) [] (scan (cs.dropWhile isBlank)) (scan cs) := by
  cases hw : cs.takeWhile isBlank with
  | nil =>
      have hcs := List.takeWhile_append_dropWhile (p := isBlank) (l := cs)
      rw [hw] at hcs
      rw [show cs.dropWhile isBlank = cs from hcs]
      exact .refl _
  | cons c w =>
      have h : firstPiece? cs = some (⟨.whitespace, c :: w⟩, cs.dropWhile isBlank) := by
        rw [firstPiece?, blanks?, hw]
        rfl
      exact precedes_of_firstPiece h

/-- A blank in front of a text, also where it makes a run of blanks longer. -/
theorem precedes_blank {c : Char} (hc : isBlank c = true) (cs : List Char) :
    Precedes [c] [] (scan cs) (scan (c :: cs)) := by
  have h := precedes_takeWhile (c :: cs)
  rw [List.takeWhile_cons_of_pos hc, List.dropWhile_cons_of_pos hc] at h
  exact h.of_trans (precedes_takeWhile cs)

theorem mem_head?_append_line {p : Char → Prop} {cs : List Char} (h : ∀ c ∈ cs.head?, p c)
    (hp : p '\n') (ds : List Char) : ∀ c ∈ (cs ++ '\n' :: ds).head?, p c := by
  cases cs with
  | nil => rintro c ⟨⟩; exact hp
  | cons d cs => exact h

/-- **A text on the line behind another** is scanned as on its own. -/
theorem precedes_of_spells {cs : List Char} {ls : List Lexeme} (h : Spells cs ls)
    (ds : List Char) : Precedes (cs ++ ['\n']) ls (scan ds) (scan (cs ++ '\n' :: ds)) := by
  induction h with
  | nil => exact precedes_blank (by decide) ds
  | blank hc _ ih => exact (precedes_blank hc _).trans ih
  | @lineComment body cs ls hb hend _ ih =>
      have h := precedes_of_firstPiece (firstPiece?_lineComment hb
        (mem_head?_append_line hend rfl ds))
      simpa [Piece.lexeme?] using h.trans ih
  | @blockComment body cs ls hb _ ih =>
      have h := precedes_of_firstPiece (firstPiece?_blockComment hb (cs ++ '\n' :: ds))
      simpa [Piece.lexeme?] using h.trans ih
  | @word c w cs l ls hc hw hend hl _ ih =>
      have h := precedes_of_firstPiece (firstPiece?_word hc hw
        (mem_head?_append_line hend (by decide) ds))
      rw [← Lexeme.isWord_iff.mp hl] at h
      simpa [Piece.lexeme?] using h.trans ih
  | @symbol s cs ls _ ih =>
      have h := precedes_of_firstPiece (firstPiece?_symbol s (cs ++ '\n' :: ds))
      simpa [Piece.lexeme?] using h.trans ih

end PropBench
