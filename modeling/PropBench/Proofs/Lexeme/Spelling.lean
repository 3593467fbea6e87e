import Mathlib
import PropBench.Lexeme.Scan

/-!
# Proofs — Lexeme — Spelling

The texts that spell a list of lexemes (`Spells`): lexemes with blanks and comments between.  A
word ends where no character of a word follows, a line comment ends at the end of its line or of
the text, and a block comment at the first `*/`.

* `Lexeme.isWord_iff`: a word spells one lexeme.
* `firstPiece?_iff`: what is cut off a text is the piece that it begins with (`IsPiece`).
* `finishes_iff_spells`: the scan of a text reaches its end, with the lexemes that the text spells
  and no others.
-/

namespace PropBench

/-- A word spells a keyword in any case; of the others, a lone underscore spells the wildcard and
any other word the name that it is. -/
inductive Lexeme.IsWord : String → Lexeme → Prop
  | keyword {word : String} {k : Keyword} (h : k.text = word.toUpper) : IsWord word (.keyword k)
  | wildcard : IsWord "_" .wildcard
  | name {word : String} (hk : ∀ k : Keyword, k.text ≠ word.toUpper) (hw : word ≠ "_") :
      IsWord word (.name word)

/-- A text made of blanks, comments and the given lexemes. -/
inductive Spells : List Char → List Lexeme → Prop
  | nil : Spells [] []
  | blank {c : Char} {cs : List Char} {ls : List Lexeme} (hc : isBlank c = true)
      (h : Spells cs ls) : Spells (c :: cs) ls
  | lineComment {body cs : List Char} {ls : List Lexeme} (hb : '\n' ∉ body)
      (hend : ∀ c ∈ cs.head?, c = '\n') (h : Spells cs ls) :
      Spells ('/' :: '/' :: (body ++ cs)) ls
  | blockComment {body cs : List Char} {ls : List Lexeme} (hb : ¬ ['*', '/'] <:+: body)
      (h : Spells cs ls) : Spells ('/' :: '*' :: (body ++ '*' :: '/' :: cs)) ls
  | word {c : Char} {w cs : List Char} {l : Lexeme} {ls : List Lexeme} (hc : isWordStart c = true)
      (hw : ∀ d ∈ w, isWordChar d = true) (hend : ∀ d ∈ cs.head?, isWordChar d = false)
      (hl : l.IsWord (String.ofList (c :: w))) (h : Spells cs ls) :
      Spells (c :: (w ++ cs)) (l :: ls)
  | symbol (s : Symbol) {cs : List Char} {ls : List Lexeme} (h : Spells cs ls) :
      Spells (s.chars ++ cs) (.symbol s :: ls)

/-- A piece of a kind, in front of a text: a run of blanks, a comment up to the end of its line or
to the first `*/`, a word, or a symbol. -/
inductive IsPiece : PieceKind → List Char → List Char → Prop
  | whitespace {c : Char} {w cs : List Char} (hw : ∀ d ∈ c :: w, isBlank d = true)
      (hend : ∀ d ∈ cs.head?, isBlank d = false) : IsPiece .whitespace (c :: w) cs
  | lineComment {body cs : List Char} (hb : '\n' ∉ body) (hend : ∀ c ∈ cs.head?, c = '\n') :
      IsPiece .lineComment ('/' :: '/' :: body) cs
  | blockComment {body : List Char} (hb : ¬ ['*', '/'] <:+: body) (cs : List Char) :
      IsPiece .blockComment ('/' :: '*' :: (body ++ ['*', '/'])) cs
  | word {c : Char} {w cs : List Char} {l : Lexeme} (hc : isWordStart c = true)
      (hw : ∀ d ∈ w, isWordChar d = true) (hend : ∀ d ∈ cs.head?, isWordChar d = false)
      (hl : l.IsWord (String.ofList (c :: w))) : IsPiece (.lexeme l) (c :: w) cs
  | symbol (s : Symbol) (cs : List Char) : IsPiece (.lexeme (.symbol s)) s.chars cs

/-! ### Words -/

theorem Keyword.mem_all (k : Keyword) : k ∈ all := by cases k <;> decide

theorem Keyword.text_injective {k k' : Keyword} (h : k.text = k'.text) : k = k' := by
  revert h; cases k <;> cases k' <;> decide

/-- A word is a keyword, whatever the case of its letters. -/
theorem Keyword.ofWord?_eq_some {word : String} {k : Keyword} :
    ofWord? word = some k ↔ k.text = word.toUpper := by
  constructor
  · intro h
    simpa using List.find?_some h
  · intro h
    cases hf : ofWord? word with
    | none => exact absurd h (by simpa using List.find?_eq_none.mp hf k k.mem_all)
    | some k' =>
        have h' : k'.text = word.toUpper := by simpa using List.find?_some hf
        rw [text_injective (h'.trans h.symm)]

/-- A word has one lexeme. -/
theorem Lexeme.isWord_iff {word : String} {l : Lexeme} : l.IsWord word ↔ l = ofWord word := by
  unfold ofWord
  cases hk : Keyword.ofWord? word with
  | some k =>
      rw [Keyword.ofWord?_eq_some] at hk
      constructor
      · intro h
        cases h with
        | keyword h => rw [Keyword.text_injective (h.trans hk.symm)]
        | wildcard => exact absurd hk (by cases k <;> decide +kernel)
        | name hno => exact absurd hk (hno k)
      · rintro rfl; exact .keyword hk
  | none =>
      have hno : ∀ k : Keyword, k.text ≠ word.toUpper := fun k h => by
        rw [Keyword.ofWord?_eq_some.mpr h] at hk; cases hk
      constructor
      · intro h
        cases h with
        | keyword h => exact absurd h (hno _)
        | wildcard => rfl
        | name _ hw => exact (if_neg hw).symm
      · rintro rfl
        by_cases hw : word = "_"
        · subst hw; exact .wildcard
        · exact (if_neg hw).symm ▸ .name hno hw

/-! ### The first piece -/

/-- No word begins with a blank. -/
theorem isBlank_eq_false_of_isWordStart {c : Char} (h : isWordStart c = true) :
    isBlank c = false := by
  have hc : 65 ≤ c.toNat ∧ c.toNat ≤ 122 := by
    simp only [isWordStart, Char.isAlpha, Char.isUpper, Char.isLower, Bool.or_eq_true,
      decide_eq_true_eq, Bool.and_eq_true, beq_iff_eq] at h
    rcases h with (⟨h₁, h₂⟩ | ⟨h₁, h₂⟩) | rfl
    · exact ⟨h₁, h₂.trans (by decide)⟩
    · exact ⟨le_trans (by decide) h₁, h₂⟩
    · decide
  simp only [isBlank, blankRanges, List.any_eq_false, Bool.and_eq_true, decide_eq_true_eq]
  simp; omega

/-- No word begins like a comment. -/
theorem ne_slash_of_isWordStart {c : Char} (h : isWordStart c = true) : c ≠ '/' := by
  rintro rfl; revert h; decide

/-- A run of characters that nothing lengthens. -/
theorem takeWhile_dropWhile_of_run {p : Char → Bool} {w cs : List Char} (hw : ∀ d ∈ w, p d = true)
    (hend : ∀ d ∈ cs.head?, p d = false) :
    (w ++ cs).takeWhile p = w ∧ (w ++ cs).dropWhile p = cs := by
  rw [List.takeWhile_append_of_pos hw, List.dropWhile_append_of_pos hw]
  cases cs with
  | nil => simp
  | cons d ds => simp [hend d rfl]

theorem eq_false_of_mem_head?_dropWhile {p : Char → Bool} {cs : List Char} :
    ∀ d ∈ (cs.dropWhile p).head?, p d = false := fun d hd => by
  have h := List.head?_dropWhile_not p cs
  rw [hd] at h
  simpa using h

theorem blanks?_eq_none {c : Char} {cs : List Char} (hc : isBlank c = false) :
    blanks? (c :: cs) = none := by
  simp [blanks?, hc]

/-- Blanks are one piece, as far as they go. -/
theorem firstPiece?_whitespace {c : Char} {w cs : List Char} (hw : ∀ d ∈ c :: w, isBlank d = true)
    (hend : ∀ d ∈ cs.head?, isBlank d = false) :
    firstPiece? (c :: w ++ cs) = some (⟨.whitespace, c :: w⟩, cs) := by
  obtain ⟨ht, hd⟩ := takeWhile_dropWhile_of_run hw hend
  rw [firstPiece?, blanks?, ht, hd]
  rfl

/-- A line comment is one piece, up to the end of its line. -/
theorem firstPiece?_lineComment {body cs : List Char} (hb : '\n' ∉ body)
    (hend : ∀ c ∈ cs.head?, c = '\n') :
    firstPiece? ('/' :: '/' :: (body ++ cs)) =
      some (⟨.lineComment, '/' :: '/' :: body⟩, cs) := by
  obtain ⟨ht, hd⟩ : (body ++ cs).takeWhile (· != '\n') = body ∧ (body ++ cs).dropWhile _ = cs :=
    takeWhile_dropWhile_of_run (fun c hc => by simpa using fun e : c = '\n' => hb (e ▸ hc))
      fun c hc => by simp [hend c hc]
  rw [firstPiece?, blanks?_eq_none (by decide), lineComment?, ht, hd]; rfl

/-- A comment ends at its first closing mark. -/
theorem closing?_of_not_infix {body : List Char} (hb : ¬ ['*', '/'] <:+: body) (cs : List Char) :
    closing? (body ++ '*' :: '/' :: cs) = some (body ++ ['*', '/'], cs) := by
  induction body with
  | nil => rfl
  | cons c body ih =>
      have htail := ih fun h => hb (h.trans (List.infix_cons List.infix_rfl))
      have hstep : closing? (c :: (body ++ '*' :: '/' :: cs)) =
          (closing? (body ++ '*' :: '/' :: cs)).map fun r => (c :: r.1, r.2) := by
        rw [closing?]
        -- The text does not close at its front: the body would hold `*/`.
        rintro rest rfl hrest
        cases body with
        | nil => cases hrest
        | cons d body =>
            cases hrest
            exact hb (List.prefix_append ['*', '/'] body).isInfix
      rw [List.cons_append, hstep, htail]; rfl

/-- A block comment is one piece, up to its first closing mark. -/
theorem firstPiece?_blockComment {body : List Char} (hb : ¬ ['*', '/'] <:+: body)
    (cs : List Char) :
    firstPiece? ('/' :: '*' :: (body ++ '*' :: '/' :: cs)) =
      some (⟨.blockComment, '/' :: '*' :: (body ++ ['*', '/'])⟩, cs) := by
  rw [firstPiece?, blanks?_eq_none (by decide), blockComment?, closing?_of_not_infix hb]; rfl

/-- A word is one piece, as far as its characters go. -/
theorem firstPiece?_word {c : Char} {w cs : List Char} (hc : isWordStart c = true)
    (hw : ∀ d ∈ w, isWordChar d = true) (hend : ∀ d ∈ cs.head?, isWordChar d = false) :
    firstPiece? (c :: (w ++ cs)) =
      some (⟨.lexeme (.ofWord (String.ofList (c :: w))), c :: w⟩, cs) := by
  obtain ⟨ht, hd⟩ := takeWhile_dropWhile_of_run hw hend
  have hl : lineComment? (c :: (w ++ cs)) = none := by
    rw [lineComment?]; exact fun rest h => ne_slash_of_isWordStart hc (List.cons.inj h).1
  have hbc : blockComment? (c :: (w ++ cs)) = none := by
    rw [blockComment?]; exact fun rest h => ne_slash_of_isWordStart hc (List.cons.inj h).1
  rw [firstPiece?, blanks?_eq_none (isBlank_eq_false_of_isWordStart hc), hl, hbc, word?, if_pos hc,
    ht, hd]; rfl

/-- A symbol is one piece.  None that begins with it is cut in its place. -/
theorem firstPiece?_symbol (s : Symbol) (cs : List Char) :
    firstPiece? (s.chars ++ cs) = some (⟨.lexeme (.symbol s), s.chars⟩, cs) := by
  cases s <;> rfl

/-! ### The scan of a text -/

/-- The scan reaches the end of the text, with the given lexemes. -/
def Scan.Finishes (s : Scan) (ls : List Lexeme) : Prop := s.rest = [] ∧ s.lexemes = ls

/-- The scan takes the first piece, and scans the rest. -/
theorem scan_of_firstPiece {cs : List Char} {r : Piece × List Char}
    (h : firstPiece? cs = some r) :
    scan cs = ⟨r.1 :: (scan r.2).pieces, (scan r.2).rest⟩ := by
  rw [scan]
  split
  · next hn => rw [h] at hn; cases hn
  · next r' hs => rw [h] at hs; cases hs; rfl

/-- The lexemes of a text are that of its first piece, if it is one, and those of the rest. -/
theorem finishes_of_firstPiece {cs : List Char} {r : Piece × List Char}
    (h : firstPiece? cs = some r) {ls : List Lexeme} :
    (scan cs).Finishes ls ↔
      ∃ ms, (scan r.2).Finishes ms ∧ ls = r.1.lexeme?.toList ++ ms := by
  rw [scan_of_firstPiece h, Scan.Finishes]
  have hl : Scan.lexemes ⟨r.1 :: (scan r.2).pieces, (scan r.2).rest⟩ =
      r.1.lexeme?.toList ++ (scan r.2).lexemes := by
    rw [Scan.lexemes, List.filterMap_cons]
    cases r.1.lexeme? <;> rfl
  rw [hl]
  constructor
  · rintro ⟨hr, rfl⟩; exact ⟨_, ⟨hr, rfl⟩, rfl⟩
  · rintro ⟨ms, ⟨hr, rfl⟩, rfl⟩; exact ⟨hr, rfl⟩

/-- A run of blanks in front of a text changes nothing. -/
theorem finishes_dropWhile (cs : List Char) {ls : List Lexeme} :
    (scan cs).Finishes ls ↔ (scan (cs.dropWhile isBlank)).Finishes ls := by
  cases cs with
  | nil => rfl
  | cons c cs =>
      by_cases hc : isBlank c = true
      · have h : firstPiece? (c :: cs) =
            some (⟨.whitespace, c :: cs.takeWhile isBlank⟩, (c :: cs).dropWhile isBlank) := by
          rw [firstPiece?, blanks?, List.takeWhile_cons_of_pos hc]; rfl
        rw [finishes_of_firstPiece h]
        constructor
        · rintro ⟨ms, hms, rfl⟩; exact hms
        · intro h; exact ⟨ls, h, rfl⟩
      · rw [List.dropWhile_cons_of_neg hc]

theorem finishes_cons_blank {c : Char} (hc : isBlank c = true) (cs : List Char)
    {ls : List Lexeme} : (scan (c :: cs)).Finishes ls ↔ (scan cs).Finishes ls := by
  rw [finishes_dropWhile (c :: cs), List.dropWhile_cons_of_pos hc, ← finishes_dropWhile]

/-- A spelling is scanned as the lexemes it spells. -/
theorem finishes_of_spells {cs : List Char} {ls : List Lexeme} (h : Spells cs ls) :
    (scan cs).Finishes ls := by
  -- A blank is one step of the spelling; the scan takes the whole run (`finishes_dropWhile`).
  induction h with
  | nil => exact ⟨by decide +kernel, by decide +kernel⟩
  | blank hc _ ih => exact (finishes_cons_blank hc _).mpr ih
  | lineComment hb hend _ ih =>
      exact (finishes_of_firstPiece (firstPiece?_lineComment hb hend)).mpr ⟨_, ih, rfl⟩
  | blockComment hb _ ih =>
      exact (finishes_of_firstPiece (firstPiece?_blockComment hb _)).mpr ⟨_, ih, rfl⟩
  | word hc hw hend hl _ ih =>
      rw [Lexeme.isWord_iff.mp hl]
      exact (finishes_of_firstPiece (firstPiece?_word hc hw hend)).mpr ⟨_, ih, rfl⟩
  | symbol s _ ih =>
      exact (finishes_of_firstPiece (firstPiece?_symbol s _)).mpr ⟨_, ih, rfl⟩

/-- Blanks in front of a spelling are part of a spelling. -/
theorem spells_blanks {w cs : List Char} (hw : ∀ c ∈ w, isBlank c = true) {ls : List Lexeme}
    (h : Spells cs ls) : Spells (w ++ cs) ls := by
  induction w with
  | nil => exact h
  | cons c w ih => exact .blank (hw c (by simp)) (ih fun d hd => hw d (by simp [hd]))

/-- The text of a block comment ends at the first `*/`. -/
theorem closing?_eq_some {cs : List Char} {r : List Char × List Char} (h : closing? cs = some r) :
    ∃ body, r.1 = body ++ ['*', '/'] ∧ ¬ ['*', '/'] <:+: body ∧ cs = body ++ '*' :: '/' :: r.2 := by
  fun_induction closing? cs generalizing r with
  | case1 cs => cases h; exact ⟨[], rfl, by decide, rfl⟩
  | case2 c cs hc ih =>
      obtain ⟨u, hu, rfl⟩ := Option.map_eq_some_iff.mp h
      obtain ⟨body, hb, hno, rfl⟩ := ih hu
      refine ⟨c :: body, by rw [hb]; rfl, fun hin => ?_, rfl⟩
      rcases List.infix_cons_iff.mp hin with hpre | hin
      · obtain ⟨rest, e⟩ := hpre
        cases e
        exact hc (rest ++ '*' :: '/' :: u.2) rfl rfl
      · exact hno hin
  | case3 => cases h

/-- A word ends where no character of a word follows. -/
theorem word?_eq_some {cs : List Char} {r : Piece × List Char} (h : word? cs = some r) :
    ∃ c w ds, cs = c :: (w ++ ds) ∧
      r = (⟨.lexeme (.ofWord (String.ofList (c :: w))), c :: w⟩, ds) ∧ isWordStart c = true ∧
      (∀ d ∈ w, isWordChar d = true) ∧ ∀ d ∈ ds.head?, isWordChar d = false := by
  unfold word? at h
  split at h
  · next c cs =>
      by_cases hc : isWordStart c = true
      · rw [if_pos hc] at h
        refine ⟨c, _, _, ?_, (Option.some.inj h).symm, hc, fun d hd => List.mem_takeWhile_imp hd,
          eq_false_of_mem_head?_dropWhile⟩
        rw [List.takeWhile_append_dropWhile]
      · rw [if_neg hc] at h; cases h
  · cases h

theorem symbol?_eq_some {cs : List Char} {r : Piece × List Char} (h : symbol? cs = some r) :
    ∃ s ds, cs = s.chars ++ ds ∧ r = (⟨.lexeme (.symbol s), s.chars⟩, ds) := by
  obtain ⟨s, hs, rfl⟩ := Option.map_eq_some_iff.mp h
  have hp : s.chars.isPrefixOf cs = true := by simpa using List.find?_some hs
  obtain ⟨ds, rfl⟩ := List.isPrefixOf_iff_prefix.mp hp
  exact ⟨s, ds, rfl, by rw [List.drop_left]⟩

/-- What is cut off as a piece has the form of one. -/
theorem isPiece_of_firstPiece {cs : List Char} {r : Piece × List Char}
    (h : firstPiece? cs = some r) : IsPiece r.1.kind r.1.text r.2 := by
  simp only [firstPiece?, Option.or_eq_some_iff] at h
  -- The pieces are tried in this order, and none of those in front was found.
  rcases h with h | ⟨-, h | ⟨-, h | ⟨-, h | ⟨-, h⟩⟩⟩⟩
  · unfold blanks? at h
    split at h
    · cases h
    · next hne =>
        cases h
        obtain ⟨c, w, hcw⟩ := List.exists_cons_of_ne_nil hne
        have hw : ∀ d ∈ c :: w, isBlank d = true := fun d hd =>
          List.mem_takeWhile_imp (hcw ▸ hd)
        show IsPiece _ (cs.takeWhile isBlank) _
        rw [hcw]
        exact .whitespace hw eq_false_of_mem_head?_dropWhile
  · unfold lineComment? at h
    split at h
    · cases h
      refine .lineComment (fun hn => ?_) (fun c hc => ?_)
      · simpa using List.mem_takeWhile_imp hn
      · simpa using eq_false_of_mem_head?_dropWhile c hc
    · cases h
  · unfold blockComment? at h
    split at h
    · obtain ⟨u, hu, rfl⟩ := Option.map_eq_some_iff.mp h
      obtain ⟨body, hbody, hno, -⟩ := closing?_eq_some hu
      show IsPiece _ ('/' :: '*' :: u.1) _
      rw [hbody]
      exact .blockComment hno _
    · cases h
  · obtain ⟨c, w, ds, rfl, rfl, hc, hw, hend⟩ := word?_eq_some h
    exact .word hc hw hend (Lexeme.isWord_iff.mpr rfl)
  · obtain ⟨s, ds, rfl, rfl⟩ := symbol?_eq_some h
    exact .symbol s _

/-- **The piece that is cut off a text** is the one that the text begins with. -/
theorem firstPiece?_iff {p : Piece} {cs : List Char} :
    firstPiece? (p.text ++ cs) = some (p, cs) ↔ IsPiece p.kind p.text cs := by
  refine ⟨fun h => isPiece_of_firstPiece h, fun h => ?_⟩
  obtain ⟨kind, text⟩ := p
  cases h with
  | whitespace hw hend => exact firstPiece?_whitespace hw hend
  | lineComment hb hend => exact firstPiece?_lineComment hb hend
  | blockComment hb =>
      have := firstPiece?_blockComment hb cs
      simpa using this
  | word hc hw hend hl =>
      rw [Lexeme.isWord_iff.mp hl]
      exact firstPiece?_word hc hw hend
  | symbol s => exact firstPiece?_symbol s cs

theorem IsPiece.ne_nil {kind : PieceKind} {text cs : List Char} (h : IsPiece kind text cs) :
    text ≠ [] := by
  cases h with
  | symbol s => exact s.chars_ne_nil
  | _ => exact List.cons_ne_nil _ _

theorem mem_head?_of_initial {c : Char} {ds cs : List Char} (h : ds <+: cs) (hc : c ∈ ds.head?) :
    c ∈ cs.head? := by
  obtain ⟨tail, rfl⟩ := h
  obtain ⟨ds, rfl⟩ := List.head?_eq_some_iff.mp hc
  rfl

/-- A piece is one also where only a part of what comes behind is left. -/
theorem IsPiece.spells {p : Piece} {cs ds : List Char} {ms : List Lexeme}
    (h : IsPiece p.kind p.text cs) (hds : ds <+: cs) (hms : Spells ds ms) :
    Spells (p.text ++ ds) (p.lexeme?.toList ++ ms) := by
  obtain ⟨kind, text⟩ := p
  cases h with
  | whitespace hw => exact spells_blanks hw hms
  | lineComment hb hend =>
      exact .lineComment hb (fun c hc => hend c (mem_head?_of_initial hds hc)) hms
  | blockComment hb =>
      have := Spells.blockComment hb hms
      simpa [Piece.lexeme?] using this
  | word hc hw hend hl =>
      exact .word hc hw (fun d hd => hend d (mem_head?_of_initial hds hd)) hl hms
  | symbol s => exact .symbol s hms

/-- The pieces behind the first are those of the text behind it. -/
theorem firstPiece_of_scan {cs : List Char} {p : Piece} {ps : List Piece}
    (h : (scan cs).pieces = p :: ps) : ∃ ds, firstPiece? cs = some (p, ds) ∧
      (scan ds).pieces = ps ∧ (scan ds).rest = (scan cs).rest := by
  cases hp : firstPiece? cs with
  | none =>
      rw [scan] at h
      split at h
      · cases h
      · next hs => rw [hp] at hs; cases hs
  | some r =>
      rw [scan_of_firstPiece hp] at h ⊢
      cases h
      exact ⟨r.2, rfl, rfl, rfl⟩

theorem textOf_append (ps qs : List Piece) : textOf (ps ++ qs) = textOf ps ++ textOf qs :=
  List.flatMap_append

/-- The first pieces of a text spell the lexemes among them. -/
theorem spells_of_scan {cs : List Char} {ps qs : List Piece} (h : (scan cs).pieces = ps ++ qs) :
    Spells (textOf ps) (ps.filterMap Piece.lexeme?) := by
  induction ps generalizing cs with
  | nil => exact .nil
  | cons p ps ih =>
      obtain ⟨ds, hp, (hds : _ = ps ++ qs), -⟩ := firstPiece_of_scan h
      have hprefix : textOf ps <+: ds := by
        have := scan_text ds
        rw [hds, textOf_append, List.append_assoc] at this
        exact ⟨_, this⟩
      have := (isPiece_of_firstPiece hp).spells hprefix (ih hds)
      cases hl : p.lexeme? <;> simpa [textOf, hl] using this

/-- A text scanned to its end spells the lexemes found in it. -/
theorem spells_of_finishes {cs : List Char} {ls : List Lexeme} (h : (scan cs).Finishes ls) :
    Spells cs ls := by
  obtain ⟨hr, rfl⟩ := h
  have htext := scan_text cs
  rw [hr, List.append_nil] at htext
  have hs := spells_of_scan (List.append_nil (scan cs).pieces).symm
  rwa [htext] at hs

/-- **The scan reads exactly what the text spells.** -/
theorem finishes_iff_spells {cs : List Char} {ls : List Lexeme} :
    (scan cs).Finishes ls ↔ Spells cs ls :=
  ⟨spells_of_finishes, finishes_of_spells⟩

end PropBench
