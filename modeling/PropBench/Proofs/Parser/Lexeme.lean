import PropBench.Parser.Statement
import PropBench.Proofs.Parser.Trivia

/-!
# Proofs — Parser — Lexeme

Parsers that look for one lexeme.  Each of them matches characters in its own way; all find the
lexeme that the scan finds there.

* `p.Finds f`: `p` takes the next lexeme, with its value by `f`, and fails recoverably where there
  is none or it has no value.
* `p.FindsAtFront f`: the same where no blank and no comment stands in front.
* One lemma for each parser of a lexeme, up to `finds_truthValue` and `finds_binaryOperator`.
-/

namespace PropBench

namespace Parser

variable {α β : Type}

/-- The parser takes `a` off the front of the text and leaves `rest`. -/
def Yields (p : Parser α) (cs : List Char) (a : α) (rest : List Char) : Prop :=
  ∃ t, p cs = .ok t ∧ t.value = a ∧ t.rest = rest

/-- The parser fails in a way that others may recover from. -/
def Misses (p : Parser α) (cs : List Char) : Prop := ∃ f, p cs = .error (.recoverable f)

/-- The parser ends the parse at a comment that is never closed. -/
def RunsOpen (p : Parser α) (cs : List Char) : Prop := p cs = .error (unclosed cs)

/-- The parser takes a lexeme that the text faces, with its value. -/
structure FindsAtFront (p : Parser α) (f : Lexeme → Option α) : Prop where
  found : ∀ {cs l ls a}, Faces cs (l :: ls) → f l = some a →
    ∃ ds, p.Yields cs a ds ∧ CutsAt cs ds ∧ (scan ds).lexemes = ls
  missed : ∀ {cs ls}, Faces cs ls → (∀ l ∈ ls.head?, f l = none) → p.Misses cs

/-- The parser takes the next lexeme of a text, with its value.  Where it comes to a comment that is
never closed, the parse ends. -/
structure Finds (p : Parser α) (f : Lexeme → Option α) : Prop where
  found : ∀ {cs l ls a}, (scan cs).lexemes = l :: ls → f l = some a →
    ∃ ds, p.Yields cs a ds ∧ CutsAt cs ds ∧ (scan ds).lexemes = ls
  missed : ∀ {cs}, (scan cs).hitsOpenComment (scan cs).lexemes = false →
    (∀ l ∈ (scan cs).lexemes.head?, f l = none) → p.Misses cs
  runsOpen : ∀ {cs}, (scan cs).hitsOpenComment (scan cs).lexemes = true → p.RunsOpen cs

variable {p q : Parser α} {f g : Lexeme → Option α}

/-! ### Ways to make a parser -/

theorem yields_congr {cs ds : List Char} {a : α} (h : p cs = q cs) :
    p.Yields cs a ds ↔ q.Yields cs a ds := by
  rw [Yields, Yields, h]

theorem misses_congr {cs : List Char} (h : p cs = q cs) : p.Misses cs ↔ q.Misses cs := by
  rw [Misses, Misses, h]

/-- A value found may be changed on the way. -/
theorem yields_map {cs ds : List Char} {a : α} (h : p.Yields cs a ds) (k : α → β) :
    (k <$> p : Parser β).Yields cs (k a) ds := by
  obtain ⟨t, ht, rfl, rfl⟩ := h
  refine ⟨t.map k, ?_, rfl, rfl⟩
  show (p cs).map (Parsed.map k) = _
  rw [ht]
  rfl

theorem map_error {cs : List Char} {b : Break} (h : p cs = .error b) (k : α → β) :
    (k <$> p : Parser β) cs = .error b := by
  show (p cs).map (Parsed.map k) = _
  rw [h]
  rfl

theorem FindsAtFront.congr (h : p.FindsAtFront f) (hfg : ∀ l, f l = g l) : p.FindsAtFront g := by
  rwa [← funext hfg]

theorem Finds.congr (h : p.Finds f) (hfg : ∀ l, f l = g l) : p.Finds g := by
  rwa [← funext hfg]

theorem Finds.map (h : p.Finds f) (k : α → β) :
    Finds (k <$> p : Parser β) fun l => (f l).map k where
  found hl hb := by
    obtain ⟨a, ha, rfl⟩ := Option.map_eq_some_iff.mp hb
    obtain ⟨ds, hy, hds⟩ := h.found hl ha
    exact ⟨ds, yields_map hy k, hds⟩
  missed hhit hno := by
    obtain ⟨x, hx⟩ := h.missed hhit fun l hl => Option.map_eq_none_iff.mp (hno l hl)
    exact ⟨x, map_error hx k⟩
  runsOpen hhit := map_error (h.runsOpen hhit) k

/-- Blanks and comments may always be passed again. -/
theorem Finds.atFront (h : p.Finds f) : p.FindsAtFront f where
  found hf ha := h.found hf.lexemes_eq ha
  missed hf hno := by
    refine h.missed ?_ ?_
    · rw [hf.lexemes_eq]; exact hf.hitsOpenComment_eq
    · rwa [hf.lexemes_eq]

/-- **Blanks and comments make no difference** to what is found behind them. -/
theorem FindsAtFront.finds (h : p.FindsAtFront f) : (afterTrivia p).Finds f where
  found {cs l ls a} hl ha := by
    rcases skip_cases cs with ⟨hhit, -⟩ | ⟨-, u, hskip, hcut, hf⟩
    · rw [hl] at hhit; cases hhit
    · rw [hl] at hf
      obtain ⟨ds, ⟨t, ht, rfl, rfl⟩, hcut', hds⟩ := h.found hf ha
      refine ⟨t.rest, ⟨t.within u.noLonger, ?_, rfl, rfl⟩, hcut.trans hcut', hds⟩
      rw [afterTrivia, hskip]
      dsimp only
      rw [ht]
      rfl
  missed {cs} hhit hno := by
    rcases skip_cases cs with ⟨hhit', -⟩ | ⟨-, u, hskip, hcut, hf⟩
    · rw [hhit] at hhit'; cases hhit'
    · obtain ⟨x, hx⟩ := h.missed hf hno
      refine ⟨x, ?_⟩
      rw [afterTrivia, hskip]
      dsimp only
      rw [hx]
      rfl
  runsOpen {cs} hhit := by
    rcases skip_cases cs with ⟨-, hskip⟩ | ⟨hhit', -⟩
    · rw [RunsOpen, afterTrivia, hskip]
    · rw [hhit] at hhit'; cases hhit'

theorem opt_of_yields {cs ds : List Char} {a : α} (h : p.Yields cs a ds) :
    ∃ t, opt p cs = .ok (some t) ∧ t.value = a ∧ t.rest = ds := by
  obtain ⟨t, ht, hv⟩ := h
  exact ⟨t, by rw [opt, ht], hv⟩

theorem opt_of_misses {cs : List Char} (h : p.Misses cs) : opt p cs = .ok none := by
  obtain ⟨x, hx⟩ := h
  rw [opt, hx]

/-- An attempt does not recover from a comment left open. -/
theorem opt_of_runsOpen {cs : List Char} (h : p.RunsOpen cs) :
    opt p cs = .error (unclosed cs) := by
  rw [opt, h]
  rfl

theorem orElse_of_yields {cs ds : List Char} {a : α} (h : p.Yields cs a ds) :
    (orElse p q).Yields cs a ds := by
  obtain ⟨t, ht, hv⟩ := opt_of_yields h
  exact ⟨t, by rw [orElse, ht], hv⟩

/-- The second alternative starts over where the first did. -/
theorem orElse_of_misses {cs : List Char} (h : p.Misses cs) : orElse p q cs = q cs := by
  rw [orElse, opt_of_misses h]

/-- Two alternatives without trivia in front find what either finds, the first of them first. -/
theorem FindsAtFront.orElse (h : p.FindsAtFront f) (h' : q.FindsAtFront g) :
    (orElse p q).FindsAtFront fun l => (f l).or (g l) where
  found hf ha := by
    rcases Option.or_eq_some_iff.mp ha with ha | ⟨hno, ha⟩
    · obtain ⟨ds, hy, hds⟩ := h.found hf ha
      exact ⟨ds, orElse_of_yields hy, hds⟩
    · obtain ⟨ds, hy, hds⟩ := h'.found hf ha
      have hmiss : p.Misses _ := h.missed hf fun l hl => by cases hl; exact hno
      refine ⟨ds, ?_, hds⟩
      rwa [Yields, orElse_of_misses hmiss]
  missed hf hno := by
    have hmiss := h.missed hf fun l hl => (Option.or_eq_none_iff.mp (hno l hl)).1
    rw [Misses, orElse_of_misses hmiss]
    exact h'.missed hf fun l hl => (Option.or_eq_none_iff.mp (hno l hl)).2

/-- Two alternatives find what either finds, the first of them first. -/
theorem Finds.orElse (h : p.Finds f) (h' : q.Finds g) :
    (orElse p q).Finds fun l => (f l).or (g l) where
  found hl ha := by
    rcases Option.or_eq_some_iff.mp ha with ha | ⟨hno, ha⟩
    · obtain ⟨ds, hy, hds⟩ := h.found hl ha
      exact ⟨ds, orElse_of_yields hy, hds⟩
    · obtain ⟨ds, hy, hds⟩ := h'.found hl ha
      have hmiss : p.Misses _ := h.missed (by rw [hl]; rfl) fun l' hl' => by
        rw [hl] at hl'; cases hl'; exact hno
      refine ⟨ds, ?_, hds⟩
      rwa [Yields, orElse_of_misses hmiss]
  missed hhit hno := by
    have hmiss := h.missed hhit fun l hl => (Option.or_eq_none_iff.mp (hno l hl)).1
    rw [Misses, orElse_of_misses hmiss]
    exact h'.missed hhit fun l hl => (Option.or_eq_none_iff.mp (hno l hl)).2
  runsOpen hhit := by
    rw [RunsOpen, Parser.orElse, opt_of_runsOpen (h.runsOpen hhit)]

/-! ### Words and symbols -/

/-- A text that begins with the characters of a symbol faces it. -/
theorem firstPiece?_of_isPrefixOf {s : Symbol} {cs : List Char}
    (h : s.chars.isPrefixOf cs = true) :
    firstPiece? cs = some (⟨.lexeme (.symbol s), s.chars⟩, cs.drop s.chars.length) := by
  obtain ⟨ds, rfl⟩ := List.isPrefixOf_iff_prefix.mp h
  rw [List.drop_left]
  exact firstPiece?_symbol s ds

/-- No word is a symbol. -/
theorem ofWord_ne_symbol (w : String) (s : Symbol) : Lexeme.ofWord w ≠ .symbol s := by
  unfold Lexeme.ofWord
  cases Keyword.ofWord? w with
  | some k => simp
  | none =>
      dsimp only
      split <;> simp

/-- The text of a symbol lexeme is the symbol. -/
theorem isPrefixOf_of_firstPiece? {s : Symbol} {cs ds : List Char} {p : Piece}
    (h : firstPiece? cs = some (p, ds)) (hp : p.lexeme? = some (.symbol s)) :
    s.chars.isPrefixOf cs = true ∧ ds = cs.drop s.chars.length := by
  obtain ⟨-, rfl⟩ := cuts_firstPiece h
  obtain ⟨kind, text⟩ := p
  cases isPiece_of_firstPiece h with
  | word hc hw hend hword =>
      rw [Lexeme.isWord_iff] at hword
      cases hp
      exact absurd hword.symm (ofWord_ne_symbol _ s)
  | symbol s' =>
      cases hp
      exact ⟨List.isPrefixOf_iff_prefix.mpr (List.prefix_append _ _), (List.drop_left).symm⟩
  | _ => cases hp

/-- The characters of a symbol stand at the front of a text that faces it, and of no other. -/
theorem isPrefixOf_iff_of_faces {s : Symbol} {cs : List Char} {ls : List Lexeme}
    (h : Faces cs ls) : s.chars.isPrefixOf cs = true ↔ ls.head? = some (.symbol s) := by
  constructor
  · intro hs
    have hfirst := firstPiece?_of_isPrefixOf hs
    rw [← h.lexemes_eq, lexemes_of_firstPiece hfirst]
    rfl
  · intro hl
    cases h with
    | nothing => cases hl
    | lexeme h hp =>
        cases hl
        exact (isPrefixOf_of_firstPiece? h hp).1

/-- A tag finds its symbol, and no other, at the front of a text. -/
theorem findsAtFront_tag (s : Symbol) :
    (tag s).FindsAtFront fun l => if l = .symbol s then some () else none where
  found {cs l ls a} hf ha := by
    split at ha
    · next hl =>
        subst hl
        have hs := (isPrefixOf_iff_of_faces hf).mpr rfl
        have hfirst := firstPiece?_of_isPrefixOf hs
        refine ⟨cs.drop s.chars.length, ⟨_, dif_pos hs, rfl, rfl⟩, .of_firstPiece hfirst, ?_⟩
        have hlexemes := lexemes_of_firstPiece hfirst
        rw [hf.lexemes_eq] at hlexemes
        exact (List.cons.inj hlexemes).2.symm
    · cases ha
  missed {cs ls} hf hno := by
    have hs : ¬ s.chars.isPrefixOf cs = true := by
      rw [(isPrefixOf_iff_of_faces hf)]
      intro hl
      have := hno _ hl
      rw [if_pos rfl] at this
      cases this
    exact ⟨_, dif_neg hs⟩

/-- A symbol is found, behind any trivia, just where it is the next lexeme. -/
theorem finds_symbol (s : Symbol) :
    (symbol s).Finds fun l => if l = .symbol s then some () else none :=
  (findsAtFront_tag s).finds

/-- A word that a lexeme is made of. -/
theorem word?_of_firstPiece? {cs ds : List Char} {p : Piece} {l : Lexeme}
    (h : firstPiece? cs = some (p, ds)) (hp : p.lexeme? = some l) (hl : ∀ s, l ≠ .symbol s) :
    word? cs = some (p, ds) ∧ l = .ofWord (String.ofList p.text) := by
  have hfirst := h
  simp only [firstPiece?, Option.or_eq_some_iff] at h
  -- Blanks and comments are no lexemes, and a symbol is excluded.
  rcases h with h | ⟨-, h | ⟨-, h | ⟨-, h | ⟨-, h⟩⟩⟩⟩
  · have htrivia : trivia? cs = some (p, ds) := by rw [trivia?, h]; rfl
    rw [(firstPiece?_of_trivia htrivia).2] at hp; cases hp
  · unfold lineComment? at h
    split at h <;> cases h
    cases hp
  · unfold blockComment? at h
    split at h
    · obtain ⟨u, -, hu⟩ := Option.map_eq_some_iff.mp h
      cases hu; cases hp
    · cases h
  · refine ⟨h, ?_⟩
    rw [lexeme?_of_word h] at hp
    exact (Option.some.inj hp).symm
  · obtain ⟨s, hs⟩ := lexeme?_of_symbol h
    rw [hs] at hp
    exact absurd (Option.some.inj hp).symm (hl s)

/-- What `word` does on a text, by the lexeme that the text faces. -/
theorem word_cases {cs : List Char} {ls : List Lexeme} (h : Faces cs ls) :
    (∃ t l ms, word cs = .ok t ∧ ls = l :: ms ∧ l = .ofWord t.value ∧ CutsAt cs t.rest ∧
        (scan t.rest).lexemes = ms) ∨
      (∃ x, word cs = .error (.recoverable x)) ∧ ∀ l ∈ ls.head?, ∃ s, l = .symbol s := by
  rw [word]
  split
  · next hno =>
      refine .inr ⟨⟨_, rfl⟩, fun l hl => ?_⟩
      by_contra hsymbol
      cases h with
      | nothing => cases hl
      | lexeme h hp =>
          cases hl
          -- A lexeme that is no symbol is made of a word, which there is none of.
          have := (word?_of_firstPiece? h hp fun s hs => hsymbol ⟨s, hs⟩).1
          rw [hno] at this
          cases this
  · next r hr =>
      obtain ⟨c, w, ds, rfl, rfl, hc, hw, hend⟩ := word?_eq_some hr
      have hfirst := firstPiece?_word hc hw hend
      refine .inl ⟨_, _, _, rfl, ?_, rfl, .of_firstPiece hfirst, rfl⟩
      rw [← h.lexemes_eq, lexemes_of_firstPiece hfirst]
      rfl

/-! ### Keywords and names -/

/-- The keyword a lexeme is, if it is one of some. -/
def keywordIn? (ks : List Keyword) : Lexeme → Option Keyword
  | .keyword k => ks.find? (· == k)
  | _ => none

/-- The text of a name. -/
def name? : Lexeme → Option String
  | .name n => some n
  | _ => none

/-- The keyword whose text a word has is the keyword the word is scanned as. -/
theorem find?_text_eq (ks : List Keyword) (w : String) :
    (ks.find? fun k => k.text == w.toUpper) = keywordIn? ks (.ofWord w) := by
  unfold Lexeme.ofWord
  cases hk : Keyword.ofWord? w with
  | some k =>
      have htext := Keyword.ofWord?_eq_some.mp hk
      refine List.find?_congr fun k' _ => ?_
      rw [← htext, Bool.eq_iff_iff, beq_iff_eq, beq_iff_eq]
      exact ⟨Keyword.text_injective, congrArg _⟩
  | none =>
      have hnone : (ks.find? fun k => k.text == w.toUpper) = none := by
        rw [List.find?_eq_none]
        intro k _ htext
        rw [beq_iff_eq, ← Keyword.ofWord?_eq_some, hk] at htext
        cases htext
      rw [hnone]
      dsimp only
      split <;> rfl

/-- A word is one of some keywords just where the lexeme of it is. -/
theorem finds_keyword (ks : List Keyword) : (keyword ks).Finds (keywordIn? ks) := by
  refine FindsAtFront.finds ⟨fun {cs l ls a} hf ha => ?_, fun {cs ls} hf hno => ?_⟩
  · rcases word_cases hf with ⟨t, l', ms, ht, hls, hl', hcut, hms⟩ | ⟨-, hsymbol⟩
    · cases hls
      rw [hl', ← find?_text_eq] at ha
      exact ⟨t.rest, ⟨t.map fun _ => a, by simp only [ht, ha], rfl, rfl⟩, hcut, hms⟩
    · obtain ⟨s, rfl⟩ := hsymbol l rfl
      cases ha
  · rcases word_cases hf with ⟨t, l, ms, ht, rfl, hl, -⟩ | ⟨⟨x, hx⟩, -⟩
    · have hnone := hno l rfl
      rw [hl, ← find?_text_eq] at hnone
      exact ⟨⟨cs, .combinator .tag⟩, by simp only [ht, hnone]⟩
    · exact ⟨x, by simp only [hx]⟩

/-- A word is a name if it is neither a keyword nor the wildcard. -/
theorem name?_ofWord (w : String) :
    name? (.ofWord w) = if w == "_" || (Keyword.ofWord? w).isSome then none else some w := by
  unfold Lexeme.ofWord
  cases hk : Keyword.ofWord? w with
  | some k => simp [name?]
  | none =>
      by_cases hw : w = "_"
      · simp [name?, hw]
      · simp [name?, hw]

/-- A name is found just where it is the next lexeme.  A word that is reserved is passed over. -/
theorem finds_identifier : identifier.Finds name? := by
  refine FindsAtFront.finds ⟨fun {cs l ls a} hf ha => ?_, fun {cs ls} hf hno => ?_⟩
  · rcases word_cases hf with ⟨t, l', ms, ht, hls, hl', hcut, hms⟩ | ⟨-, hsymbol⟩
    · cases hls
      rw [hl', name?_ofWord] at ha
      split at ha
      · cases ha
      · next hword =>
          cases ha
          exact ⟨t.rest, ⟨t, by simp only [ht, if_neg hword], rfl, rfl⟩, hcut, hms⟩
    · obtain ⟨s, rfl⟩ := hsymbol l rfl
      cases ha
  · rcases word_cases hf with ⟨t, l, ms, ht, rfl, hl, -⟩ | ⟨⟨x, hx⟩, -⟩
    · have hnone := hno l rfl
      rw [hl, name?_ofWord] at hnone
      split at hnone
      · next hword => exact ⟨⟨cs, .combinator .verify⟩, by simp only [ht, if_pos hword]⟩
      · cases hnone
    · exact ⟨x, by simp only [hx]⟩

/-! ### Connectives and truth values -/

/-- The lexeme is one of some symbols or keywords. -/
def isAmong (ss : List Symbol) (ks : List Keyword) : Lexeme → Bool
  | .symbol s => ss.contains s
  | .keyword k => ks.contains k
  | _ => false

/-- No keyword is a symbol, so that a symbol in the alternatives changes nothing for them. -/
theorem keywordIn?_map_unit (ss : List Symbol) {ks : List Keyword} {l : Lexeme}
    (hl : ∀ s, l ≠ .symbol s) :
    ((keywordIn? ks l).map fun _ => ()) = if isAmong ss ks l then some () else none := by
  cases l with
  | symbol s => exact absurd rfl (hl s)
  | keyword k =>
      rw [keywordIn?, isAmong]
      cases hk : ks.find? (· == k) with
      | some k' =>
          obtain rfl : k' = k := by simpa using List.find?_some hk
          simp [List.mem_of_find?_eq_some hk]
      | none =>
          have hmem : k ∉ ks := fun h => by simpa using List.find?_eq_none.mp hk k h
          simp [hmem]
  | _ => rfl

/-- A connective is found by any of its spellings. -/
theorem finds_connective (ss : List Symbol) (ks : List Keyword) :
    (connective ss ks).Finds fun l => if isAmong ss ks l then some () else none := by
  have hkeyword := ((finds_keyword ks).map fun _ => ()).atFront
  refine FindsAtFront.finds ⟨fun {cs l ls a} hf ha => ?_, fun {cs ls} hf hno => ?_⟩
  · cases hs : ss.find? (fun s => s.chars.isPrefixOf cs) with
    | some s =>
        have hprefix : s.chars.isPrefixOf cs = true := by simpa using List.find?_some hs
        cases (isPrefixOf_iff_of_faces hf).mp hprefix
        obtain ⟨ds, hy, hds⟩ := (finds_symbol s).atFront.found hf (if_pos rfl)
        exact ⟨ds, (yields_congr (by simp only [hs])).mpr hy, hds⟩
    | none =>
        -- No symbol stands in front, so the lexeme is a word if it is found.
        have hl : ∀ s, l ≠ .symbol s := by
          rintro s rfl
          have hmem : s ∉ ss := fun hmem =>
            List.find?_eq_none.mp hs s hmem ((isPrefixOf_iff_of_faces hf).mpr rfl)
          simp [isAmong, hmem] at ha
        obtain ⟨ds, hy, hds⟩ := hkeyword.found hf ((keywordIn?_map_unit ss hl).trans ha)
        exact ⟨ds, (yields_congr (by simp only [hs])).mpr hy, hds⟩
  · cases hs : ss.find? (fun s => s.chars.isPrefixOf cs) with
    | some s =>
        have hprefix : s.chars.isPrefixOf cs = true := by simpa using List.find?_some hs
        have := hno _ ((isPrefixOf_iff_of_faces hf).mp hprefix)
        simp [isAmong, List.mem_of_find?_eq_some hs] at this
    | none =>
        refine (misses_congr (by simp only [hs])).mpr (hkeyword.missed hf fun l hl => ?_)
        by_cases hsymbol : ∃ s, l = .symbol s
        · obtain ⟨s, rfl⟩ := hsymbol
          rfl
        · rw [keywordIn?_map_unit ss fun s h => hsymbol ⟨s, h⟩]
          exact hno l hl

/-- A negation is found by any of its three spellings. -/
theorem finds_negation : negation.Finds fun l => if l.isNegation then some () else none := by
  refine (finds_connective [.bang, .tilde] [.not]).congr fun l => ?_
  cases l with
  | keyword k => cases k <;> rfl
  | symbol s => cases s <;> rfl
  | _ => rfl

/-- The first of some connectives that the lexeme stands for. -/
def anyOf? : List (Binary × List Symbol × List Keyword) → Lexeme → Option Binary
  | [], _ => none
  | (c, ss, ks) :: table, l => (if isAmong ss ks l then some c else none).or (anyOf? table l)

/-- The first row of the table that fits gives the connective. -/
theorem findsAtFront_anyOf (table : List (Binary × List Symbol × List Keyword)) :
    (anyOf table).FindsAtFront (anyOf? table) := by
  induction table with
  | nil =>
      exact { found := fun _ ha => by cases ha
              missed := fun _ _ => ⟨_, rfl⟩ }
  | cons row table ih =>
      obtain ⟨c, ss, ks⟩ := row
      have h := ((finds_connective ss ks).map fun _ => c).atFront
      refine (h.orElse ih).congr fun l => ?_
      rw [anyOf?]
      split <;> rfl

/-- A binary connective is found just where the next lexeme signs one. -/
theorem finds_binaryOperator : binaryOperator.Finds Lexeme.binary? := by
  refine (findsAtFront_anyOf precedence).finds.congr fun l => ?_
  cases l with
  | keyword k => cases k <;> rfl
  | symbol s => cases s <;> rfl
  | _ => rfl

/-- A truth value is found just where the next lexeme is one. -/
theorem finds_truthValue : truthValue.Finds Lexeme.truthValue? := by
  have hdigit := (((finds_symbol .one).map fun _ => true).orElse
    ((finds_symbol .zero).map fun _ => false)).atFront
  have hvalue : ∀ l : Lexeme, l.truthValue? =
      ((keywordIn? [.truth, .falsity] l).map (· == .truth)).or
        (((if l = .symbol .one then some () else none).map fun _ => true).or
          ((if l = .symbol .zero then some () else none).map fun _ => false)) := by
    intro l
    cases l with
    | keyword k => cases k <;> rfl
    | symbol s => cases s <;> rfl
    | _ => rfl
  refine FindsAtFront.finds ⟨fun {cs l ls a} hf ha => ?_, fun {cs ls} hf hno => ?_⟩
  · rw [hvalue] at ha
    rcases Option.or_eq_some_iff.mp ha with ha | ⟨hnone, ha⟩
    · obtain ⟨k, hk, rfl⟩ := Option.map_eq_some_iff.mp ha
      obtain ⟨ds, ⟨t, ht, rfl, rfl⟩, hds⟩ := (finds_keyword _).atFront.found hf hk
      exact ⟨t.rest, ⟨t.map (· == .truth), by simp only [ht], rfl, rfl⟩, hds⟩
    · -- A digit is no word, so the keywords miss it.
      have hmiss : (keyword [.truth, .falsity]).Misses cs :=
        (finds_keyword _).atFront.missed hf fun l' hl' => by
          cases hl'; exact Option.map_eq_none_iff.mp hnone
      obtain ⟨x, hx⟩ := hmiss
      obtain ⟨ds, ⟨t, ht, hv⟩, hds⟩ := hdigit.found hf ha
      exact ⟨ds, ⟨t, by simp only [hx, ht], hv⟩, hds⟩
  · obtain ⟨x, hx⟩ : (keyword [.truth, .falsity]).Misses cs :=
      (finds_keyword _).atFront.missed hf fun l hl => by
        have := hno l hl
        rw [hvalue] at this
        exact Option.map_eq_none_iff.mp (Option.or_eq_none_iff.mp this).1
    obtain ⟨y, hy⟩ := hdigit.missed hf fun l hl => by
      have := hno l hl
      rw [hvalue] at this
      exact (Option.or_eq_none_iff.mp this).2
    exact ⟨y, by simp only [hx, hy]⟩

/-- The name of a member of an operator set is found just where the next lexeme is one. -/
theorem finds_operatorName : operatorName.Finds Lexeme.operatorName? := by
  refine (((finds_keyword _).map Keyword.text).orElse finds_identifier).congr fun l => ?_
  cases l with
  | keyword k => cases k <;> rfl
  | _ => rfl

end Parser

end PropBench
