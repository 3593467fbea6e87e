import PropBench.Proofs.Parser.Chain

/-!
# Proofs — Parser — Expression

Expressions are parsed as they are read.

* `negations_cases`: all negations are taken, and one is looked for behind them.
* `mirrors_afterTrivia`: what a parser does where neither blanks nor comments stand in front, it
  does behind them.
* `primaryAt_mirrorsAt`: a primary is told by its first lexemes.
* `mirrors_chain`: by induction on the nesting that is still allowed.
-/

namespace PropBench

open Scan

namespace Parser

variable {limit : Nat} {p : Parser Operand} {r : Reader Operand}

/-! ### Negations -/

/-- One negation more is counted. -/
theorem negations_of_yields {n : Nat} {cs ds es : List Char} (h : negation.Yields cs () ds)
    (h' : Reaches (negations ds) n es) : Reaches (negations cs) (n + 1) es := by
  obtain ⟨t, ht, -, rfl⟩ := opt_of_yields h
  obtain ⟨u, hu, rfl, rfl⟩ := h'
  refine ⟨(u.behind (· + 1) t.shorter).toPassed, ?_, rfl, rfl⟩
  rw [negations, ht]
  dsimp only
  rw [hu]
  rfl

theorem negations_of_yields_error {cs ds : List Char} {b : Break} (h : negation.Yields cs () ds)
    (h' : negations ds = .error b) : negations cs = .error b := by
  obtain ⟨t, ht, -, rfl⟩ := opt_of_yields h
  rw [negations, ht]
  dsimp only
  rw [h']
  rfl

/-- The negations at the front of a text are those of its lexemes, and one more is looked for. -/
theorem negations_cases (cs : List Char) :
    let n := Reader.negations (scan cs).lexemes
    ((scan cs).hitsOpenComment ((scan cs).lexemes.drop n) = true ∧
        negations cs = .error (unclosed cs)) ∨
      ((scan cs).hitsOpenComment ((scan cs).lexemes.drop n) = false ∧
        ∃ ds, Reaches (negations cs) n ds ∧ CutsAt cs ds ∧
          (scan ds).lexemes = (scan cs).lexemes.drop n) := by
  have hfinds := finds_negation
  induction hls : (scan cs).lexemes generalizing cs with
  | nil =>
      cases hhit : (scan cs).hitsOpenComment [] with
      | true =>
          refine .inl ⟨hhit, ?_⟩
          rw [negations, opt_of_runsOpen (hfinds.runsOpen (hls ▸ hhit))]
      | false =>
          have hmiss : negation.Misses cs := hfinds.missed (hls ▸ hhit) (by rw [hls]; simp)
          refine .inr ⟨hhit, cs, ⟨.stay 0 cs, ?_, rfl, rfl⟩, .refl cs, hls⟩
          rw [negations, opt_of_misses hmiss]
  | cons l ls ih =>
      by_cases hl : l.isNegation = true
      · obtain ⟨ds, hy, hcut, hds⟩ := hfinds.found hls (if_pos hl)
        have hn : Reader.negations (l :: ls) = Reader.negations ls + 1 := by
          simp [Reader.negations, hl]
        simp only [hn, List.drop_succ_cons, ← hcut.hitsOpenComment_eq]
        rcases ih ds hds with ⟨hhit, hb⟩ | ⟨hhit, es, hr, hcut', hes⟩
        · rw [unclosed_eq hcut] at hb
          exact .inl ⟨hhit, negations_of_yields_error hy hb⟩
        · exact .inr ⟨hhit, es, negations_of_yields hy hr, hcut.trans hcut', hes⟩
      · have hn : Reader.negations (l :: ls) = 0 := by simp [Reader.negations, hl]
        have hmiss : negation.Misses cs := hfinds.missed (by rw [hls]; rfl) fun l' hl' => by
          rw [hls] at hl'
          cases hl'
          exact if_neg hl
        rw [hn]
        refine .inr ⟨rfl, cs, ⟨.stay 0 cs, ?_, rfl, rfl⟩, .refl cs, hls⟩
        rw [negations, opt_of_misses hmiss]

theorem unary_of_error {cs : List Char} {b : Break} (h : negations cs = .error b) :
    unary limit p cs = .error b := by
  simp only [unary, h]

/-- A row as long as the limit is too deep, whatever stands behind it. -/
theorem unary_of_tooMany {n : Nat} {cs ds : List Char} (h : Reaches (negations cs) n ds)
    (hn : limit ≤ n) : unary limit p cs = .error (tooDeep limit cs) := by
  obtain ⟨u, hu, rfl, rfl⟩ := h
  simp only [unary, hu, if_neg (Nat.not_lt.mpr hn)]

theorem unary_of_primary_error {n : Nat} {cs ds : List Char} {b : Break}
    (h : Reaches (negations cs) n ds) (hn : n < limit) (hb : p ds = .error b) :
    unary limit p cs = .error b := by
  obtain ⟨u, hu, rfl, rfl⟩ := h
  simp only [unary, hu, if_pos hn, hb]

/-- A primary behind negations, if both together are not too deep. -/
theorem unary_of_yields {n : Nat} {o : Operand} {cs ds es : List Char}
    (h : Reaches (negations cs) n ds) (hn : n < limit) (ho : p.Yields ds o es) :
    if (o.negate n).depth ≤ limit then (unary limit p).Yields cs (o.negate n) es
    else unary limit p cs = .error (tooDeep limit cs) := by
  obtain ⟨u, hu, rfl, rfl⟩ := h
  obtain ⟨t, ht, rfl, rfl⟩ := ho
  split
  · next hd =>
      refine ⟨(t.map (Operand.negate u.value)).within u.noLonger, ?_, rfl, rfl⟩
      simp only [unary, hu, if_pos hn, ht]
      exact if_pos hd
  · next hd =>
      simp only [unary, hu, if_pos hn, ht]
      exact if_neg hd

/-- What may follow a primary is looked for only where the primary has no parts, and so is not
too deep behind the negations. -/
theorem Mirrors.unary (h : p.Mirrors limit (fun o => o.depth ≤ 1) r) :
    (unary limit p).Mirrors limit (fun _ => True) (.negated limit r) := by
  intro cs
  have hcases := negations_cases cs
  refine ⟨fun {q rest} hg => ?_, fun {e} he => ?_⟩
  · obtain ⟨hn, o, ho, rfl, hd⟩ := Reader.gives_negated.mp hg
    rcases hcases with ⟨hhit, -⟩ | ⟨-, ds, hr, hcut, hds⟩
    · rw [(eq_nil_of_hitsOpenComment hhit).1] at ho
      exact absurd ho.shorter (Nat.not_lt_zero _)
    · rcases (h ds).gives (hds ▸ ho) with ⟨es, hy, hcut', hes⟩ | ⟨-, hhit, hopen⟩
      · have hunary := unary_of_yields hr hn hy
        rw [if_pos hd] at hunary
        exact .inl ⟨es, hunary, hcut.trans hcut', hes⟩
      · refine .inr ⟨trivial, hcut.hitsOpenComment_eq _ ▸ hhit, ?_⟩
        rw [RunsOpen, ← unclosed_eq hcut]
        exact unary_of_primary_error hr hn hopen
  · have hface : (scan cs).hitsOpenComment ((scan cs).lexemes.drop
        (Reader.negations (scan cs).lexemes)) = false →
          (scan cs).hitsOpenComment (scan cs).lexemes = false := by
      cases (scan cs).lexemes with
      | nil => exact id
      | cons l ls => exact fun _ => rfl
    rcases Reader.refuses_negated.mp he with ⟨hn, rfl⟩ | ⟨hn, he | ⟨o, rest, ho, hd, rfl⟩⟩
    · rcases hcases with ⟨hhit, hb⟩ | ⟨hhit, ds, hr, hcut, hds⟩
      · obtain ⟨hnil, hstop⟩ := eq_nil_of_hitsOpenComment hhit
        exact ⟨_, unary_of_error hb, .unclosed ⟨hnil, rfl⟩ hstop⟩
      · refine ⟨_, unary_of_tooMany hr hn, .stands (fun hend hstop => ?_) (.refl cs) rfl
          (hface hhit)⟩
        rw [hend.1, hitsOpenComment_nil hstop] at hhit
        cases hhit
    · rcases hcases with ⟨hhit, hb⟩ | ⟨hhit, ds, hr, hcut, hds⟩
      · obtain ⟨hnil, hstop⟩ := eq_nil_of_hitsOpenComment hhit
        rw [hnil] at he
        exact ⟨_, unary_of_error hb, .unclosed (h.atEnd_of_nil he) hstop⟩
      · obtain ⟨b, hb, hends⟩ := (h ds).refuses (hds ▸ he)
        exact ⟨b, unary_of_primary_error hr hn hb, hends.of_cutsAt hcut⟩
    · rcases hcases with ⟨hhit, -⟩ | ⟨hhit, ds, hr, hcut, hds⟩
      · rw [(eq_nil_of_hitsOpenComment hhit).1] at ho
        exact absurd ho.shorter (Nat.not_lt_zero _)
      · rcases (h ds).gives (hds ▸ ho) with ⟨es, hy, -⟩ | ⟨hone, -⟩
        · have hunary := unary_of_yields hr hn hy
          rw [if_neg (Nat.not_le.mpr hd)] at hunary
          exact ⟨_, hunary, .stands (fun hend => by cases hend.2) (.refl cs) rfl (hface hhit)⟩
        · have : o.depth + Reader.negations (scan cs).lexemes ≤ limit := by omega
          exact absurd hd (Nat.not_lt.mpr this)

/-! ### Primaries -/

/-- What a parser does where neither blanks nor comments stand in front, it does behind them. -/
theorem mirrors_afterTrivia {α : Type} {p : Parser α} {r : Reader α} {peeks : α → Prop}
    (h : ∀ {cs ls}, Faces cs ls → p.MirrorsAt limit peeks r cs)
    (hnil : ∀ {e}, r.Refuses [] e → e.AtEnd) : (afterTrivia p).Mirrors limit peeks r := by
  intro cs
  rcases skip_cases cs with ⟨hhit, hskip⟩ | ⟨-, u, hskip, hcut, hf⟩
  · -- Nothing is left but a comment that is never closed.
    obtain ⟨hls, hstop⟩ := eq_nil_of_hitsOpenComment hhit
    have hopen : (afterTrivia p).RunsOpen cs := by rw [RunsOpen, afterTrivia, hskip]
    refine ⟨fun {a rest} hg => ?_, fun {e} he => ?_⟩
    · rw [hls] at hg
      exact absurd hg.shorter (Nat.not_lt_zero _)
    · rw [hls] at he
      exact ⟨_, hopen, .unclosed (hnil he) hstop⟩
  · have hls := hf.lexemes_eq
    have hyields : ∀ {a ds}, p.Yields u.rest a ds → (afterTrivia p).Yields cs a ds := by
      rintro a ds ⟨t, ht, rfl, rfl⟩
      refine ⟨t.within u.noLonger, ?_, rfl, rfl⟩
      rw [afterTrivia, hskip]
      dsimp only
      rw [ht]
      rfl
    have herror : ∀ {b}, p u.rest = .error b → afterTrivia p cs = .error b := by
      intro b hb
      rw [afterTrivia, hskip]
      dsimp only
      rw [hb]
      rfl
    refine ⟨fun {a rest} hg => ?_, fun {e} he => ?_⟩
    · rcases (h hf).gives (hls ▸ hg) with ⟨ds, hy, hcut', hds⟩ | ⟨hpeek, hhit, hopen⟩
      · exact .inl ⟨ds, hyields hy, hcut.trans hcut', hds⟩
      · refine .inr ⟨hpeek, hcut.hitsOpenComment_eq _ ▸ hhit, ?_⟩
        rw [RunsOpen, ← unclosed_eq hcut]
        exact herror hopen
    · obtain ⟨b, hb, hends⟩ := (h hf).refuses (hls ▸ he)
      exact ⟨b, herror hb, hends.of_cutsAt hcut⟩

variable {chain? : Option (Parser Operand)} {cs ds : List Char}

/-- Behind an opening parenthesis a chain and its closing parenthesis decide. -/
theorem primaryAt_of_openParen {chain : Parser Operand}
    (h : (symbol .openParen).Yields cs () ds) :
    (∀ {o es}, (followedBy chain (expect .closeParen (symbol .closeParen))).Yields ds o es →
      (primaryAt limit (some chain)).Yields cs o es) ∧
    ∀ {b}, followedBy chain (expect .closeParen (symbol .closeParen)) ds = .error b →
      primaryAt limit (some chain) cs = .error b := by
  obtain ⟨t, ht, -, rfl⟩ := opt_of_yields h
  refine ⟨?_, fun {b} hb => by simp only [primaryAt, ht, hb, Except.map]⟩
  rintro o es ⟨v, hv, rfl, rfl⟩
  exact ⟨v.within (Nat.le_of_lt t.shorter), by simp only [primaryAt, ht, hv, Except.map], rfl, rfl⟩

/-- At the limit an opening parenthesis is too deep, and nothing behind it is read. -/
theorem primaryAt_none_of_openParen (h : (symbol .openParen).Yields cs () ds) :
    primaryAt limit none cs = .error (tooDeep limit cs) := by
  obtain ⟨t, ht, -, -⟩ := opt_of_yields h
  simp only [primaryAt, ht]

/-- Behind an at sign the name of a formula decides. -/
theorem primaryAt_of_atSign (hparen : (symbol .openParen).Misses cs)
    (h : (symbol .atSign).Yields cs () ds) :
    (∀ {f es}, (name .formulaName).Yields ds f es →
      (primaryAt limit chain?).Yields cs (.leaf (.formula f)) es) ∧
    ∀ {b}, name .formulaName ds = .error b → primaryAt limit chain? cs = .error b := by
  obtain ⟨t, ht, -, rfl⟩ := opt_of_yields h
  have hno := opt_of_misses hparen
  constructor
  · intro f es hf
    obtain ⟨v, hv, hvalue, rfl⟩ := yields_map hf fun f => Operand.leaf (.formula f)
    refine ⟨v.within (Nat.le_of_lt t.shorter), ?_, hvalue, rfl⟩
    simp only [primaryAt, hno, ht, hv, Except.map]
  · intro b hb
    have := map_error hb fun f => Operand.leaf (.formula f)
    simp only [primaryAt, hno, ht, this, Except.map]

/-- A name is a variable or an application, as what stands behind it decides. -/
theorem primaryAt_of_identifier (limit : Nat) (chain? : Option (Parser Operand)) {x : String}
    (hparen : (symbol .openParen).Misses cs) (hat : (symbol .atSign).Misses cs)
    (h : identifier.Yields cs x ds) :
    (∀ {o es}, Reaches (application limit chain? cs x ds) o es →
      (primaryAt limit chain?).Yields cs o es) ∧
    ∀ {b}, application limit chain? cs x ds = .error b →
      primaryAt limit chain? cs = .error b := by
  have hno := opt_of_misses hparen
  have hno' := opt_of_misses hat
  obtain ⟨v, hv, rfl, rfl⟩ : (expect .expression identifier).Yields cs x ds := expect_of_yields h
  constructor
  · rintro o es ⟨u, hu, rfl, rfl⟩
    refine ⟨u.behind id v.shorter, ?_, rfl, rfl⟩
    simp only [primaryAt, hno, hno', hv, hu, Except.map]
  · intro b hb
    simp only [primaryAt, hno, hno', hv, hb, Except.map]

theorem primaryAt_of_misses (hparen : (symbol .openParen).Misses cs)
    (hat : (symbol .atSign).Misses cs) (h : identifier.Misses cs) :
    primaryAt limit chain? cs = .error (.final ⟨cs, .expected Expectation.expression.text⟩) := by
  simp only [primaryAt, opt_of_misses hparen, opt_of_misses hat, expect_of_misses h]

/-- An application whose arguments are parsed, if it is not too deep. -/
theorem application_of_yields (limit : Nat) (x : String) (start : List Char)
    {chain : Parser Operand} {es : List Char} {args : List Operand}
    (h : (symbol .openParen).Yields cs () ds)
    (hargs : (parenthesized .openParen chain).Yields cs args es) :
    if (Operand.apply x args).depth ≤ limit then
      Reaches (application limit (some chain) start x cs) (.apply x args) es
    else application limit (some chain) start x cs = .error (tooDeep limit start) := by
  obtain ⟨t, ht, -, -⟩ := opt_of_yields h
  obtain ⟨v, hv, rfl, rfl⟩ := hargs
  split
  · next hd =>
      have hb : bounded limit start (v.map (Operand.apply x)) = .ok (v.map (Operand.apply x)) :=
        if_pos hd
      refine ⟨(v.map (Operand.apply x)).toPassed, ?_, rfl, rfl⟩
      simp only [application, ht, hv, hb, Except.map]
  · next hd =>
      have hb : bounded limit start (v.map (Operand.apply x)) = .error (tooDeep limit start) :=
        if_neg hd
      simp only [application, ht, hv, hb, Except.map]

/-- What stands in parentheses is parsed beside its reader, or neither is allowed. -/
def MirrorsInner (limit : Nat) : Option (Parser Operand) → Option (Reader Operand) → Prop :=
  Option.Rel fun p r => p.Mirrors limit (fun _ => True) r

theorem missed_symbol {s : Symbol} {l : Lexeme} {ls : List Lexeme} (h : Faces cs (l :: ls))
    (hl : l ≠ .symbol s) : (symbol s).Misses cs :=
  (finds_symbol s).atFront.missed h fun l' hl' => by cases hl'; exact if_neg hl

/-- An application is read the same from the text and from the lexemes, from the name on. -/
theorem MirrorsInner.application {rchain? : Option (Reader Operand)}
    (h : MirrorsInner limit chain? rchain?) {x : String} {ms : List Lexeme} {start : List Char}
    (hstart : (scan start).lexemes = .name x :: .symbol .openParen :: ms)
    (hcut : CutsAt start cs) (hcs : (scan cs).lexemes = .symbol .openParen :: ms) :
    (∀ {o rest},
      (Reader.primary limit rchain?).Gives (.name x :: .symbol .openParen :: ms) o rest →
        ∃ es, Reaches (application limit chain? start x cs) o es ∧ CutsAt start es ∧
          (scan es).lexemes = rest) ∧
    ∀ {e}, (Reader.primary limit rchain?).Refuses (.name x :: .symbol .openParen :: ms) e →
      ∃ b, application limit chain? start x cs = .error b ∧ Ends limit start e b := by
  obtain ⟨ds, hy, -⟩ := (finds_symbol .openParen).found hcs (if_pos rfl)
  obtain ⟨t, ht, -⟩ := opt_of_yields hy
  cases h with
  | none =>
      refine ⟨fun {o rest} hg => ?_, fun {e} he => ?_⟩
      · obtain ⟨r, args, hr, -⟩ := Reader.gives_primary_application.mp hg
        cases hr
      · rcases Reader.refuses_primary_application.mp he with ⟨-, rfl⟩ | ⟨r, hr, -⟩
        · refine ⟨tooDeep limit cs, by simp only [Parser.application, ht], ?_⟩
          exact .stands (fun hend => by cases hend.2) hcut hcs rfl
        · cases hr
  | @some chain rchain hmirrors =>
      have hlist := hmirrors.parenthesized .openParen cs
      have hread : ∀ {args rest}, (Reader.arguments rchain).Gives ms args rest →
          (Reader.parenthesized .openParen rchain).Gives (.symbol .openParen :: ms) args rest :=
        fun ha => Reader.gives_bind.mpr ⟨(), ms, Reader.gives_symbol.mpr rfl, ha⟩
      refine ⟨fun {o rest} hg => ?_, fun {e} he => ?_⟩
      · obtain ⟨r, args, hr, ha, rfl, hd⟩ := Reader.gives_primary_application.mp hg
        cases hr
        rcases hlist.gives (hcs ▸ hread ha) with ⟨es, hargs, hcut', hes⟩ | ⟨hfalse, -⟩
        · have happly := application_of_yields limit x start hy hargs
          rw [if_pos hd] at happly
          exact ⟨es, happly, hcut.trans hcut', hes⟩
        · exact hfalse.elim
      · rcases Reader.refuses_primary_application.mp he with
          ⟨hr, -⟩ | ⟨r, hr, he | ⟨args, rest, ha, hd, rfl⟩⟩
        · cases hr
        · cases hr
          have hrefuses : (Reader.parenthesized .openParen rchain).Refuses
              (.symbol .openParen :: ms) e :=
            Reader.refuses_bind.mpr (.inr ⟨(), ms, Reader.gives_symbol.mpr rfl, he⟩)
          obtain ⟨b, hb, hends⟩ := hlist.refuses (hcs ▸ hrefuses)
          exact ⟨b, by simp only [Parser.application, ht, hb], hends.of_cutsAt hcut⟩
        · cases hr
          rcases hlist.gives (hcs ▸ hread ha) with ⟨es, hargs, -⟩ | ⟨hfalse, -⟩
          · have happly := application_of_yields limit x start hy hargs
            rw [if_neg (Nat.not_le.mpr hd)] at happly
            exact ⟨_, happly, .stands (fun hend => by cases hend.2) (.refl start) hstart rfl⟩
          · exact hfalse.elim

/-! ### What a primary begins with -/

variable {rchain? : Option (Reader Operand)} {ls ms : List Lexeme}

/-- What an opening parenthesis begins mirrors its reader: the chain inside does, and the closing
parenthesis behind it. -/
theorem primaryAt_mirrors_parens (h : MirrorsInner limit chain? rchain?)
    (hf : Faces cs (.symbol .openParen :: ms)) :
    (primaryAt limit chain?).MirrorsAt limit (fun o => o.depth ≤ 1) (.primary limit rchain?)
      cs := by
  have hls := hf.lexemes_eq
  obtain ⟨ds, hy, hcut, hds⟩ := (finds_symbol .openParen).atFront.found hf (if_pos rfl)
  refine ⟨fun {o rest} hg => ?_, fun {e} he => ?_⟩
  · obtain ⟨r, hr, ho⟩ := Reader.gives_primary_parens.mp (hls ▸ hg)
    subst hr
    cases h with
    | @some chain _ hmirrors =>
        have hgives : (Reader.inParens r).Gives (scan ds).lexemes o rest :=
          hds ▸ Reader.gives_followedBy.mpr ⟨_, (), ho, Reader.gives_symbol.mpr rfl⟩
        rcases (hmirrors.followedBy (mirrors_symbol .closeParen .closeParen) ds).gives hgives
          with ⟨es, hyo, hcut', hes⟩ | ⟨hfalse, -⟩
        · exact .inl ⟨es, (primaryAt_of_openParen hy).1 hyo, hcut.trans hcut', hes⟩
        · exact hfalse.elim
  · rcases Reader.refuses_primary_parens.mp (hls ▸ he) with ⟨rfl, rfl⟩ | ⟨r, rfl, he'⟩
    · cases h
      refine ⟨_, primaryAt_none_of_openParen hy, .stands (fun hend => by cases hend.2)
        (.refl cs) hls rfl⟩
    · cases h with
      | @some chain _ hmirrors =>
          obtain ⟨b, hb, hends⟩ :=
            (hmirrors.followedBy (mirrors_symbol .closeParen .closeParen) ds).refuses
              (show (Reader.inParens r).Refuses (scan ds).lexemes e from hds ▸ he')
          exact ⟨b, (primaryAt_of_openParen hy).2 hb, hends.of_cutsAt hcut⟩

/-- What an at sign begins mirrors its reader, as the name behind it does. -/
theorem primaryAt_mirrors_reference (limit : Nat) (chain? : Option (Parser Operand))
    (rchain? : Option (Reader Operand)) (hf : Faces cs (.symbol .atSign :: ms)) :
    (primaryAt limit chain?).MirrorsAt limit (fun o => o.depth ≤ 1) (.primary limit rchain?)
      cs := by
  have hls := hf.lexemes_eq
  have hparen := missed_symbol (s := .openParen) hf (by decide)
  obtain ⟨ds, hy, hcut, hds⟩ := (finds_symbol .atSign).atFront.found hf (if_pos rfl)
  have hname : (name .formulaName).MirrorsAt limit (fun _ => False) (.name .formulaName) ds :=
    mirrors_name .formulaName ds
  refine ⟨fun {o rest} hg => ?_, fun {e} he => ?_⟩
  · obtain ⟨f, rfl, rfl⟩ := Reader.gives_primary_reference.mp (hls ▸ hg)
    rcases hname.gives (hds ▸ Reader.gives_name.mpr rfl) with
      ⟨es, hyf, hcut', hes⟩ | ⟨hfalse, -⟩
    · exact .inl ⟨es, (primaryAt_of_atSign hparen hy).1 hyf, hcut.trans hcut', hes⟩
    · exact hfalse.elim
  · have he := Reader.refuses_primary_reference.mp (hls ▸ he)
    obtain ⟨b, hb, hends⟩ := hname.refuses (hds ▸ he)
    exact ⟨b, (primaryAt_of_atSign hparen hy).2 hb, hends.of_cutsAt hcut⟩

/-- A name in front is found where neither symbol is, and what stands behind it decides. -/
theorem primaryAt_of_name (limit : Nat) (chain? : Option (Parser Operand)) {x : String}
    (hf : Faces cs (.name x :: ls)) :
    ∃ ds, CutsAt cs ds ∧ (scan ds).lexemes = ls ∧
      (∀ {o es}, Reaches (application limit chain? cs x ds) o es →
        (primaryAt limit chain?).Yields cs o es) ∧
      ∀ {b}, application limit chain? cs x ds = .error b →
        primaryAt limit chain? cs = .error b := by
  have hparen := missed_symbol (s := .openParen) hf (by simp)
  have hat := missed_symbol (s := .atSign) hf (by simp)
  obtain ⟨ds, hy, hcut, hds⟩ :=
    finds_identifier.atFront.found hf (rfl : name? (.name x) = some x)
  exact ⟨ds, hcut, hds, primaryAt_of_identifier limit chain? hparen hat hy⟩

/-- A name with arguments mirrors its reader. -/
theorem primaryAt_mirrors_application (h : MirrorsInner limit chain? rchain?) {x : String}
    (hf : Faces cs (.name x :: .symbol .openParen :: ms)) :
    (primaryAt limit chain?).MirrorsAt limit (fun o => o.depth ≤ 1) (.primary limit rchain?)
      cs := by
  have hls := hf.lexemes_eq
  obtain ⟨ds, hcut, hds, hgives, herror⟩ := primaryAt_of_name limit chain? hf
  have happly := h.application hls hcut hds
  refine ⟨fun {o rest} hg => ?_, fun {e} he => ?_⟩
  · obtain ⟨es, hes, hcut', hrest⟩ := happly.1 (hls ▸ hg)
    exact .inl ⟨es, hgives hes, hcut', hrest⟩
  · obtain ⟨b, hb, hends⟩ := happly.2 (hls ▸ he)
    exact ⟨b, herror hb, hends⟩

/-- A name without arguments mirrors its reader, which does not look behind it. -/
theorem primaryAt_mirrors_variable (limit : Nat) (chain? : Option (Parser Operand))
    (rchain? : Option (Reader Operand)) {x : String} (hms : EndsPrimary ms)
    (hf : Faces cs (.name x :: ms)) :
    (primaryAt limit chain?).MirrorsAt limit (fun o => o.depth ≤ 1) (.primary limit rchain?)
      cs := by
  have hls := hf.lexemes_eq
  obtain ⟨ds, hcut, hds, hgives, herror⟩ := primaryAt_of_name limit chain? hf
  have hsymbol := finds_symbol .openParen
  refine ⟨fun {o rest} hg => ?_, fun {e} he => ?_⟩
  · obtain ⟨rfl, rfl⟩ := (Reader.gives_primary_variable hms).mp (hls ▸ hg)
    -- The parser looks for an opening parenthesis, and may come upon a comment left open.
    cases hhit : (scan ds).hitsOpenComment (scan ds).lexemes with
    | true =>
        refine .inr ⟨le_rfl, hcut.hitsOpenComment_eq _ ▸ hds ▸ hhit, ?_⟩
        rw [RunsOpen, ← unclosed_eq hcut]
        refine herror ?_
        simp only [Parser.application, opt_of_runsOpen (hsymbol.runsOpen hhit)]
    | false =>
        have hmiss : (symbol .openParen).Misses ds := hsymbol.missed hhit fun l hl => by
          refine if_neg ?_
          rintro rfl
          rw [hds] at hl
          obtain ⟨ns, rfl⟩ := List.head?_eq_some_iff.mp hl
          exact hms ns rfl
        refine .inl ⟨ds, hgives ⟨.stay _ ds, ?_, rfl, rfl⟩, hcut, hds⟩
        simp only [Parser.application, opt_of_misses hmiss]
        rfl
  · exact absurd (hls ▸ he) (Reader.not_refuses_primary_var hms)

/-- Where nothing begins a primary, the parser expects an expression as its reader does. -/
theorem primaryAt_mirrors_other (limit : Nat) (chain? : Option (Parser Operand))
    (rchain? : Option (Reader Operand)) (hno : ∀ l ∈ ls.head?, ¬ Reader.BeginsPrimary l)
    (hf : Faces cs ls) :
    (primaryAt limit chain?).MirrorsAt limit (fun o => o.depth ≤ 1) (.primary limit rchain?)
      cs := by
  have hls := hf.lexemes_eq
  have hface : (scan cs).hitsOpenComment (scan cs).lexemes = false := hls ▸ hf.hitsOpenComment_eq
  have hsymbol : ∀ {s}, Reader.BeginsPrimary (.symbol s) → (symbol s).Misses cs := fun hs =>
    (finds_symbol _).atFront.missed hf fun l hl => by
      refine if_neg ?_
      rintro rfl
      exact hno _ hl hs
  have hname : identifier.Misses cs := finds_identifier.atFront.missed hf fun l hl => by
    cases l with
    | name x => exact absurd (.name x) (hno _ hl)
    | _ => rfl
  refine ⟨fun {o rest} hg => ?_, fun {e} he => ?_⟩
  · have hg : (Reader.primary limit rchain?).Gives ls o rest := hls ▸ hg
    exact absurd ((Reader.refuses_primary_other hno).mpr rfl) (hg.not_refuses _)
  · obtain rfl := (Reader.refuses_primary_other hno).mp (hls ▸ he)
    refine ⟨_, primaryAt_of_misses (hsymbol .openParen) (hsymbol .atSign) hname,
      .stands (fun hend hstop => ?_) (.refl cs) hls (hls ▸ hface)⟩
    -- At the end of the lexemes no comment is left open, as the text faces them.
    obtain rfl : ls = [] := hend
    rw [hls, hitsOpenComment_nil hstop] at hface
    cases hface

/-- Where no trivia stands in front, a primary mirrors its reader, whatever it begins with. -/
theorem primaryAt_mirrorsAt (h : MirrorsInner limit chain? rchain?) (hf : Faces cs ls) :
    (primaryAt limit chain?).MirrorsAt limit (fun o => o.depth ≤ 1) (.primary limit rchain?)
      cs := by
  cases Reader.primaryFront ls with
  | parens ms => exact primaryAt_mirrors_parens h hf
  | reference ms => exact primaryAt_mirrors_reference limit chain? rchain? hf
  | application x ms => exact primaryAt_mirrors_application h hf
  | var x hms => exact primaryAt_mirrors_variable limit chain? rchain? hms hf
  | other hno => exact primaryAt_mirrors_other limit chain? rchain? hno hf

/-- A primary mirrors its reader.  It looks past its end only if it is of depth one, so for a
name. -/
theorem MirrorsInner.primary (h : MirrorsInner limit chain? rchain?) :
    (primary limit chain?).Mirrors limit (fun o => o.depth ≤ 1) (.primary limit rchain?) := by
  refine mirrors_afterTrivia (fun hf => primaryAt_mirrorsAt h hf) fun {e} he => ?_
  obtain rfl := (Reader.refuses_primary_other (by simp)).mp he
  rfl

/-! ### Nesting -/

/-- **Chains mirror chains**, the parser counting the nesting up and the reader down. -/
theorem mirrors_chain (limit nesting : Nat) :
    (chain limit nesting).Mirrors limit (fun _ => True) (.chain limit (limit - nesting)) := by
  -- On the nesting still allowed, which is what the reader counts.
  induction hn : limit - nesting generalizing nesting with
  | zero =>
      rw [chain, dif_neg (by omega)]
      exact (MirrorsInner.primary (.none)).unary.grouped
  | succ n ih =>
      rw [chain, dif_pos (by omega)]
      exact (MirrorsInner.primary (.some (ih (nesting + 1) (by omega)))).unary.grouped

theorem mirrors_expression (limit : Nat) :
    (expression limit).Mirrors limit (fun _ => True) (.expression limit) :=
  (mirrors_chain limit 0).map _ fun _ _ => trivial

end Parser

end PropBench
