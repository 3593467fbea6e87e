import PropBench.Proofs.Grammar.Exhaustion
import PropBench.Proofs.Parser.Lexeme
import PropBench.Proofs.Viability.Reader

/-!
# Proofs — Parser — Mirror

Parsers of characters beside readers of lexemes.

* `p.Mirrors limit peeks r`: on every text, `p` takes what `r` takes off the lexemes, or fails for
  good with what `r` refuses them for.  A comment that is never closed stops `p` as soon as it comes
  to it, which may be behind a value: `peeks` says behind which.
* One lemma for each way to make a parser: `Mirrors.bind`, `mirrors_expect`, `Mirrors.separated`
  and so on.
* `Mirrors.not_misses`: a parser that mirrors a reader leaves nothing to be recovered from.
-/

namespace PropBench

open Scan

/-- What is wrong with a text whose lexemes are refused. -/
def Refusal.trouble (limit : Nat) : Refusal → Trouble
  | .expected what _ => .expected what.text
  | .tooDeep _ _ _ => .tooDeep limit

namespace Parser

variable {α β : Type} {limit : Nat}

/-- How a parser breaks on a text whose lexemes are refused: at a comment that is never closed, if
the reader had come to the end, or else in front of the place of the refusal. -/
inductive Ends (limit : Nat) (cs : List Char) (e : Refusal) : Break → Prop
  | unclosed (hend : e.AtEnd) (hstop : (scan cs).stop = .openComment) :
      Ends limit cs e (unclosed cs)
  | stands {ds : List Char} (hno : e.AtEnd → (scan cs).stop ≠ .openComment) (hcut : CutsAt cs ds)
      (hplace : (scan ds).lexemes = e.place)
      (hface : (scan cs).hitsOpenComment e.place = false) :
      Ends limit cs e (.final ⟨ds, e.trouble limit⟩)

/-- The parser does on a text what the reader does on its lexemes. -/
structure MirrorsAt (limit : Nat) (peeks : α → Prop) (p : Parser α) (r : Reader α)
    (cs : List Char) : Prop where
  gives : ∀ {a rest}, r.Gives (scan cs).lexemes a rest →
    (∃ ds, p.Yields cs a ds ∧ CutsAt cs ds ∧ (scan ds).lexemes = rest) ∨
      (peeks a ∧ (scan cs).hitsOpenComment rest = true ∧ p.RunsOpen cs)
  refuses : ∀ {e}, r.Refuses (scan cs).lexemes e → ∃ b, p cs = .error b ∧ Ends limit cs e b

/-- The parser does on every text what the reader does on its lexemes. -/
def Mirrors (limit : Nat) (peeks : α → Prop) (p : Parser α) (r : Reader α) : Prop :=
  ∀ cs, p.MirrorsAt limit peeks r cs

section Breaks

variable {cs ds : List Char} {e : Refusal} {b : Break}

/-- The text stops in the same way however far it has been cut. -/
theorem stop_eq_of_cutsAt (h : CutsAt cs ds) : (scan ds).stop = (scan cs).stop := by
  rw [Scan.stop, Scan.stop, h.rest_eq]

theorem hitsOpenComment_nil {s : Scan} (h : s.stop = .openComment) :
    s.hitsOpenComment [] = true := by
  rw [hitsOpenComment, h]
  rfl

/-- What happens at the end of a text happens in the text. -/
theorem Ends.of_cutsAt (h : Ends limit ds e b) (hcut : CutsAt cs ds) : Ends limit cs e b := by
  have hstop := stop_eq_of_cutsAt hcut
  cases h with
  | unclosed hend hopen =>
      rw [unclosed_eq hcut]
      exact .unclosed hend (hstop ▸ hopen)
  | stands hno hcut' hplace hface =>
      refine .stands (hstop ▸ hno) (hcut.trans hcut') hplace ?_
      rwa [← hcut.hitsOpenComment_eq]

/-- Nothing that another parser may recover from, and no failure of a combinator, is left over when
a parse ends. -/
theorem Ends.settled (h : Ends limit cs e b) :
    ∃ f, b = .final f ∧ ∀ c, f.trouble ≠ .combinator c := by
  cases h with
  | unclosed => exact ⟨_, rfl, by simp⟩
  | stands => exact ⟨_, rfl, by cases e <;> simp [Refusal.trouble]⟩

/-- Where there are no lexemes, and a comment is never closed, the parse ends there. -/
theorem Ends.of_nil (h : Ends limit cs e b) (hl : (scan cs).lexemes = [])
    (hstop : (scan cs).stop = .openComment) : e.AtEnd ∧ b = Parser.unclosed cs := by
  cases h with
  | unclosed hend => exact ⟨hend, rfl⟩
  | stands hno hcut hplace hface =>
      have hnil : e.place = [] := by
        have := hcut.lexemes_suffix
        rwa [hl, hplace, List.suffix_nil] at this
      rw [hnil, hitsOpenComment_nil hstop] at hface
      cases hface

end Breaks

section Combinators

variable {p item : Parser α} {r ritem : Reader α} {peeks : α → Prop}

/-- A parser that mirrors a reader never fails in a way that others may recover from. -/
theorem Mirrors.not_misses (h : p.Mirrors limit peeks r) (cs : List Char) : ¬ p.Misses cs := by
  rintro ⟨f, hf⟩
  rcases r.gives_or_refuses (scan cs).lexemes with ⟨a, rest, hg⟩ | ⟨e, he⟩
  · rcases (h cs).gives hg with ⟨ds, ⟨t, ht, -⟩, -⟩ | ⟨-, -, hopen⟩
    · rw [hf] at ht; cases ht
    · rw [RunsOpen, hf] at hopen; cases hopen
  · obtain ⟨b, hb, hends⟩ := (h cs).refuses he
    obtain ⟨g, rfl, -⟩ := hends.settled
    rw [hf] at hb; cases hb

/-- A reader that a parser mirrors looks for a lexeme where there is none. -/
theorem Mirrors.atEnd_of_nil (h : p.Mirrors limit peeks r) {e : Refusal} (he : r.Refuses [] e) :
    e.AtEnd := by
  have hscan : scan ['/', '*'] = ⟨[], ['/', '*']⟩ := by decide +kernel
  have hl : (scan ['/', '*']).lexemes = [] := by rw [hscan]; rfl
  obtain ⟨b, -, hends⟩ := (h ['/', '*']).refuses (hl ▸ he)
  exact (hends.of_nil hl (by rw [hscan]; rfl)).1

/-- At the end of a text with an open comment there is nothing to take. -/
theorem Mirrors.runsOpen (h : p.Mirrors limit peeks r) {cs : List Char}
    (hhit : (scan cs).hitsOpenComment (scan cs).lexemes = true) : p.RunsOpen cs := by
  obtain ⟨hl, hstop⟩ := eq_nil_of_hitsOpenComment hhit
  obtain ⟨e, he⟩ := r.exists_refuses_nil
  obtain ⟨b, hb, hends⟩ := (h cs).refuses (hl.symm ▸ he)
  rw [RunsOpen, hb, (hends.of_nil hl hstop).2]

/-! ### Choices -/

/-- A parser and a reader may be replaced by others that do the same on one text. -/
theorem MirrorsAt.congr {p' : Parser α} {r' : Reader α} {cs : List Char}
    (h : p.MirrorsAt limit peeks r cs) (hp : p' cs = p cs)
    (hr : r' (scan cs).lexemes = r (scan cs).lexemes) : p'.MirrorsAt limit peeks r' cs := by
  refine ⟨fun hg => ?_, fun he => ?_⟩
  · rw [Reader.Gives, hr] at hg
    rw [RunsOpen, hp]
    rcases h.gives hg with ⟨ds, hy, hds⟩ | hopen
    · exact .inl ⟨ds, (yields_congr hp).mpr hy, hds⟩
    · exact .inr hopen
  · rw [Reader.Refuses, hr] at he
    rw [hp]
    exact h.refuses he

/-- A parser that looks first whether a lexeme is there, and goes on as that says. -/
theorem mirrorsAt_of_looks {q : Parser β} {f : Lexeme → Option β} (h : q.Finds f) {cs : List Char}
    (hyes : ∀ {l ms b}, (scan cs).lexemes = l :: ms → f l = some b → p.MirrorsAt limit peeks r cs)
    (hno : q.Misses cs → (∀ l ∈ (scan cs).lexemes.head?, f l = none) →
      p.MirrorsAt limit peeks r cs)
    (hopen : q.RunsOpen cs → p.RunsOpen cs) (hend : ∀ {e}, r.Refuses [] e → e.AtEnd) :
    p.MirrorsAt limit peeks r cs := by
  cases hhit : (scan cs).hitsOpenComment (scan cs).lexemes with
  | true =>
      obtain ⟨hnil, hstop⟩ := eq_nil_of_hitsOpenComment hhit
      have hrun := hopen (h.runsOpen hhit)
      refine ⟨fun {a rest} hg => ?_, fun {e} he => ?_⟩
      · rw [hnil] at hg
        exact absurd hg.shorter (Nat.not_lt_zero _)
      · rw [hnil] at he
        exact ⟨_, hrun, .unclosed (hend he) hstop⟩
  | false =>
      by_cases hf : ∀ l ∈ (scan cs).lexemes.head?, f l = none
      · exact hno (h.missed hhit hf) hf
      · push Not at hf
        obtain ⟨l, hl, hb⟩ := hf
        obtain ⟨ms, hms⟩ := List.head?_eq_some_iff.mp hl
        obtain ⟨b, hb⟩ := Option.ne_none_iff_exists'.mp hb
        exact hyes hms hb

/-! ### One behind the other -/

theorem Mirrors.map (h : p.Mirrors limit peeks r) (k : α → β) {peeks' : β → Prop}
    (hp : ∀ a, peeks a → peeks' (k a)) :
    Mirrors limit peeks' (k <$> p : Parser β) (k <$> r) := fun cs =>
  { gives := fun hg => by
      obtain ⟨a, ha, rfl⟩ := Reader.gives_map.mp hg
      rcases (h cs).gives ha with ⟨ds, hy, hds⟩ | ⟨ha, hhit, hopen⟩
      · exact .inl ⟨ds, yields_map hy k, hds⟩
      · exact .inr ⟨hp a ha, hhit, map_error hopen k⟩
    refuses := fun he => by
      obtain ⟨b, hb, hends⟩ := (h cs).refuses (Reader.refuses_map.mp he)
      exact ⟨b, map_error hb k, hends⟩ }

/-- Two parsers one behind the other, both of which succeed. -/
theorem yields_bind {q : α → Parser β} {cs ds es : List Char} {a : α} {b : β}
    (h : p.Yields cs a ds) (h' : (q a).Yields ds b es) : (p >>= q).Yields cs b es := by
  obtain ⟨t, ht, rfl, rfl⟩ := h
  obtain ⟨u, hu, rfl, rfl⟩ := h'
  refine ⟨u.within (Nat.le_of_lt t.shorter), ?_, rfl, rfl⟩
  show Parser.bind p q cs = _
  rw [Parser.bind, ht]
  dsimp only
  rw [hu]
  rfl

/-- An error of the first parser is the error of both. -/
theorem bind_of_error {q : α → Parser β} {cs : List Char} {b : Break} (h : p cs = .error b) :
    (p >>= q) cs = .error b := by
  show Parser.bind p q cs = _
  rw [Parser.bind, h]

/-- An error of the second parser is the error of both. -/
theorem bind_of_yields_error {q : α → Parser β} {cs ds : List Char} {a : α} {b : Break}
    (h : p.Yields cs a ds) (h' : q a ds = .error b) : (p >>= q) cs = .error b := by
  obtain ⟨t, ht, rfl, rfl⟩ := h
  show Parser.bind p q cs = _
  rw [Parser.bind, ht]
  dsimp only
  rw [h']
  rfl

/-- Parsers one behind the other mirror readers one behind the other. -/
theorem Mirrors.bind (h : p.Mirrors limit peeks r) {q : α → Parser β} {s : α → Reader β}
    {peeks' : β → Prop} (h' : ∀ a, (q a).Mirrors limit peeks' (s a)) :
    Mirrors limit peeks' (p >>= q) (r >>= s) := fun cs =>
  { gives := fun hg => by
      obtain ⟨a, ms, ha, hb⟩ := Reader.gives_bind.mp hg
      rcases (h cs).gives ha with ⟨ds, hy, hcut, hds⟩ | ⟨-, hhit, -⟩
      · subst hds
        rcases (h' a ds).gives hb with ⟨es, hy', hcut', hes⟩ | ⟨hpeek, hhit, hopen⟩
        · exact .inl ⟨es, yields_bind hy hy', hcut.trans hcut', hes⟩
        · refine .inr ⟨hpeek, hcut.hitsOpenComment_eq _ ▸ hhit, ?_⟩
          rw [RunsOpen, bind_of_yields_error hy hopen, unclosed_eq hcut]
      · obtain ⟨rfl, -⟩ := eq_nil_of_hitsOpenComment hhit
        exact absurd hb.shorter (Nat.not_lt_zero _)
    refuses := fun he => by
      rcases Reader.refuses_bind.mp he with he | ⟨a, ms, ha, he⟩
      · obtain ⟨b, hb, hends⟩ := (h cs).refuses he
        exact ⟨b, bind_of_error hb, hends⟩
      · rcases (h cs).gives ha with ⟨ds, hy, hcut, hds⟩ | ⟨-, hhit, hopen⟩
        · subst hds
          obtain ⟨b, hb, hends⟩ := (h' a ds).refuses he
          exact ⟨b, bind_of_yields_error hy hb, hends.of_cutsAt hcut⟩
        · obtain ⟨rfl, hstop⟩ := eq_nil_of_hitsOpenComment hhit
          exact ⟨_, bind_of_error hopen, .unclosed ((h' a).atEnd_of_nil he) hstop⟩ }

/-- A parser that drops the second value mirrors the reader that does. -/
theorem Mirrors.followedBy (h : p.Mirrors limit peeks r) {q : Parser β} {s : Reader β}
    (h' : q.Mirrors limit (fun _ => False) s) :
    Mirrors limit (fun _ => False) (followedBy p q) (Reader.followedBy r s) :=
  h.bind fun _ => h'.map _ fun _ => id

/-! ### Expected lexemes -/

theorem expect_of_yields {what : Expectation} {cs ds : List Char} {a : α}
    (h : p.Yields cs a ds) : (expect what p).Yields cs a ds := by
  obtain ⟨t, ht, hv⟩ := h
  exact ⟨t, by rw [expect, ht], hv⟩

/-- An expectation makes an error final, and gives it its words. -/
theorem expect_of_misses {what : Expectation} {cs : List Char} (h : p.Misses cs) :
    expect what p cs = .error (.final ⟨cs, .expected what.text⟩) := by
  obtain ⟨x, hx⟩ := h
  rw [expect, hx]

theorem expect_of_runsOpen {what : Expectation} {cs : List Char} (h : p.RunsOpen cs) :
    (expect what p).RunsOpen cs := by
  rw [RunsOpen, expect, h]
  rfl

/-- **A lexeme that is expected**: its parser fails for good, with what was expected. -/
theorem mirrors_expect {f : Lexeme → Option α} (h : p.Finds f) (what : Expectation) :
    (expect what p).Mirrors limit (fun _ => False) (.accept what f) := fun cs =>
  { gives := fun hg => by
      obtain ⟨l, hl, ha⟩ := Reader.gives_accept.mp hg
      obtain ⟨ds, hy, hds⟩ := h.found hl ha
      exact .inl ⟨ds, expect_of_yields hy, hds⟩
    refuses := fun he => by
      obtain ⟨rfl, hno⟩ := Reader.refuses_accept.mp he
      cases hhit : (scan cs).hitsOpenComment (scan cs).lexemes with
      | true =>
          obtain ⟨hl, hstop⟩ := eq_nil_of_hitsOpenComment hhit
          exact ⟨_, expect_of_runsOpen (h.runsOpen hhit), .unclosed hl hstop⟩
      | false =>
          refine ⟨_, expect_of_misses (h.missed hhit hno), .stands (fun hend hstop => ?_)
            (.refl cs) rfl hhit⟩
          have hl : (scan cs).lexemes = [] := hend
          rw [hl, hitsOpenComment_nil hstop] at hhit
          cases hhit }

theorem mirrors_symbol (s : Symbol) (what : Expectation) :
    (expect what (symbol s)).Mirrors limit (fun _ => False) (.symbol s what) :=
  mirrors_expect (finds_symbol s) what

/-- A name that is expected mirrors its reader. -/
theorem mirrors_name (what : Expectation) :
    (name what).Mirrors limit (fun _ => False) (.name what) := by
  have h : (expect what identifier).Mirrors limit (fun _ => False) (.accept what name?) :=
    mirrors_expect finds_identifier what
  have hname : Reader.name what = .accept what name? :=
    congrArg (Reader.accept what) (funext fun l => by cases l <;> rfl)
  rw [hname]
  exact h

/-! ### Lists -/

/-- The rest of a list takes its values up to `rest`. -/
def Reaches {cs : List Char} (x : Except Break (Passed α cs)) (a : α) (rest : List Char) : Prop :=
  ∃ u, x = .ok u ∧ u.value = a ∧ u.rest = rest

/-- A list begins with its first item. -/
theorem separated_of_yields {cs ds es : List Char} {a : α} {as : List α}
    (h : item.Yields cs a ds) (h' : Reaches (more item ds) as es) :
    (separated item).Yields cs (a :: as) es := by
  obtain ⟨t, ht, rfl, rfl⟩ := h
  obtain ⟨u, hu, rfl, rfl⟩ := h'
  refine ⟨u.behind _ t.shorter, ?_, rfl, rfl⟩
  rw [separated, ht]
  dsimp only
  rw [hu]
  rfl

theorem separated_of_error {cs : List Char} {b : Break} (h : item cs = .error b) :
    separated item cs = .error b := by
  rw [separated, h]

/-- An error behind the first item is the list's. -/
theorem separated_of_yields_error {cs ds : List Char} {a : α} {b : Break}
    (h : item.Yields cs a ds) (h' : more item ds = .error b) :
    separated item cs = .error b := by
  obtain ⟨t, ht, rfl, rfl⟩ := h
  rw [separated, ht]
  dsimp only
  rw [h']
  rfl

/-- Behind a comma the rest of a list is a list. -/
theorem more_of_comma {cs ds es : List Char} {as : List α}
    (h : (symbol .comma).Yields cs () ds) (h' : (separated item).Yields ds as es) :
    Reaches (more item cs) as es := by
  obtain ⟨c, hc, -, rfl⟩ := opt_of_yields h
  obtain ⟨v, hv, rfl, rfl⟩ := h'
  rw [separated] at hv
  cases ht : item c.rest with
  | error b => rw [ht] at hv; cases hv
  | ok t =>
      rw [ht] at hv
      obtain ⟨u, hu, rfl⟩ := Except.map_eq_ok.mp hv
      have hopt : opt item c.rest = .ok (some t) := by rw [opt, ht]
      refine ⟨(u.behind (t.value :: ·) (Nat.lt_trans t.shorter c.shorter)).toPassed, ?_, rfl, rfl⟩
      rw [more, hc]
      dsimp only
      rw [hopt]
      dsimp only
      rw [hu]
      rfl

/-- Behind a comma an item that fails, and not merely misses, fails the list. -/
theorem more_of_comma_error {cs ds : List Char} {b : Break}
    (h : (symbol .comma).Yields cs () ds) (hmiss : ¬ item.Misses ds)
    (h' : separated item ds = .error b) : more item cs = .error b := by
  obtain ⟨c, hc, -, rfl⟩ := opt_of_yields h
  rw [more, hc]
  dsimp only
  rw [separated] at h'
  cases ht : item c.rest with
  | error b' =>
      rw [ht] at h'
      cases h'
      have hopt : opt item c.rest = .error b := by
        cases b with
        | recoverable f => exact absurd ⟨f, ht⟩ hmiss
        | _ => rw [opt, ht]
      rw [hopt]
  | ok t =>
      rw [ht] at h'
      have hopt : opt item c.rest = .ok (some t) := by rw [opt, ht]
      rw [hopt]
      dsimp only
      rw [Except.map_eq_error.mp h']
      rfl

theorem more_of_misses {cs : List Char} (h : (symbol .comma).Misses cs) :
    Reaches (more item cs) [] cs := by
  refine ⟨.stay [] cs, ?_, rfl, rfl⟩
  rw [more, opt_of_misses h]

theorem more_of_runsOpen {cs : List Char} (h : (symbol .comma).RunsOpen cs) :
    more item cs = .error (unclosed cs) := by
  rw [more, opt_of_runsOpen h]

/-- A list is read the same from the text and from the lexemes. -/
theorem mirrorsAt_separated (h : item.Mirrors limit peeks ritem) (cs : List Char) :
    (separated item).MirrorsAt limit (fun _ => True) (.separated ritem) cs := by
  -- On the number of lexemes: the items behind a comma stand in what the first one leaves.
  induction hn : (scan cs).lexemes.length using Nat.strong_induction_on generalizing cs with
  | _ n ih =>
      have hcomma := finds_symbol .comma
      refine ⟨fun {as rest} hg => ?_, fun {e} he => ?_⟩
      · rcases Reader.gives_separated.mp hg with ⟨a, ms, bs, ha, hbs, rfl⟩ | ⟨a, ha, rfl, hno⟩
        · obtain ⟨ds, hy, hcut, hds⟩ := ((h cs).gives ha).resolve_right fun hr => by
            cases hr.2.1
          obtain ⟨es, hy', hcut', rfl⟩ := hcomma.found hds (if_pos rfl)
          have hlt := ha.shorter
          have hcut'' := hcut.trans hcut'
          rcases (ih _ (by simp at hlt; omega) es rfl).gives hbs with
            ⟨fs, hbs, hcutfs, hfs⟩ | ⟨-, hhit, hopen⟩
          · exact .inl ⟨fs, separated_of_yields hy (more_of_comma hy' hbs), hcut''.trans hcutfs,
              hfs⟩
          · refine .inr ⟨trivial, hcut''.hitsOpenComment_eq _ ▸ hhit, ?_⟩
            rw [RunsOpen, ← unclosed_eq hcut'']
            exact separated_of_yields_error hy (more_of_comma_error hy' (h.not_misses es) hopen)
        · rcases (h cs).gives ha with ⟨ds, hy, hcut, rfl⟩ | ⟨-, hhit, hopen⟩
          · cases hhit : (scan ds).hitsOpenComment (scan ds).lexemes with
            | true =>
                refine .inr ⟨trivial, hcut.hitsOpenComment_eq _ ▸ hhit, ?_⟩
                rw [RunsOpen, ← unclosed_eq hcut]
                exact separated_of_yields_error hy (more_of_runsOpen (hcomma.runsOpen hhit))
            | false =>
                have hmiss : (symbol .comma).Misses ds := hcomma.missed hhit fun l hl => by
                  refine if_neg ?_
                  rintro rfl
                  obtain ⟨ms, hms⟩ := List.head?_eq_some_iff.mp hl
                  exact hno ms hms
                exact .inl ⟨ds, separated_of_yields hy (more_of_misses hmiss), hcut, rfl⟩
          · exact .inr ⟨trivial, hhit, separated_of_error hopen⟩
      · rcases Reader.refuses_separated.mp he with he | ⟨a, ms, ha, he⟩
        · obtain ⟨b, hb, hends⟩ := (h cs).refuses he
          exact ⟨b, separated_of_error hb, hends⟩
        · obtain ⟨ds, hy, hcut, hds⟩ := ((h cs).gives ha).resolve_right fun hr => by
            cases hr.2.1
          obtain ⟨es, hy', hcut', rfl⟩ := hcomma.found hds (if_pos rfl)
          have hlt := ha.shorter
          obtain ⟨b, hb, hends⟩ := (ih _ (by simp at hlt; omega) es rfl).refuses he
          exact ⟨b, separated_of_yields_error hy (more_of_comma_error hy' (h.not_misses es) hb),
            hends.of_cutsAt (hcut.trans hcut')⟩

theorem Mirrors.separated (h : item.Mirrors limit peeks ritem) :
    (separated item).Mirrors limit (fun _ => True) (.separated ritem) :=
  mirrorsAt_separated h

/-- A list up to its closing symbol, which is looked for first. -/
theorem Mirrors.closed (h : item.Mirrors limit peeks ritem) (close : Symbol)
    (what : Expectation) :
    (closed item close what).Mirrors limit (fun _ => False) (.closed ritem close what) := by
  have hlist := h.separated.followedBy (mirrors_symbol close what)
  have hclose := finds_symbol close
  intro cs
  refine mirrorsAt_of_looks hclose (fun {l ms u} hl hu => ?yes) (fun hmiss hf => ?no)
    (fun hopen => ?opened) fun {e} he => ?atEnd
  case yes =>
    obtain rfl : l = .symbol close := by
      by_contra hne
      rw [if_neg hne] at hu
      cases hu
    obtain ⟨ds, hy, hcut, hds⟩ := hclose.found hl hu
    obtain ⟨t, ht, -, rfl⟩ := opt_of_yields hy
    refine ⟨fun {as rest} hg => ?_, fun {e} he => ?_⟩
    · rcases Reader.gives_closed.mp hg with ⟨hls, rfl⟩ | ⟨hno, -⟩
      · rw [hl] at hls
        obtain rfl : ms = rest := (List.cons.inj hls).2
        refine .inl ⟨t.rest, ⟨t.map fun _ => [], ?_, rfl, rfl⟩, hcut, hds⟩
        rw [Parser.closed, ht]
      · exact absurd hl (hno ms)
    · exact absurd hl ((Reader.refuses_closed.mp he).1 ms)
  case no =>
    refine (hlist cs).congr ?_ (Reader.closed_eq_followedBy fun ms hms => ?_)
    · rw [Parser.closed, opt_of_misses hmiss]
    · have := hf (.symbol close) (by rw [hms]; rfl)
      rw [if_pos rfl] at this
      cases this
  case opened => rw [RunsOpen, Parser.closed, opt_of_runsOpen hopen]
  case atEnd =>
    rw [Reader.Refuses, Reader.closed_eq_followedBy (by simp)] at he
    exact hlist.atEnd_of_nil he

theorem Mirrors.braced (h : item.Mirrors limit peeks ritem) :
    (braced item).Mirrors limit (fun _ => False) (.braced ritem) :=
  (mirrors_symbol .openBrace .openBrace).bind fun _ => h.closed _ _

theorem Mirrors.parenthesized (h : item.Mirrors limit peeks ritem) (what : Expectation) :
    (parenthesized what item).Mirrors limit (fun _ => False) (.parenthesized what ritem) :=
  (mirrors_symbol .openParen what).bind fun _ => h.closed _ _

end Combinators

end Parser

end PropBench
