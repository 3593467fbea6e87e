import PropBench.Proofs.Parser.Mirror

/-!
# Proofs — Parser — Chain

Chains of operands are parsed as they are read.

* `Stacks.Balanced`: there is one operand more than connectives, so that a chain always leaves one.
* `Mirrors.links`: connectives and operands are taken as long as a connective follows, and one is
  looked for behind them.
* `Mirrors.grouped`: a chain of operands, grouped.
-/

namespace PropBench

open Scan

/-! ### Stacks -/

namespace Stacks

/-- There is one operand more than there are connectives. -/
def Balanced (s : Stacks) : Prop := s.operands.length = s.connectives.length + 1

/-- A connective makes one operand of two. -/
theorem length_reduce (c : Binary) {os : List Operand} {n : Nat} (h : os.length = n + 1 + 1) :
    (reduce c os).length = n + 1 := by
  match os, h with
  | r :: l :: os, h => exact Nat.succ_inj.mp h

/-- Settling what binds at least as tightly keeps one operand more than there are connectives. -/
theorem balanced_settle (c : Binary) {os : List Operand} {cs : List Binary}
    (h : Balanced ⟨os, cs⟩) : Balanced (settle c os cs) := by
  induction cs generalizing os with
  | nil => exact h
  | cons d cs ih =>
      rw [settle]
      split
      · exact ih (length_reduce d h)
      · exact h

/-- A connective comes with its operand, so that a push keeps the balance. -/
theorem Balanced.push {s : Stacks} (h : s.Balanced) (c : Binary) (o : Operand) :
    (s.push c o).Balanced := by
  have hsettle := balanced_settle c h
  show (_ :: _).length = (_ :: _).length + 1
  simp only [List.length_cons]
  exact congrArg (· + 1) hsettle

/-- Balanced stacks hold an operand, so that a chain always ends in one. -/
theorem Balanced.collapse_ne_nil {s : Stacks} (h : s.Balanced) : s.collapse ≠ [] := by
  obtain ⟨os, cs⟩ := s
  rw [collapse]
  induction cs generalizing os with
  | nil =>
      rintro rfl
      cases h
  | cons d cs ih =>
      exact ih (reduce d os) (length_reduce d h)

end Stacks

/-- A whole chain keeps the balance that one push keeps. -/
theorem Reader.LinksGive.balanced {r : Reader Operand} {s g : Stacks} {ls rest : List Lexeme}
    (h : LinksGive r s ls g rest) (hs : s.Balanced) : g.Balanced := by
  -- On the length: each link stands in what the one before it leaves.
  induction hn : ls.length using Nat.strong_induction_on generalizing ls s with
  | _ n ih =>
      rcases h.ends_or_begins with ⟨rfl, rfl, -⟩ | ⟨l, c, ms, o, ns, rfl, -, ho, h⟩
      · exact hs
      · have hlt := ho.shorter
        exact ih _ (by simp at hn; omega) h (hs.push c o) rfl

namespace Parser

variable {limit : Nat} {p : Parser Operand} {r : Reader Operand} {peeks : Operand → Prop}

/-! ### Chains -/

/-- A chain ends, with the stacks as they are, where no connective follows. -/
theorem links_of_misses {s : Stacks} {cs : List Char} (h : binaryOperator.Misses cs) :
    Reaches (links p s cs) s cs := by
  refine ⟨.stay s cs, ?_, rfl, rfl⟩
  rw [links, opt_of_misses h]

/-- A comment left open where a connective may stand ends the whole reading. -/
theorem links_of_runsOpen {s : Stacks} {cs : List Char} (h : binaryOperator.RunsOpen cs) :
    links p s cs = .error (unclosed cs) := by
  rw [links, opt_of_runsOpen h]

/-- A connective and an operand are pushed, and the chain goes on behind them. -/
theorem links_of_yields {s g : Stacks} {c : Binary} {o : Operand} {cs ds es fs : List Char}
    (h : binaryOperator.Yields cs c ds) (ho : p.Yields ds o es)
    (h' : Reaches (links p (s.push c o) es) g fs) : Reaches (links p s cs) g fs := by
  obtain ⟨t, ht, rfl, rfl⟩ := opt_of_yields h
  obtain ⟨v, hv, rfl, rfl⟩ := ho
  obtain ⟨u, hu, rfl, rfl⟩ := h'
  refine ⟨(u.behind id (Nat.lt_trans v.shorter t.shorter)).toPassed, ?_, rfl, rfl⟩
  rw [links, ht]
  dsimp only
  rw [hv]
  dsimp only
  rw [hu]
  rfl

/-- Behind a connective the operand is not optional: its error is the chain's. -/
theorem links_of_operand_error {s : Stacks} {c : Binary} {cs ds : List Char} {b : Break}
    (h : binaryOperator.Yields cs c ds) (ho : p ds = .error b) : links p s cs = .error b := by
  obtain ⟨t, ht, rfl, rfl⟩ := opt_of_yields h
  rw [links, ht]
  dsimp only
  rw [ho]

/-- An error further down a chain is the chain's. -/
theorem links_of_yields_error {s : Stacks} {c : Binary} {o : Operand} {cs ds es : List Char}
    {b : Break} (h : binaryOperator.Yields cs c ds) (ho : p.Yields ds o es)
    (h' : links p (s.push c o) es = .error b) : links p s cs = .error b := by
  obtain ⟨t, ht, rfl, rfl⟩ := opt_of_yields h
  obtain ⟨v, hv, rfl, rfl⟩ := ho
  rw [links, ht]
  dsimp only
  rw [hv]
  dsimp only
  rw [h']
  rfl

/-- What the links of a chain do on a text: the parser takes those that the reader takes off the
lexemes, and looks for another behind them. -/
structure LinksMirror (limit : Nat) (p : Parser Operand) (r : Reader Operand) (s : Stacks)
    (cs : List Char) : Prop where
  gives : ∀ {g rest}, Reader.LinksGive r s (scan cs).lexemes g rest →
    (scan cs).hitsOpenComment rest = false →
      ∃ ds, Reaches (links p s cs) g ds ∧ CutsAt cs ds ∧ (scan ds).lexemes = rest
  runsOpen : ∀ {g rest}, Reader.LinksGive r s (scan cs).lexemes g rest →
    (scan cs).hitsOpenComment rest = true → links p s cs = .error (unclosed cs)
  refuses : ∀ {e}, Reader.links r s (scan cs).lexemes = .error e →
    ∃ b, links p s cs = .error b ∧ Ends limit cs e b

/-- With no lexeme left a chain ends, and leaves none. -/
theorem rest_eq_nil_of_linksGive {s g : Stacks} {rest : List Lexeme}
    (h : Reader.LinksGive r s [] g rest) : rest = [] := by
  rcases h.ends_or_begins with ⟨rfl, -⟩ | ⟨l, c, ms, o, ns, hnil, -⟩
  · rfl
  · cases hnil

theorem links_nil_ne_error {s : Stacks} {e : Refusal} : Reader.links r s [] ≠ .error e := by
  intro h
  obtain ⟨l, c, ms, hnil, -⟩ := Reader.links_eq_error.mp h
  cases hnil

/-- Where no connective follows, the links end in the text as they do in the lexemes. -/
theorem linksMirror_of_ends (limit : Nat) (p : Parser Operand) (r : Reader Operand) (s : Stacks)
    {cs : List Char} (hls : ∀ l ∈ (scan cs).lexemes.head?, l.binary? = none) :
    LinksMirror limit p r s cs := by
  have hfinds := finds_binaryOperator
  have hno : ∀ {l c ms}, (scan cs).lexemes = l :: ms → l.binary? ≠ some c := by
    intro l c ms heq hc
    rw [hls l (by rw [heq]; rfl)] at hc
    cases hc
  have hends : ∀ {g rest}, Reader.LinksGive r s (scan cs).lexemes g rest →
      rest = (scan cs).lexemes ∧ g = s := by
    intro g rest hg
    rcases hg.ends_or_begins with ⟨hr, hs, -⟩ | ⟨l, c, ms, o, ns, heq, hc, -⟩
    · exact ⟨hr, hs⟩
    · exact absurd hc (hno heq)
  refine ⟨fun hg hhit => ?_, fun hg hhit => ?_, fun he => ?_⟩
  · obtain ⟨rfl, rfl⟩ := hends hg
    exact ⟨cs, links_of_misses (hfinds.missed hhit hls), .refl cs, rfl⟩
  · obtain ⟨rfl, rfl⟩ := hends hg
    exact links_of_runsOpen (hfinds.runsOpen hhit)
  · obtain ⟨l, c, ms, heq, hc, -⟩ := Reader.links_eq_error.mp he
    exact absurd hc (hno heq)

/-- A link in front of links that are read the same, whatever operand it brings. -/
theorem Mirrors.linksMirror_of_link (h : p.Mirrors limit peeks r) {s : Stacks} {cs ds : List Char}
    {l : Lexeme} {c : Binary} (heq : (scan cs).lexemes = l :: (scan ds).lexemes)
    (hc : l.binary? = some c) (hy : binaryOperator.Yields cs c ds) (hcut : CutsAt cs ds)
    (hnext : ∀ {o es}, r.Gives (scan ds).lexemes o (scan es).lexemes →
      LinksMirror limit p r (s.push c o) es) :
    LinksMirror limit p r s cs := by
  refine ⟨fun {g rest} hg hhit => ?_, fun {g rest} hg hhit => ?_, fun {e} he => ?_⟩
  · obtain ⟨o, ns, ho, hg⟩ := (Reader.linksGive_cons_iff hc).mp (heq ▸ hg)
    rcases (h ds).gives ho with ⟨es, hyo, hcut', rfl⟩ | ⟨-, hhit', -⟩
    · have hcut'' := hcut.trans hcut'
      obtain ⟨fs, hr, hcutf, hfs⟩ := (hnext ho).gives hg (hcut''.hitsOpenComment_eq _ ▸ hhit)
      exact ⟨fs, links_of_yields hy hyo hr, hcut''.trans hcutf, hfs⟩
    · -- An operand that comes upon the comment leaves it to the end of the chain.
      obtain ⟨rfl, -⟩ := eq_nil_of_hitsOpenComment hhit'
      obtain rfl := rest_eq_nil_of_linksGive hg
      rw [hcut.hitsOpenComment_eq, hhit] at hhit'
      cases hhit'
  · obtain ⟨o, ns, ho, hg⟩ := (Reader.linksGive_cons_iff hc).mp (heq ▸ hg)
    rcases (h ds).gives ho with ⟨es, hyo, hcut', rfl⟩ | ⟨-, -, hopen⟩
    · have hcut'' := hcut.trans hcut'
      have hrest := (hnext ho).runsOpen hg (hcut''.hitsOpenComment_eq _ ▸ hhit)
      rw [unclosed_eq hcut''] at hrest
      exact links_of_yields_error hy hyo hrest
    · rw [RunsOpen, unclosed_eq hcut] at hopen
      exact links_of_operand_error hy hopen
  · obtain ⟨l', c', ms', heq', hc', he⟩ := Reader.links_eq_error.mp he
    rw [heq] at heq'
    cases heq'
    rw [hc] at hc'
    cases hc'
    rcases he with he | ⟨o, ns, ho, he⟩
    · obtain ⟨b, hb, hends⟩ := (h ds).refuses he
      exact ⟨b, links_of_operand_error hy hb, hends.of_cutsAt hcut⟩
    · rcases (h ds).gives ho with ⟨es, hyo, hcut', rfl⟩ | ⟨-, hhit', -⟩
      · obtain ⟨b, hb, hends⟩ := (hnext ho).refuses he
        exact ⟨b, links_of_yields_error hy hyo hb, hends.of_cutsAt (hcut.trans hcut')⟩
      · obtain ⟨rfl, -⟩ := eq_nil_of_hitsOpenComment hhit'
        exact absurd he links_nil_ne_error

/-- The links behind an operand are read the same from the text and from the lexemes. -/
theorem Mirrors.links (h : p.Mirrors limit peeks r) (s : Stacks) (cs : List Char) :
    LinksMirror limit p r s cs := by
  -- On the number of lexemes: each link stands in what the one before it leaves.
  induction hn : (scan cs).lexemes.length using Nat.strong_induction_on generalizing cs s with
  | _ n ih =>
      by_cases hls : ∀ l ∈ (scan cs).lexemes.head?, l.binary? = none
      · exact linksMirror_of_ends limit p r s hls
      · push Not at hls
        obtain ⟨l, hl, hb⟩ := hls
        obtain ⟨ms, heq⟩ := List.head?_eq_some_iff.mp hl
        obtain ⟨c, hc⟩ := Option.ne_none_iff_exists'.mp hb
        obtain ⟨ds, hy, hcut, rfl⟩ := finds_binaryOperator.found heq hc
        have hlen : (scan ds).lexemes.length < n := by rw [← hn, heq]; simp
        exact h.linksMirror_of_link heq hc hy hcut fun {o es} ho =>
          ih _ (ho.shorter.trans hlen) (s.push c o) es rfl

theorem grouped_of_error {cs : List Char} {b : Break} (h : p cs = .error b) :
    grouped limit p cs = .error b := by
  simp only [grouped, h]

theorem grouped_of_links_error {o : Operand} {cs ds : List Char} {b : Break}
    (h : p.Yields cs o ds) (h' : Parser.links p ⟨[o], []⟩ ds = .error b) :
    grouped limit p cs = .error b := by
  obtain ⟨t, ht, rfl, rfl⟩ := h
  simp only [grouped, ht, h']

/-- A chain is what its stacks collapse to, if that is not too deep. -/
theorem grouped_of_links (limit : Nat) {o q : Operand} {qs : List Operand} {g : Stacks}
    {cs ds es : List Char} (h : p.Yields cs o ds)
    (h' : Reaches (Parser.links p ⟨[o], []⟩ ds) g es) (hg : g.collapse = q :: qs) :
    if q.depth ≤ limit then (grouped limit p).Yields cs q es
    else grouped limit p cs = .error (tooDeep limit cs) := by
  obtain ⟨t, ht, rfl, rfl⟩ := h
  obtain ⟨u, hu, rfl, rfl⟩ := h'
  split
  · next hd =>
      refine ⟨u.behind (fun _ => q) t.shorter, ?_, rfl, rfl⟩
      simp only [grouped, ht, hu, hg]
      exact if_pos hd
  · next hd =>
      simp only [grouped, ht, hu, hg]
      exact if_neg hd

/-- A group that is too deep ends where its reader refuses it.  The look behind its last operand
may come upon a comment left open, which is then the error. -/
theorem Mirrors.grouped_of_tooDeep (h : p.Mirrors limit peeks r) {o q : Operand}
    {qs : List Operand} {g : Stacks} {cs ds : List Char} {rest : List Lexeme}
    (hy : p.Yields cs o ds) (hcut : CutsAt cs ds)
    (hface : (scan cs).hitsOpenComment (scan cs).lexemes = false)
    (hk : Reader.LinksGive r ⟨[o], []⟩ (scan ds).lexemes g rest) (hcol : g.collapse = q :: qs)
    (hd : limit < q.depth) :
    ∃ b, grouped limit p cs = .error b ∧
      Ends limit cs (.tooDeep (scan cs).lexemes rest true) b := by
  cases hhit : (scan ds).hitsOpenComment rest with
  | true =>
      obtain ⟨rfl, hstop⟩ := eq_nil_of_hitsOpenComment hhit
      rw [stop_eq_of_cutsAt hcut] at hstop
      refine ⟨_, grouped_of_links_error hy ((h.links _ ds).runsOpen hk hhit), ?_⟩
      rw [unclosed_eq hcut]
      exact .unclosed ⟨rfl, rfl⟩ hstop
  | false =>
      obtain ⟨es, hes, hcut', -⟩ := (h.links _ ds).gives hk hhit
      have hgroup := grouped_of_links limit hy hes hcol
      rw [if_neg (Nat.not_le.mpr hd)] at hgroup
      refine ⟨_, hgroup, .stands (fun hend hstop => ?_) (.refl cs) rfl hface⟩
      rw [hcut.hitsOpenComment_eq, hend.1, hitsOpenComment_nil hstop] at hhit
      cases hhit

/-- A group is read the same from the text and from the lexemes. -/
theorem Mirrors.grouped (h : p.Mirrors limit peeks r) :
    (grouped limit p).Mirrors limit (fun _ => True) (.grouped limit r) := by
  intro cs
  refine ⟨fun {q rest} hg => ?_, fun {e} he => ?_⟩
  · obtain ⟨o, ms, g, qs, ho, hk, hcol, hd⟩ := Reader.gives_grouped.mp hg
    rcases (h cs).gives ho with ⟨ds, hy, hcut, rfl⟩ | ⟨-, hhit, hopen⟩
    · cases hhit : (scan ds).hitsOpenComment rest with
      | true =>
          refine .inr ⟨trivial, hcut.hitsOpenComment_eq _ ▸ hhit, ?_⟩
          rw [RunsOpen, ← unclosed_eq hcut]
          exact grouped_of_links_error hy ((h.links _ ds).runsOpen hk hhit)
      | false =>
          obtain ⟨es, hes, hcut', hrest⟩ := (h.links _ ds).gives hk hhit
          have hgroup := grouped_of_links limit hy hes hcol
          rw [if_pos hd] at hgroup
          exact .inl ⟨es, hgroup, hcut.trans hcut', hrest⟩
    · obtain ⟨rfl, -⟩ := eq_nil_of_hitsOpenComment hhit
      obtain rfl := rest_eq_nil_of_linksGive hk
      exact .inr ⟨trivial, hhit, grouped_of_error hopen⟩
  · rcases Reader.refuses_grouped.mp he with he | ⟨o, ms, ho, hk⟩
    · obtain ⟨b, hb, hends⟩ := (h cs).refuses he
      exact ⟨b, grouped_of_error hb, hends⟩
    -- The stacks of a chain that is read never collapse to nothing.
    have hfull : ∀ {g rest}, Reader.LinksGive r ⟨[o], []⟩ ms g rest → g.collapse ≠ [] :=
      fun hk => (hk.balanced rfl).collapse_ne_nil
    rcases (h cs).gives ho with ⟨ds, hy, hcut, rfl⟩ | ⟨-, hhit, hopen⟩
    · have hface : (scan cs).hitsOpenComment (scan cs).lexemes = false := by
        cases hl : (scan cs).lexemes with
        | nil => rw [hl] at ho; exact absurd ho.shorter (Nat.not_lt_zero _)
        | cons l ls => rfl
      rcases hk with hk | ⟨g, rest, hk, ⟨hcol, -⟩ | ⟨q, qs, hcol, hd, rfl⟩⟩
      · obtain ⟨b, hb, hends⟩ := (h.links _ ds).refuses hk
        exact ⟨b, grouped_of_links_error hy hb, hends.of_cutsAt hcut⟩
      · exact absurd hcol (hfull hk)
      · exact h.grouped_of_tooDeep hy hcut hface hk hcol hd
    · -- The first operand comes upon the comment, so no lexeme is left behind it.
      obtain ⟨rfl, hstop⟩ := eq_nil_of_hitsOpenComment hhit
      refine ⟨_, grouped_of_error hopen, .unclosed ?_ hstop⟩
      rcases hk with hk | ⟨g, rest, hk, ⟨hcol, -⟩ | ⟨q, qs, -, -, rfl⟩⟩
      · exact absurd hk links_nil_ne_error
      · exact absurd hcol (hfull hk)
      · exact ⟨rest_eq_nil_of_linksGive hk, rfl⟩

end Parser

end PropBench
