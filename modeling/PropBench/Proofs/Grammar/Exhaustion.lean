import PropBench.Proofs.Grammar.Lookahead

/-!
# Proofs — Grammar — Exhaustion

Readers that come to the end of the lexemes and look for another one.  There a text may still hold
a comment that is never closed, and what is then reported is the comment, whatever the limits.

* `r.StopsAtEnd ls`: `r` refuses `ls` at the end, which it has looked at.
* `r.Exhausts ls`: `r` stops at the end, or takes all lexemes.
* `KeepsExhausting.chain`: where a chain is too deep at the end, it still ends there under higher
  limits: it is taken, or is too deep again.
* `readProgram_keepsEnd`: what follows a chain looks behind it, so a program that stops at the end
  does so under all higher limits.
-/

namespace PropBench

/-- The reader had come to the end of the lexemes, and had looked for another. -/
def Refusal.AtEnd : Refusal → Prop
  | .expected _ place => place = []
  | .tooDeep _ unread looked => unread = [] ∧ looked = true

namespace Reader

variable {α β : Type}

/-- The reader refuses the lexemes at their end. -/
def StopsAtEnd (r : Reader α) (ls : List Lexeme) : Prop := ∃ e, r.Refuses ls e ∧ e.AtEnd

/-- The reader refuses the lexemes at their end, or takes all of them. -/
def Exhausts (r : Reader α) (ls : List Lexeme) : Prop := r.StopsAtEnd ls ∨ ∃ a, r.Gives ls a []

/-- Where the first reader stops at the end, so does the second. -/
def KeepsEnd (r r' : Reader α) : Prop := ∀ ⦃ls⦄, r.StopsAtEnd ls → r'.StopsAtEnd ls

/-- Where the first reader stops at the end, the second does or takes all. -/
def KeepsExhausting (r r' : Reader α) : Prop := ∀ ⦃ls⦄, r.StopsAtEnd ls → r'.Exhausts ls

/-! ### Ways to make a reader -/

section Combinators

variable {r r' item item' : Reader α} {ls : List Lexeme}

theorem KeepsExhausting.refl (r : Reader α) : r.KeepsExhausting r := fun _ h => .inl h

theorem KeepsExhausting.map (h : r.KeepsExhausting r') (f : α → β) :
    (f <$> r).KeepsExhausting (f <$> r') := by
  rintro ls ⟨e, he, hend⟩
  rcases h ⟨e, refuses_map.mp he, hend⟩ with ⟨e', he', hend'⟩ | ⟨a, ha⟩
  · exact .inl ⟨e', refuses_map.mpr he', hend'⟩
  · exact .inr ⟨f a, gives_map.mpr ⟨a, ha, rfl⟩⟩

/-- Only the second of two readers has to be compared, if the first is the same. -/
theorem KeepsExhausting.bind (r : Reader α) {f f' : α → Reader β}
    (h : ∀ a, (f a).KeepsExhausting (f' a)) : (r >>= f).KeepsExhausting (r >>= f') := by
  rintro ls ⟨e, he, hend⟩
  rcases refuses_bind.mp he with he | ⟨a, ms, ha, he⟩
  · exact .inl ⟨e, refuses_bind.mpr (.inl he), hend⟩
  · rcases h a ⟨e, he, hend⟩ with ⟨e', he', hend'⟩ | ⟨b, hb⟩
    · exact .inl ⟨e', refuses_bind.mpr (.inr ⟨a, ms, ha, he'⟩), hend'⟩
    · exact .inr ⟨b, gives_bind.mpr ⟨a, ms, ha, hb⟩⟩

/-- Where all lexemes are taken, a symbol that should follow is missed at the end. -/
theorem Exhausts.followedBy_symbol (h : r.Exhausts ls) (s : Symbol) (what : Expectation) :
    (followedBy r (symbol s what)).StopsAtEnd ls := by
  rcases h with ⟨e, he, hend⟩ | ⟨a, ha⟩
  · exact ⟨e, refuses_followedBy.mpr (.inl he), hend⟩
  · have hmissed : (symbol s what).Refuses [] (.expected what []) :=
      refuses_symbol.mpr ⟨rfl, by simp⟩
    exact ⟨_, refuses_followedBy.mpr (.inr ⟨a, [], ha, hmissed⟩), rfl⟩

/-- Behind what takes all lexemes a symbol is missed at the end. -/
theorem KeepsExhausting.followedBy_symbol (h : r.KeepsExhausting r') (hagree : r.Agrees r')
    (s : Symbol) (what : Expectation) :
    (followedBy r (symbol s what)).KeepsEnd (followedBy r' (symbol s what)) := by
  rintro ls ⟨e, he, hend⟩
  rcases refuses_followedBy.mp he with he | ⟨a, ms, ha, he⟩
  · exact (h ⟨e, he, hend⟩).followedBy_symbol s what
  · obtain ⟨rfl, -⟩ := refuses_symbol.mp he
    obtain rfl : ms = [] := hend
    exact Exhausts.followedBy_symbol (.inr ⟨a, (hagree.gives ha).self⟩) s what

/-- In a list the items before the last are read alike, and the last decides. -/
theorem KeepsExhausting.separated (h : item.KeepsExhausting item') (hagree : item.Agrees item') :
    KeepsExhausting (separated item) (separated item') := by
  rintro ls ⟨e, he, hend⟩
  -- On the length: the items behind a comma stand in what the first one leaves.
  induction hn : ls.length using Nat.strong_induction_on generalizing ls with
  | _ n ih =>
      rcases refuses_separated.mp he with he | ⟨a, ms, ha, he⟩
      · rcases h ⟨e, he, hend⟩ with ⟨e', he', hend'⟩ | ⟨a, ha⟩
        · exact .inl ⟨e', refuses_separated.mpr (.inl he'), hend'⟩
        · exact .inr ⟨[a], gives_separated.mpr (.inr ⟨a, ha, rfl, by simp⟩)⟩
      · have hlt := ha.shorter
        have ha' := (hagree.gives ha).self
        rcases ih _ (by simp at hlt; omega) he rfl with ⟨e', he', hend'⟩ | ⟨bs, hbs⟩
        · exact .inl ⟨e', refuses_separated.mpr (.inr ⟨a, ms, ha', he'⟩), hend'⟩
        · exact .inr ⟨a :: bs, gives_separated.mpr (.inl ⟨a, ms, bs, ha', hbs, rfl⟩)⟩

/-- A list without its closing symbol stops at the end. -/
theorem KeepsExhausting.closed (h : item.KeepsExhausting item') (hagree : item.Agrees item')
    (close : Symbol) (what : Expectation) :
    (closed item close what).KeepsEnd (closed item' close what) := by
  rintro ls ⟨e, he, hend⟩
  obtain ⟨hls, -⟩ := refuses_closed.mp he
  rw [Refuses, closed_eq_followedBy hls] at he
  obtain ⟨e', he', hend'⟩ :=
    (h.separated hagree).followedBy_symbol hagree.separated close what ⟨e, he, hend⟩
  exact ⟨e', by rwa [Refuses, closed_eq_followedBy hls], hend'⟩

end Combinators

/-! ### Expressions -/

section Expressions

variable {limit limit' : Nat}

theorem primary_stopsAtEnd (limit : Nat) (chain? : Option (Reader Operand)) :
    (primary limit chain?).StopsAtEnd [] := ⟨_, (refuses_primary_other (by simp)).mpr rfl, rfl⟩

/-- What a primary holds is closed behind it, so that it stops at the end again. -/
theorem keepsEnd_primary {chain? chain?' : Option (Reader Operand)}
    (h : ∀ r, chain? = some r →
      ∃ r', chain?' = some r' ∧ r.Agrees r' ∧ r.KeepsExhausting r') :
    (primary limit chain?).KeepsEnd (primary limit' chain?') := by
  rintro ls ⟨e, he, hend⟩
  cases primaryFront ls with
  | parens ms =>
      rcases refuses_primary_parens.mp he with ⟨-, rfl⟩ | ⟨r, hr, he⟩
      · -- At the limit a parenthesis is refused without a look behind it.
        cases hend.2
      · obtain ⟨r', hr', hagree, hkeeps⟩ := h r hr
        obtain ⟨e', he', hend'⟩ := hkeeps.followedBy_symbol hagree _ _ ⟨e, he, hend⟩
        exact ⟨e', refuses_primary_parens.mpr (.inr ⟨r', hr', he'⟩), hend'⟩
  | reference ms =>
      exact ⟨e, refuses_primary_reference.mpr (refuses_primary_reference.mp he), hend⟩
  | application x ms =>
      rcases refuses_primary_application.mp he with ⟨-, rfl⟩ | ⟨r, hr, he | ⟨_, _, -, -, rfl⟩⟩
      · cases hend.2
      · obtain ⟨r', hr', hagree, hkeeps⟩ := h r hr
        obtain ⟨e', he', hend'⟩ := hkeeps.closed hagree _ _ ⟨e, he, hend⟩
        exact ⟨e', refuses_primary_application.mpr (.inr ⟨r', hr', .inl he'⟩), hend'⟩
      · cases hend.2
  | var x hms => exact absurd he (not_refuses_primary_var hms)
  | other hno =>
      exact ⟨e, (refuses_primary_other hno).mpr ((refuses_primary_other hno).mp he), hend⟩

/-- A row of negations that ends the lexemes stops there: it is too long, or a primary is missed. -/
theorem KeepsEnd.negated {r r' : Reader Operand} (h : r.KeepsEnd r') (hl : limit ≤ limit')
    (hnil : r'.StopsAtEnd []) : (negated limit r).KeepsEnd (negated limit' r') := by
  rintro ls ⟨e, he, hend⟩
  rcases refuses_negated.mp he with ⟨-, rfl⟩ | ⟨hn, he | ⟨_, _, -, -, rfl⟩⟩
  · -- The higher limit may allow the negations: then there is no primary behind them.
    by_cases hn : negations ls < limit'
    · obtain ⟨e', he', hend'⟩ := hnil
      rw [← hend.1] at he'
      exact ⟨e', refuses_negated.mpr (.inr ⟨hn, .inl he'⟩), hend'⟩
    · exact ⟨_, refuses_negated.mpr (.inl ⟨Nat.le_of_not_lt hn, rfl⟩), hend⟩
  · obtain ⟨e', he', hend'⟩ := h ⟨e, he, hend⟩
    exact ⟨e', refuses_negated.mpr (.inr ⟨hn.trans_le hl, .inl he'⟩), hend'⟩
  · cases hend.2

/-- A chain that stops behind a connective, or in an operand, stops there under higher limits. -/
theorem KeepsEnd.links {r r' : Reader Operand} (h : r.KeepsEnd r') (hagree : r.Agrees r')
    {s : Stacks} {ls : List Lexeme} {e : Refusal} (he : links r s ls = .error e) (hend : e.AtEnd) :
    ∃ e', Reader.links r' s ls = .error e' ∧ e'.AtEnd := by
  induction hn : ls.length using Nat.strong_induction_on generalizing ls s with
  | _ n ih =>
      obtain ⟨l, c, ms, rfl, hl, he | ⟨o, ns, ho, he⟩⟩ := links_eq_error.mp he
      · obtain ⟨e', he', hend'⟩ := h ⟨e, he, hend⟩
        exact ⟨e', links_eq_error.mpr ⟨l, c, ms, rfl, hl, .inl he'⟩, hend'⟩
      · have hlt := ho.shorter
        obtain ⟨e', he', hend'⟩ := ih _ (by simp at hn; omega) he rfl
        exact ⟨e', links_eq_error.mpr
          ⟨l, c, ms, rfl, hl, .inr ⟨o, ns, (hagree.gives ho).self, he'⟩⟩, hend'⟩

/-- A chain that ends with the lexemes is taken or is too deep. -/
theorem LinksGive.exhausts {n : Nat} {r : Reader Operand}
    (hr : r.Reads (OperandForm limit 5 n) EndsPrimary) {ls ms : List Lexeme} {p : Operand}
    {g : Stacks} (hp : r.Gives ls p ms) (hk : LinksGive r ⟨[p], []⟩ ms g []) :
    (grouped limit r).Exhausts ls := by
  obtain ⟨_, e, -, -, hc⟩ := hk.exists_collapse hr hp
  by_cases hd : (Operand.of e).depth ≤ limit
  · exact .inr ⟨_, gives_grouped.mpr ⟨p, ms, g, [], hp, hk, hc, hd⟩⟩
  · exact .inl ⟨_, refuses_grouped.mpr
      (.inr ⟨p, ms, hp, .inr ⟨g, [], hk, .inr ⟨_, _, hc, Nat.lt_of_not_le hd, rfl⟩⟩⟩), rfl, rfl⟩

/-- A chain that is too deep at the end is taken under higher limits, or is too deep again. -/
theorem KeepsEnd.grouped {n : Nat} {r r' : Reader Operand} (h : r.KeepsEnd r')
    (hagree : r.Agrees r') (hr : r'.Reads (OperandForm limit' 5 n) EndsPrimary) :
    (grouped limit r).KeepsExhausting (grouped limit' r') := by
  rintro ls ⟨e, he, hend⟩
  rcases refuses_grouped.mp he with
    he | ⟨p, ms, hp, he | ⟨g, rest, hk, ⟨-, rfl⟩ | ⟨_, _, -, -, rfl⟩⟩⟩
  · obtain ⟨e', he', hend'⟩ := h ⟨e, he, hend⟩
    exact .inl ⟨e', refuses_grouped.mpr (.inl he'), hend'⟩
  · obtain ⟨e', he', hend'⟩ := h.links hagree he hend
    have hp' := (hagree.gives hp).self
    exact .inl ⟨e', refuses_grouped.mpr (.inr ⟨p, ms, hp', .inl he'⟩), hend'⟩
  · obtain rfl : ls = [] := hend
    exact absurd hp.shorter (Nat.not_lt_zero _)
  · obtain ⟨rfl, -⟩ := hend
    exact LinksGive.exhausts hr (hagree.gives hp).self (hagree.linksGive hk).self

/-- **A chain that stops at the end still ends there under higher limits.** -/
theorem KeepsExhausting.chain (hl : limit ≤ limit') {n n' : Nat} (hn : n ≤ n') :
    (chain limit n).KeepsExhausting (chain limit' n') := by
  -- On the nesting: what stands in parentheses is read with one less.
  induction n using Nat.strong_induction_on generalizing n' with
  | _ n ih =>
      have hinner : ∀ r, inner limit n = some r →
          ∃ r', inner limit' n' = some r' ∧ r.Agrees r' ∧ r.KeepsExhausting r' := fun r hr => by
        obtain ⟨m, rfl, rfl⟩ := inner_eq_some.mp hr
        obtain ⟨m', rfl⟩ := Nat.exists_eq_succ_of_ne_zero (show n' ≠ 0 by omega)
        exact ⟨_, rfl, agrees_chain hl (by omega), ih m (Nat.lt_succ_self m) (by omega)⟩
      have hagree : (primary limit (inner limit n)).Agrees (primary limit' (inner limit' n')) :=
        agrees_primary hl fun r hr => (hinner r hr).imp fun _ h => ⟨h.1, h.2.1⟩
      have hreads := reads_negated fun hpos => reads_primary hpos fun m (_ : m < n') =>
        reads_chain limit' m
      rw [chain_eq, chain_eq]
      exact ((keepsEnd_primary hinner).negated hl (primary_stopsAtEnd ..)).grouped
        (hagree.negated hl) hreads

end Expressions

/-! ### Statements -/

section Statements

variable {limit limit' : Nat}

/-- A definition that stops at the end does so under a higher limit, or is complete there. -/
theorem KeepsExhausting.definition (hl : limit ≤ limit') (k : DefinitionKind) :
    (definition limit k).KeepsExhausting (definition limit' k) := by
  cases k with
  | formula => exact .bind _ fun f => .bind _ fun _ => ((chain hl hl).map _).map _
  | vars | valuation | operator | opset => exact .refl _

/-- A statement before its semicolon does so too. -/
theorem KeepsExhausting.action (hl : limit ≤ limit') (v : StatementVerb) :
    (action limit v).KeepsExhausting (action limit' v) := by
  cases v with
  | define => exact .bind _ fun k => definition hl k
  | evaluate | adequate => exact .refl _

/-- A statement that is complete at the end still misses its semicolon there. -/
theorem keepsEnd_statement (hl : limit ≤ limit') :
    (statement limit).KeepsEnd (statement limit') :=
  KeepsExhausting.followedBy_symbol (.bind _ fun v => .action hl v)
    ((agrees_accept ..).bind fun v => agrees_action hl v) _ _

end Statements

end Reader

/-! ### Programs -/

/-- **Where a program stops at the end**, it does under a higher limit too. -/
theorem readProgram_keepsEnd {limit limit' : Nat} (hl : limit ≤ limit') {ls : List Lexeme}
    {e : Refusal} (he : (readProgram limit ls).refusal? = some e) (hend : e.AtEnd) :
    ∃ e', (readProgram limit' ls).refusal? = some e' ∧ e'.AtEnd := by
  induction hn : ls.length using Nat.strong_induction_on generalizing ls with
  | _ n ih =>
      obtain ⟨hne, he | ⟨st, rest, hst, he⟩⟩ := readProgram_refusal?_eq_some.mp he
      · obtain ⟨e', he', hend'⟩ := Reader.keepsEnd_statement hl ⟨e, he, hend⟩
        exact ⟨e', readProgram_refusal?_eq_some.mpr ⟨hne, .inl he'⟩, hend'⟩
      · have hst' := ((Reader.agrees_statement hl).gives hst).self
        obtain ⟨e', he', hend'⟩ := ih _ (hn ▸ hst.shorter) he rfl
        exact ⟨e', readProgram_refusal?_eq_some.mpr ⟨hne, .inr ⟨st, rest, hst', he'⟩⟩, hend'⟩

end PropBench
