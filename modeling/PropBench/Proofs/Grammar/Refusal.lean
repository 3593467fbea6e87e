import PropBench.Proofs.Grammar.Statement

/-!
# Proofs — Grammar — Refusal

When readers refuse, and with what: one equivalence for each way to make a reader, beside those that
say what it gives (`gives_bind`, `gives_accept` and so on).
-/

namespace PropBench

namespace Reader

variable {α β : Type}

/-- The reader refuses `ls` with `e`. -/
def Refuses (r : Reader α) (ls : List Lexeme) (e : Refusal) : Prop := r ls = .error e

/-- A reader gives something or refuses. -/
theorem gives_or_refuses (r : Reader α) (ls : List Lexeme) :
    (∃ a rest, r.Gives ls a rest) ∨ ∃ e, r.Refuses ls e := by
  cases h : r ls with
  | error e => exact .inr ⟨e, h⟩
  | ok t => exact .inl ⟨t.value, t.rest, t, h, rfl, rfl⟩

/-- A reader does not both give and refuse. -/
theorem Gives.not_refuses {r : Reader α} {ls rest : List Lexeme} {a : α} (h : r.Gives ls a rest)
    (e : Refusal) : ¬ r.Refuses ls e := by
  obtain ⟨t, ht, -⟩ := h
  rw [Refuses, ht]
  simp

/-- There is nothing to give in front of the end. -/
theorem exists_refuses_nil (r : Reader α) : ∃ e, r.Refuses [] e := by
  rcases r.gives_or_refuses [] with ⟨a, rest, h⟩ | h
  · exact absurd h.shorter (Nat.not_lt_zero _)
  · exact h

section Combinators

variable {r : Reader α} {item : Reader α} {ls : List Lexeme} {e : Refusal}

theorem refuses_map {f : α → β} : (f <$> r).Refuses ls e ↔ r.Refuses ls e := Except.map_eq_error

/-- The first of two readers refuses, or the second does behind it. -/
theorem refuses_bind {f : α → Reader β} :
    (r >>= f).Refuses ls e ↔
      r.Refuses ls e ∨ ∃ a ms, r.Gives ls a ms ∧ (f a).Refuses ms e := by
  have hb : r >>= f = Reader.bind r f := rfl
  rw [hb]
  unfold Refuses Reader.bind
  constructor
  · intro h
    split at h
    · next hr => exact .inl (by rw [hr, Except.error.inj h])
    · next t ht => exact .inr ⟨t.value, t.rest, ⟨t, ht, rfl, rfl⟩, Except.map_eq_error.mp h⟩
  · rintro (h | ⟨_, _, ⟨t, ht, rfl, rfl⟩, h⟩)
    · rw [h]
    · rw [ht]; exact Except.map_eq_error.mpr h

theorem refuses_followedBy {s : Reader β} :
    (followedBy r s).Refuses ls e ↔
      r.Refuses ls e ∨ ∃ a ms, r.Gives ls a ms ∧ s.Refuses ms e := by
  rw [followedBy, refuses_bind]
  simp only [refuses_map]

theorem refuses_accept {what : Expectation} {f : Lexeme → Option α} :
    (accept what f).Refuses ls e ↔ e = .expected what ls ∧ ∀ l ∈ ls.head?, f l = none := by
  unfold Refuses
  cases ls with
  | nil => simp [accept, eq_comm]
  | cons l ls =>
      rw [accept]
      cases h : f l with
      | none => simp [h, eq_comm]
      | some a => simp [h]

theorem refuses_symbol {s : Symbol} {what : Expectation} :
    (symbol s what).Refuses ls e ↔
      e = .expected what ls ∧ ∀ ms, ls ≠ .symbol s :: ms := by
  rw [symbol, refuses_accept]
  cases ls <;> simp

/-- A list is refused in the first of its items that is. -/
theorem refuses_separated :
    Refuses (separated item) ls e ↔ item.Refuses ls e ∨
      ∃ a ms, item.Gives ls a (.symbol .comma :: ms) ∧ Refuses (separated item) ms e := by
  unfold Refuses
  rw [separated]
  constructor
  · intro h
    split at h
    · next hr => exact .inl (by rw [hr, Except.error.inj h])
    · next a ms hs ht =>
        exact .inr ⟨a, ms, ⟨_, ht, rfl, rfl⟩, Except.map_eq_error.mp h⟩
    · cases h
  · rintro (h | ⟨_, _, ⟨⟨a, rest, hs⟩, ht, rfl, hrest⟩, h⟩)
    · rw [h]
    · cases hrest
      rw [ht]; exact Except.map_eq_error.mpr h

/-- A list that is not closed at once is refused in an item, or behind the items. -/
theorem refuses_closed {close : Symbol} {what : Expectation} :
    (closed item close what).Refuses ls e ↔ (∀ ms, ls ≠ .symbol close :: ms) ∧
      (Refuses (separated item) ls e ∨
        ∃ as ms, Gives (separated item) ls as ms ∧ (symbol close what).Refuses ms e) := by
  have hlist : (followedBy (separated item) (symbol close what)).Refuses ls e ↔ _ :=
    refuses_followedBy
  rw [← hlist]
  by_cases hls : ∃ ms, ls = .symbol close :: ms
  · obtain ⟨ms, rfl⟩ := hls
    simp [Refuses, closed]
  · rw [Refuses, closed_eq_followedBy fun ms h => hls ⟨ms, h⟩]
    exact ⟨fun h => ⟨fun ms h => hls ⟨ms, h⟩, h⟩, fun h => h.2⟩

end Combinators

/-! ### Expressions -/

/-- The lexemes that begin a primary. -/
inductive BeginsPrimary : Lexeme → Prop
  | openParen : BeginsPrimary (.symbol .openParen)
  | atSign : BeginsPrimary (.symbol .atSign)
  | name (x : String) : BeginsPrimary (.name x)

/-- The five ways in which a primary is read, by the lexemes at the front. -/
inductive PrimaryFront : List Lexeme → Prop
  | parens (ms : List Lexeme) : PrimaryFront (.symbol .openParen :: ms)
  | reference (ms : List Lexeme) : PrimaryFront (.symbol .atSign :: ms)
  | application (x : String) (ms : List Lexeme) :
      PrimaryFront (.name x :: .symbol .openParen :: ms)
  | var (x : String) {ms : List Lexeme} (h : EndsPrimary ms) : PrimaryFront (.name x :: ms)
  | other {ls : List Lexeme} (h : ∀ l ∈ ls.head?, ¬ BeginsPrimary l) : PrimaryFront ls

/-- The first lexeme tells the kind of a primary. -/
theorem primaryFront (ls : List Lexeme) : PrimaryFront ls := by
  cases ls with
  | nil => exact .other (by simp)
  | cons l ms =>
      by_cases hl : BeginsPrimary l
      · cases hl with
        | openParen => exact .parens ms
        | atSign => exact .reference ms
        | name x =>
            -- A name is an application if a parenthesis follows it.
            by_cases hms : EndsPrimary ms
            · exact .var x hms
            · obtain ⟨ns, rfl⟩ : ∃ ns, ms = .symbol .openParen :: ns := by
                simpa [EndsPrimary] using hms
              exact .application x ns
      · exact .other (by simpa using hl)

section Primary

variable {limit : Nat} {chain? : Option (Reader Operand)} {ms : List Lexeme} {e : Refusal}

/-- At the limit a parenthesis is refused, and otherwise what it holds may be. -/
theorem refuses_primary_parens :
    (primary limit chain?).Refuses (.symbol .openParen :: ms) e ↔
      (chain? = none ∧ e = .tooDeep (.symbol .openParen :: ms) ms false) ∨
        ∃ r, chain? = some r ∧ (inParens r).Refuses ms e := by
  unfold Refuses
  cases chain? with
  | none => simp [primary, eq_comm]
  | some r => simp [primary, Except.map_eq_error]

/-- Behind an at sign the name is missed. -/
theorem refuses_primary_reference :
    (primary limit chain?).Refuses (.symbol .atSign :: ms) e ↔
      (name .formulaName).Refuses ms e := by
  unfold Refuses
  simp [primary, Except.map_eq_error]

/-- An application is refused at the limit, in its arguments, or as it is too deep with them. -/
theorem refuses_primary_application {x : String} :
    (primary limit chain?).Refuses (.name x :: .symbol .openParen :: ms) e ↔
      (chain? = none ∧ e = .tooDeep (.symbol .openParen :: ms) ms false) ∨
        ∃ r, chain? = some r ∧ ((arguments r).Refuses ms e ∨
          ∃ args rest, (arguments r).Gives ms args rest ∧ limit < (Operand.apply x args).depth ∧
            e = .tooDeep (.name x :: .symbol .openParen :: ms) rest false) := by
  unfold Refuses
  cases chain? with
  | none => simp [primary, eq_comm]
  | some r =>
      cases hr : arguments r ms with
      | error e' => simp [primary, hr, Gives]
      | ok t =>
          by_cases hd : (Operand.apply x t.value).depth ≤ limit
          · simp [primary, hr, hd, Gives]
          · simp [primary, hr, hd, Gives, Nat.lt_of_not_le hd, eq_comm]

/-- A variable is never refused. -/
theorem not_refuses_primary_var {x : String} (hms : EndsPrimary ms) :
    ¬ (primary limit chain?).Refuses (.name x :: ms) e :=
  (gives_primary_variable (o := .of (.var x)) hms).mpr ⟨rfl, rfl⟩ |>.not_refuses e

/-- What begins no primary is refused where it stands. -/
theorem refuses_primary_other {ls : List Lexeme} (h : ∀ l ∈ ls.head?, ¬ BeginsPrimary l) :
    (primary limit chain?).Refuses ls e ↔ e = .expected .expression ls := by
  have hp : primary limit chain? ls = .error (.expected .expression ls) := by
    unfold primary
    split
    · exact absurd .openParen (h _ rfl)
    · exact absurd .atSign (h _ rfl)
    · exact absurd (.name _) (h _ rfl)
    · exact absurd (.name _) (h _ rfl)
    · rfl
  rw [Refuses, hp]
  simp [eq_comm]

end Primary

section Chains

variable {limit : Nat} {r : Reader Operand} {ls : List Lexeme} {e : Refusal}

/-- Negations are refused as too many, by the primary behind them, or as too deep with it. -/
theorem refuses_negated :
    (negated limit r).Refuses ls e ↔
      (limit ≤ negations ls ∧ e = .tooDeep ls (ls.drop (negations ls)) true) ∨
      (negations ls < limit ∧ (r.Refuses (ls.drop (negations ls)) e ∨
        ∃ o rest, r.Gives (ls.drop (negations ls)) o rest ∧
          limit < (o.negate (negations ls)).depth ∧ e = .tooDeep ls rest false)) := by
  unfold Refuses
  by_cases hn : negations ls < limit
  · cases hr : r (ls.drop (negations ls)) with
    | error e' => simp [negated, hn, hr, Gives]
    | ok t =>
        by_cases hd : (t.value.negate (negations ls)).depth ≤ limit
        · simp [negated, hn, hr, hd, Gives]
        · simp [negated, hn, Nat.not_le.mpr hn, hr, hd, Gives, Nat.lt_of_not_le hd, eq_comm]
  · simp [negated, hn, Nat.le_of_not_lt hn, eq_comm]

/-- The negations are counted to the last, as what stands behind them is none. -/
theorem refuses_negated_append {negs ms : List Lexeme}
    (hnegs : ∀ l ∈ negs, l.Negates) (hms : ∀ l ∈ ms.head?, ¬ l.Negates) :
    (negated limit r).Refuses (negs ++ ms) e ↔
      (limit ≤ negs.length ∧ e = .tooDeep (negs ++ ms) ms true) ∨
      (negs.length < limit ∧ (r.Refuses ms e ∨ ∃ o rest, r.Gives ms o rest ∧
        limit < (o.negate negs.length).depth ∧ e = .tooDeep (negs ++ ms) rest false)) := by
  rw [refuses_negated, negations_append hnegs hms, List.drop_left]

/-- Links are refused in the operand behind a connective. -/
theorem links_eq_error {s : Stacks} :
    links r s ls = .error e ↔ ∃ l c ms, ls = l :: ms ∧ l.binary? = some c ∧
      (r.Refuses ms e ∨ ∃ o ns, r.Gives ms o ns ∧ links r (s.push c o) ns = .error e) := by
  cases ls with
  | nil => simp [links]
  | cons l ms =>
      rw [links]
      cases hl : l.binary? with
      | none => simp [hl]
      | some c =>
          unfold Refuses
          cases hr : r ms with
          | error e' => simp [hl, hr, Gives]
          | ok t => simp [hl, hr, Gives, Except.map_eq_error]

/-- A group is refused in an operand, or as too deep behind the last.  Stacks that collapse to
nothing would be refused, but there are none. -/
theorem refuses_grouped :
    (grouped limit r).Refuses ls e ↔
      r.Refuses ls e ∨ ∃ o ms, r.Gives ls o ms ∧ (links r ⟨[o], []⟩ ms = .error e ∨
        ∃ g rest, LinksGive r ⟨[o], []⟩ ms g rest ∧
          ((g.collapse = [] ∧ e = .expected .expression ls) ∨
            ∃ p ps, g.collapse = p :: ps ∧ limit < p.depth ∧ e = .tooDeep ls rest true)) := by
  unfold Refuses
  constructor
  · intro h
    unfold grouped at h
    split at h
    · next hr => exact .inl (by rw [hr, Except.error.inj h])
    · next u hu =>
        refine .inr ⟨u.value, u.rest, ⟨u, hu, rfl, rfl⟩, ?_⟩
        split at h
        · next hk => exact .inl (by rw [hk, Except.error.inj h])
        · next k hk =>
            refine .inr ⟨k.grouping, k.rest, ⟨k, hk, rfl, rfl⟩, ?_⟩
            split at h
            · next hc => exact .inl ⟨hc, (Except.error.inj h).symm⟩
            · next o os hc =>
                by_cases hd : o.depth ≤ limit
                · rw [if_pos hd] at h; cases h
                · rw [if_neg hd] at h
                  exact .inr ⟨o, os, hc, Nat.lt_of_not_le hd, (Except.error.inj h).symm⟩
  · rintro (hr | ⟨_, _, ⟨u, hu, rfl, rfl⟩, hk | ⟨_, _, ⟨k, hk, rfl, rfl⟩, ⟨hc, rfl⟩ |
      ⟨p, ps, hc, hd, rfl⟩⟩⟩)
    · simp only [grouped, hr]
    · simp only [grouped, hu, hk]
    · simp only [grouped, hu, hk, hc]
    · simp only [grouped, hu, hk, hc, if_neg (Nat.not_le.mpr hd)]

end Chains

end Reader

/-! ### Programs -/

/-- A program is refused where a statement is. -/
theorem readProgram_refusal?_eq_some {limit : Nat} {ls : List Lexeme} {e : Refusal} :
    (readProgram limit ls).refusal? = some e ↔ ls ≠ [] ∧ ((Reader.statement limit).Refuses ls e ∨
      ∃ st rest, (Reader.statement limit).Gives ls st rest ∧
        (readProgram limit rest).refusal? = some e) := by
  by_cases hls : ls = []
  · subst hls
    simp [readProgram_nil]
  · rw [readProgram, if_neg hls]
    unfold Reader.Refuses
    cases hst : Reader.statement limit ls with
    | error e' => simp [hls, hst, Reader.Gives]
    | ok t => simp [hls, hst, Reader.Gives]

end PropBench
