import PropBench.Proofs.Grammar.Refusal

/-!
# Proofs — Grammar — Lookahead

Readers look at the lexemes that they take or pass over, and at the first one behind, no further.
What they do in front of some lexemes they do in front of any that begin alike, also under higher
limits.

* `Locally P ls rest`: `P` holds of `ls` and `rest`, and still does when other lexemes that begin
  alike stand in the place of `rest`.
* `r.Agrees r'`: what `r` gives and expects, `r'` gives and expects, locally.
* `agrees_chain`, `agrees_statement`: a reader agrees with the same one under higher limits.
* `readProgram_agrees`: so does the reading of a program that runs into something unexpected.
-/

namespace PropBench

/-! ### The rest of a list -/

/-- `P` holds of the lists, however the second goes on behind its first lexeme. -/
def Locally (P : List Lexeme → List Lexeme → Prop) (ls rest : List Lexeme) : Prop :=
  ∃ front, ls = front ++ rest ∧
    ∀ rest' : List Lexeme, rest'.head? = rest.head? → P (front ++ rest') rest'

namespace Locally

variable {P Q R : List Lexeme → List Lexeme → Prop} {ls ms rest : List Lexeme}

/-- Where nothing is read, the next lexeme is all that may count. -/
theorem here (h : ∀ ls' : List Lexeme, ls'.head? = ls.head? → P ls' ls') : Locally P ls ls :=
  ⟨[], rfl, h⟩

theorem self (h : Locally P ls rest) : P ls rest := by
  obtain ⟨front, rfl, h⟩ := h
  exact h rest rfl

theorem imp (h : Locally P ls rest)
    (hQ : ∀ ls' rest' : List Lexeme, ls'.head? = ls.head? → rest'.head? = rest.head? →
      P ls' rest' → Q ls' rest') : Locally Q ls rest := by
  obtain ⟨front, rfl, h⟩ := h
  exact ⟨front, rfl, fun rest' hr => hQ _ _ (by simp [hr]) hr (h rest' hr)⟩

/-- Two parts that are local each make a local whole, as the second begins with what the first looks
at. -/
theorem trans (h₁ : Locally P ls ms) (h₂ : Locally Q ms rest)
    (hR : ∀ ls' ms' rest', P ls' ms' → Q ms' rest' → R ls' rest') : Locally R ls rest := by
  obtain ⟨front, rfl, h₁⟩ := h₁
  obtain ⟨tail, rfl, h₂⟩ := h₂
  refine ⟨front ++ tail, by simp, fun rest' hr => ?_⟩
  rw [List.append_assoc]
  exact hR _ _ _ (h₁ _ (by simp [hr])) (h₂ rest' hr)

theorem cons {l : Lexeme} (h : Locally P ms rest)
    (hQ : ∀ ms' rest', P ms' rest' → Q (l :: ms') rest') : Locally Q (l :: ms) rest := by
  obtain ⟨front, rfl, h⟩ := h
  exact ⟨l :: front, rfl, fun rest' hr => hQ _ _ (h rest' hr)⟩

/-- Two stretches with a lexeme between. -/
theorem trans_cons {l : Lexeme} (h₁ : Locally P ls (l :: ms)) (h₂ : Locally Q ms rest)
    (hR : ∀ ls' ms' rest', P ls' (l :: ms') → Q ms' rest' → R ls' rest') :
    Locally R ls rest := by
  have h : Locally (fun ms rest => ∃ ns, ms = l :: ns ∧ Q ns rest) (l :: ms) rest :=
    h₂.cons fun ms' _ h => ⟨ms', rfl, h⟩
  refine h₁.trans h ?_
  rintro ls' _ rest' h₁ ⟨ms', rfl, h₂⟩
  exact hR ls' ms' rest' h₁ h₂

/-- Two stretches behind a lexeme. -/
theorem cons_trans {l : Lexeme} {ns : List Lexeme} (h₁ : Locally P ms ns)
    (h₂ : Locally Q ns rest) (hR : ∀ ms' ns' rest', P ms' ns' → Q ns' rest' → R (l :: ms') rest') :
    Locally R (l :: ms) rest := by
  have h : Locally (fun ms rest => R (l :: ms) rest) ms rest := h₁.trans h₂ hR
  exact h.cons fun _ _ h => h

/-- Lexemes in front are kept. -/
theorem append (front : List Lexeme) (h : Locally P ms rest)
    (hQ : ∀ ms' rest', ms'.head? = ms.head? → P ms' rest' → Q (front ++ ms') rest') :
    Locally Q (front ++ ms) rest := by
  obtain ⟨tail, rfl, h⟩ := h
  refine ⟨front ++ tail, by simp, fun rest' hr => ?_⟩
  rw [List.append_assoc]
  exact hQ _ _ (by simp [hr]) (h rest' hr)

end Locally

/-- A first lexeme that is not there is not there in any list that begins alike. -/
theorem ne_cons_of_head? {l : Lexeme} {ls ls' : List Lexeme} (h : ls'.head? = ls.head?)
    (hls : ∀ ms, ls ≠ l :: ms) (ms : List Lexeme) : ls' ≠ l :: ms := by
  rintro rfl
  obtain ⟨ns, rfl⟩ := List.head?_eq_some_iff.mp h.symm
  exact hls ns rfl

/-- Whether a primary ends is told by the next lexeme. -/
theorem EndsPrimary.of_head? {ls ls' : List Lexeme} (h : EndsPrimary ls)
    (hhead : ls'.head? = ls.head?) : EndsPrimary ls' := ne_cons_of_head? hhead h

namespace Reader

variable {α β : Type}

/-- The reader refuses `ls` as it expects something at `place`. -/
abbrev Expects (r : Reader α) (what : Expectation) (ls place : List Lexeme) : Prop :=
  r.Refuses ls (.expected what place)

/-- What the first reader gives or expects, the second does, and both look at one lexeme behind
what is read at most. -/
structure Agrees (r r' : Reader α) : Prop where
  gives : ∀ {ls a rest}, r.Gives ls a rest → Locally (r'.Gives · a ·) ls rest
  expects : ∀ {ls what place}, r.Expects what ls place → Locally (r'.Expects what) ls place

/-! ### Ways to make a reader -/

section Combinators

variable {r r' s s' : Reader α} {item item' : Reader α}

/-- One lexeme is taken or missed by itself. -/
theorem agrees_accept (what : Expectation) (f : Lexeme → Option α) :
    (accept what f).Agrees (accept what f) where
  gives h := by
    obtain ⟨l, rfl, hl⟩ := gives_accept.mp h
    exact .cons (.here fun _ _ => rfl) fun ms' rest' (e : ms' = rest') =>
      gives_accept.mpr ⟨l, e ▸ rfl, hl⟩
  expects h := by
    obtain ⟨⟨⟩, hno⟩ := refuses_accept.mp h
    exact .here fun ls' hhead => refuses_accept.mpr ⟨rfl, hhead ▸ hno⟩

theorem agrees_symbol (s : Symbol) (what : Expectation) :
    (symbol s what).Agrees (symbol s what) := agrees_accept what _

/-- Readers that agree do so on changed values. -/
theorem Agrees.map (h : r.Agrees r') (f : α → β) : (f <$> r).Agrees (f <$> r') where
  gives hg := by
    obtain ⟨a, ha, rfl⟩ := gives_map.mp hg
    exact (h.gives ha).imp fun _ _ _ _ h => gives_map.mpr ⟨a, h, rfl⟩
  expects he := (h.expects (refuses_map.mp he)).imp fun _ _ _ _ h => refuses_map.mpr h

/-- Readers one after the other agree, if each of the two does. -/
theorem Agrees.bind (h : r.Agrees r') {f f' : α → Reader β} (hf : ∀ a, (f a).Agrees (f' a)) :
    (r >>= f).Agrees (r' >>= f') where
  gives hg := by
    obtain ⟨a, ms, ha, hb⟩ := gives_bind.mp hg
    exact (h.gives ha).trans ((hf a).gives hb) fun _ ms' _ h₁ h₂ =>
      gives_bind.mpr ⟨a, ms', h₁, h₂⟩
  expects he := by
    rcases refuses_bind.mp he with he | ⟨a, ms, ha, he⟩
    · exact (h.expects he).imp fun _ _ _ _ h => refuses_bind.mpr (.inl h)
    · exact (h.gives ha).trans ((hf a).expects he) fun _ ms' _ h₁ h₂ =>
        refuses_bind.mpr (.inr ⟨a, ms', h₁, h₂⟩)

theorem Agrees.followedBy (h : r.Agrees r') {t t' : Reader β} (ht : t.Agrees t') :
    (followedBy r t).Agrees (followedBy r' t') :=
  h.bind fun a => ht.map fun _ => a

/-- Two readers that each choose between two others by the first lexeme. -/
theorem Agrees.choice {t t' : Reader α} (first : Option Lexeme → Prop) (h : r.Agrees r')
    (hs : s.Agrees s') (hr : ∀ ls : List Lexeme, first ls.head? → t ls = r ls ∧ t' ls = r' ls)
    (ho : ∀ ls : List Lexeme, ¬ first ls.head? → t ls = s ls ∧ t' ls = s' ls) : t.Agrees t' where
  gives {ls a rest} hg := by
    by_cases hc : first ls.head?
    · rw [Gives, (hr ls hc).1] at hg
      refine (h.gives hg).imp fun ls' _ hhead _ h => ?_
      rwa [Gives, (hr ls' (hhead ▸ hc)).2]
    · rw [Gives, (ho ls hc).1] at hg
      refine (hs.gives hg).imp fun ls' _ hhead _ h => ?_
      rwa [Gives, (ho ls' (hhead ▸ hc)).2]
  expects {ls what place} he := by
    by_cases hc : first ls.head?
    · rw [Expects, Refuses, (hr ls hc).1] at he
      refine (h.expects he).imp fun ls' _ hhead _ h => ?_
      rwa [Expects, Refuses, (hr ls' (hhead ▸ hc)).2]
    · rw [Expects, Refuses, (ho ls hc).1] at he
      refine (hs.expects he).imp fun ls' _ hhead _ h => ?_
      rwa [Expects, Refuses, (ho ls' (hhead ▸ hc)).2]

/-- Lists agree if their items do.  Behind an item the comma is looked at. -/
theorem Agrees.separated (h : item.Agrees item') :
    Agrees (separated item) (separated item') where
  gives {ls as rest} hg := by
    -- On the length: the items behind a comma stand in what the first one leaves.
    induction hn : ls.length using Nat.strong_induction_on generalizing ls as with
    | _ n ih =>
        rcases gives_separated.mp hg with ⟨a, ms, bs, ha, hbs, rfl⟩ | ⟨a, ha, rfl, hno⟩
        · have hlt := ha.shorter
          have htail := ih _ (by simp at hlt; omega) hbs rfl
          exact (h.gives ha).trans_cons htail fun _ ms' _ h₁ h₂ =>
            gives_separated.mpr (.inl ⟨a, ms', bs, h₁, h₂, rfl⟩)
        · exact (h.gives ha).imp fun ls' rest' _ hr h =>
            gives_separated.mpr (.inr ⟨a, h, rfl, ne_cons_of_head? hr hno⟩)
  expects {ls what place} he := by
    induction hn : ls.length using Nat.strong_induction_on generalizing ls with
    | _ n ih =>
        rcases refuses_separated.mp he with he | ⟨a, ms, ha, he⟩
        · exact (h.expects he).imp fun _ _ _ _ h => refuses_separated.mpr (.inl h)
        · have hlt := ha.shorter
          have htail := ih _ (by simp at hlt; omega) he rfl
          exact (h.gives ha).trans_cons htail fun _ ms' _ h₁ h₂ =>
            refuses_separated.mpr (.inr ⟨a, ms', h₁, h₂⟩)

/-- A list closed at once is read as its closing symbol. -/
theorem closed_cons_close (item : Reader α) (close : Symbol) (what : Expectation)
    (ms : List Lexeme) :
    closed item close what (.symbol close :: ms) =
      ((fun _ => []) <$> symbol close what) (.symbol close :: ms) := by
  rw [closed, if_pos rfl]
  simp [Functor.map, Reader.map, symbol, accept, Except.map, Taken.map, Taken.one]

/-- Closed lists agree if their items do. -/
theorem Agrees.closed (h : item.Agrees item') (close : Symbol) (what : Expectation) :
    (closed item close what).Agrees (closed item' close what) := by
  have hnil := (agrees_symbol close what).map fun _ => ([] : List α)
  refine .choice (· = some (.symbol close)) hnil
    (h.separated.followedBy (agrees_symbol close what)) (fun ls hls => ?_) fun ls hls => ?_
  · obtain ⟨ms, rfl⟩ := List.head?_eq_some_iff.mp hls
    exact ⟨closed_cons_close .., closed_cons_close ..⟩
  · have hne : ∀ ms, ls ≠ .symbol close :: ms := fun ms e => hls (by rw [e]; rfl)
    exact ⟨closed_eq_followedBy hne, closed_eq_followedBy hne⟩

theorem Agrees.braced (h : item.Agrees item') : (braced item).Agrees (braced item') :=
  (agrees_symbol ..).bind fun _ => h.closed ..

theorem Agrees.parenthesized (h : item.Agrees item') (what : Expectation) :
    (parenthesized what item).Agrees (parenthesized what item') :=
  (agrees_symbol ..).bind fun _ => h.closed ..

end Combinators

/-! ### Expressions -/

section Expressions

variable {limit limit' : Nat}

theorem Agrees.inParens {r r' : Reader Operand} (h : r.Agrees r') :
    (inParens r).Agrees (inParens r') := h.followedBy (agrees_symbol ..)

theorem Agrees.arguments {r r' : Reader Operand} (h : r.Agrees r') :
    (arguments r).Agrees (arguments r') := h.closed ..

/-- Primaries agree under a higher limit if what stands in parentheses may be read as before. -/
theorem agrees_primary {chain? chain?' : Option (Reader Operand)} (hl : limit ≤ limit')
    (h : ∀ r, chain? = some r → ∃ r', chain?' = some r' ∧ r.Agrees r') :
    (primary limit chain?).Agrees (primary limit' chain?') where
  gives {ls o rest} hg := by
    cases primaryFront ls with
    | parens ms =>
        obtain ⟨r, hr, hg⟩ := gives_primary_parens.mp hg
        obtain ⟨r', hr', hagree⟩ := h r hr
        obtain ⟨front, rfl, hfront⟩ := hagree.gives hg
        refine ⟨.symbol .openParen :: (front ++ [.symbol .closeParen]), by simp, fun rest' _ => ?_⟩
        -- The chain looks at the parenthesis that closes it, and no further.
        have := hfront (.symbol .closeParen :: rest') rfl
        exact gives_primary_parens.mpr ⟨r', hr', by simpa using this⟩
    | reference ms =>
        obtain ⟨f, rfl, rfl⟩ := gives_primary_reference.mp hg
        exact ⟨[.symbol .atSign, .name f], rfl, fun rest' _ =>
          gives_primary_reference.mpr ⟨f, rfl, rfl⟩⟩
    | application x ms =>
        obtain ⟨r, args, hr, hargs, rfl, hd⟩ := gives_primary_application.mp hg
        obtain ⟨r', hr', hagree⟩ := h r hr
        obtain ⟨front, rfl, hfront⟩ := hagree.arguments.gives hargs
        exact ⟨.name x :: .symbol .openParen :: front, rfl, fun rest' hhead =>
          gives_primary_application.mpr ⟨r', args, hr', hfront rest' hhead, rfl, hd.trans hl⟩⟩
    | var x hms =>
        obtain ⟨rfl, rfl⟩ := (gives_primary_variable hms).mp hg
        exact ⟨[.name x], rfl, fun rest' hhead =>
          (gives_primary_variable (hms.of_head? hhead)).mpr ⟨rfl, rfl⟩⟩
    | other hno => exact absurd ((refuses_primary_other hno).mpr rfl) (hg.not_refuses _)
  expects {ls what place} he := by
    cases primaryFront ls with
    | parens ms =>
        rcases refuses_primary_parens.mp he with ⟨-, e⟩ | ⟨r, hr, he⟩
        · cases e
        obtain ⟨r', hr', hagree⟩ := h r hr
        exact (hagree.inParens.expects he).cons fun _ _ h =>
          refuses_primary_parens.mpr (.inr ⟨r', hr', h⟩)
    | reference ms =>
        exact ((agrees_accept ..).expects (refuses_primary_reference.mp he)).cons fun _ _ h =>
          refuses_primary_reference.mpr h
    | application x ms =>
        rcases refuses_primary_application.mp he with ⟨-, e⟩ | ⟨r, hr, he | ⟨_, _, -, -, e⟩⟩
        · cases e
        · obtain ⟨r', hr', hagree⟩ := h r hr
          obtain ⟨front, rfl, hfront⟩ := hagree.arguments.expects he
          exact ⟨.name x :: .symbol .openParen :: front, rfl, fun rest' hhead =>
            refuses_primary_application.mpr (.inr ⟨r', hr', .inl (hfront rest' hhead)⟩)⟩
        · cases e
    | var x hms => exact absurd he (not_refuses_primary_var hms)
    | other hno =>
        cases (refuses_primary_other hno).mp he
        exact .here fun ls' hhead => (refuses_primary_other (hhead ▸ hno)).mpr rfl

/-- Negated operands agree under a higher limit. -/
theorem Agrees.negated {r r' : Reader Operand} (h : r.Agrees r') (hl : limit ≤ limit') :
    (negated limit r).Agrees (negated limit' r') where
  gives {ls o rest} hg := by
    obtain ⟨negs, ms, rfl, hnegs, hms⟩ := exists_negations_append ls
    obtain ⟨hn, p, hp, rfl, hd⟩ := (gives_negated_append hnegs hms).mp hg
    exact (h.gives hp).append negs fun ms' _ hhead hp' =>
      (gives_negated_append hnegs (hhead ▸ hms)).mpr
        ⟨hn.trans_le hl, p, hp', rfl, hd.trans hl⟩
  expects {ls what place} he := by
    obtain ⟨negs, ms, rfl, hnegs, hms⟩ := exists_negations_append ls
    rcases (refuses_negated_append hnegs hms).mp he with ⟨-, e⟩ | ⟨hn, he | ⟨_, _, -, -, e⟩⟩
    · cases e
    · exact (h.expects he).append negs fun ms' _ hhead he' =>
        (refuses_negated_append hnegs (hhead ▸ hms)).mpr (.inr ⟨hn.trans_le hl, .inl he'⟩)
    · cases e

/-- Links are pushed alike, however the lexemes go on behind the next one. -/
theorem Agrees.linksGive {r r' : Reader Operand} (h : r.Agrees r') {s g : Stacks}
    {ls rest : List Lexeme} (hk : LinksGive r s ls g rest) :
    Locally (LinksGive r' s · g ·) ls rest := by
  induction hn : ls.length using Nat.strong_induction_on generalizing ls s with
  | _ n ih =>
      rcases hk.ends_or_begins with ⟨rfl, rfl, hends⟩ | ⟨l, c, ms, o, ns, rfl, hl, hr, hk⟩
      · exact .here fun ls' hhead => linksGive_of_ends (hhead ▸ hends)
      · have hlt := hr.shorter
        have hlinks := ih _ (by simp at hn; omega) hk rfl
        exact (h.gives hr).cons_trans hlinks fun _ ns' _ h₁ h₂ =>
          (linksGive_cons_iff hl).mpr ⟨o, ns', h₁, h₂⟩

/-- What links expect they expect at the same place. -/
theorem Agrees.links_eq_error {r r' : Reader Operand} (h : r.Agrees r') {s : Stacks}
    {ls place : List Lexeme} {what : Expectation}
    (he : links r s ls = .error (.expected what place)) :
    Locally (fun ls place => links r' s ls = .error (.expected what place)) ls place := by
  induction hn : ls.length using Nat.strong_induction_on generalizing ls s with
  | _ n ih =>
      obtain ⟨l, c, ms, rfl, hl, he | ⟨o, ns, ho, he⟩⟩ := Reader.links_eq_error.mp he
      · exact (h.expects he).cons fun ms' _ h =>
          Reader.links_eq_error.mpr ⟨l, c, ms', rfl, hl, .inl h⟩
      · have hlt := ho.shorter
        have hlinks := ih _ (by simp at hn; omega) he rfl
        exact (h.gives ho).cons_trans hlinks fun ms' ns' _ h₁ h₂ =>
          Reader.links_eq_error.mpr ⟨l, c, ms', rfl, hl, .inr ⟨o, ns', h₁, h₂⟩⟩

/-- Groups agree under a higher limit, as no depth within the lower one is above the higher one. -/
theorem Agrees.grouped {n : Nat} {r r' : Reader Operand} (h : r.Agrees r') (hl : limit ≤ limit')
    (hr : r.Reads (OperandForm limit 5 n) EndsPrimary) :
    (grouped limit r).Agrees (grouped limit' r') where
  gives hg := by
    obtain ⟨p, ms, g, os, hp, hk, hc, hd⟩ := gives_grouped.mp hg
    exact (h.gives hp).trans (h.linksGive hk) fun _ ms' _ h₁ h₂ =>
      gives_grouped.mpr ⟨p, ms', g, os, h₁, h₂, hc, hd.trans hl⟩
  expects he := by
    rcases refuses_grouped.mp he with
      he | ⟨p, ms, hp, he | ⟨g, rest, hk, ⟨hc, -⟩ | ⟨_, _, -, -, e⟩⟩⟩
    · exact (h.expects he).imp fun _ _ _ _ h => refuses_grouped.mpr (.inl h)
    · exact (h.gives hp).trans (h.links_eq_error he) fun _ ms' _ h₁ h₂ =>
        refuses_grouped.mpr (.inr ⟨p, ms', h₁, .inl h₂⟩)
    · obtain ⟨_, _, -, -, hc'⟩ := hk.exists_collapse hr hp
      rw [hc'] at hc
      cases hc
    · cases e

/-- **A chain reader agrees with itself under higher limits.** -/
theorem agrees_chain (hl : limit ≤ limit') {n n' : Nat} (hn : n ≤ n') :
    (chain limit n).Agrees (chain limit' n') := by
  -- On the nesting: what stands in parentheses is read with one less.
  induction n using Nat.strong_induction_on generalizing n' with
  | _ n ih =>
      have hreads := reads_negated fun hpos => reads_primary hpos fun m (_ : m < n) =>
        reads_chain limit m
      have hprimary : (primary limit (inner limit n)).Agrees (primary limit' (inner limit' n')) :=
        agrees_primary hl fun r hr => by
          obtain ⟨m, rfl, rfl⟩ := inner_eq_some.mp hr
          obtain ⟨m', rfl⟩ := Nat.exists_eq_succ_of_ne_zero (show n' ≠ 0 by omega)
          exact ⟨_, rfl, ih m (Nat.lt_succ_self m) (by omega)⟩
      rw [chain_eq, chain_eq]
      exact (hprimary.negated hl).grouped hl hreads

theorem agrees_expression (hl : limit ≤ limit') :
    (expression limit).Agrees (expression limit') := (agrees_chain hl hl).map _

end Expressions

/-! ### Statements -/

section Statements

theorem agrees_name (what : Expectation) : (name what).Agrees (name what) := agrees_accept what _

theorem agrees_truthValue : truthValue.Agrees truthValue := agrees_accept ..

theorem agrees_image : image.Agrees image := (agrees_symbol ..).bind fun _ => agrees_truthValue

theorem agrees_assignment : assignment.Agrees assignment :=
  (agrees_name _).bind fun _ => (agrees_symbol ..).bind fun _ => agrees_truthValue.map _

theorem agrees_patternEntry : patternEntry.Agrees patternEntry :=
  ((agrees_accept ..).parenthesized _).bind fun _ => agrees_image.map _

theorem agrees_otherwiseEntry : otherwiseEntry.Agrees otherwiseEntry :=
  (agrees_accept ..).bind fun _ => agrees_image.map _

/-- The first lexeme tells which kind of entry to read. -/
theorem agrees_entry : entry.Agrees entry := by
  refine .choice (· = some (.keyword .otherwise)) agrees_otherwiseEntry agrees_patternEntry
    (fun ls hls => ?_) fun ls hls => ?_
  · obtain ⟨ms, rfl⟩ := List.head?_eq_some_iff.mp hls
    exact ⟨rfl, rfl⟩
  · have he : entry ls = patternEntry ls := entry_eq_patternEntry fun ms e => hls (by rw [e]; rfl)
    exact ⟨he, he⟩

theorem agrees_operator : operator.Agrees operator :=
  (agrees_name _).bind fun _ => ((agrees_name _).parenthesized _).bind fun _ =>
    (agrees_symbol ..).bind fun _ => agrees_entry.braced.map _

/-- What a name and an equals sign stand in front of. -/
theorem Agrees.named {α : Type} {part part' : Reader α} (h : part.Agrees part')
    (what : Expectation) (f : String → α → Statement) :
    (name what >>= fun n => equals >>= fun _ => f n <$> part).Agrees
      (name what >>= fun n => equals >>= fun _ => f n <$> part') :=
  (agrees_name _).bind fun n => (agrees_symbol ..).bind fun _ => h.map (f n)

variable {limit limit' : Nat}

/-- Definitions agree under a higher limit, which counts for a formula alone. -/
theorem agrees_definition (hl : limit ≤ limit') (k : DefinitionKind) :
    (definition limit k).Agrees (definition limit' k) := by
  cases k with
  | vars => exact (agrees_name _).separated.map _
  | formula => exact (agrees_expression hl).named ..
  | valuation => exact agrees_assignment.braced.named ..
  | operator => exact agrees_operator.map _
  | opset => exact (agrees_accept ..).braced.named ..

theorem agrees_action (hl : limit ≤ limit') (v : StatementVerb) :
    (action limit v).Agrees (action limit' v) := by
  cases v with
  | define => exact (agrees_accept ..).bind fun k => agrees_definition hl k
  | evaluate =>
      exact (agrees_name _).bind fun _ => (agrees_accept ..).bind fun _ => (agrees_name _).map _
  | adequate => exact (agrees_name _).map _

/-- **A statement reader agrees with itself under a higher limit.** -/
theorem agrees_statement (hl : limit ≤ limit') :
    (statement limit).Agrees (statement limit') :=
  ((agrees_accept ..).bind fun v => agrees_action hl v).followedBy (agrees_symbol ..)

end Statements

end Reader

/-! ### Programs -/

/-- **Where a program runs into something unexpected**, it does under a higher limit too, and
whatever else comes behind the unexpected lexeme. -/
theorem readProgram_agrees {limit limit' : Nat} (hl : limit ≤ limit') {ls place : List Lexeme}
    {what : Expectation} (h : (readProgram limit ls).refusal? = some (.expected what place)) :
    Locally (fun ls place => (readProgram limit' ls).refusal? = some (.expected what place))
      ls place := by
  induction hn : ls.length using Nat.strong_induction_on generalizing ls with
  | _ n ih =>
      have hagree := Reader.agrees_statement hl
      have hne : ∀ {ls' : List Lexeme}, ls'.head? = ls.head? → ls' ≠ [] := by
        rintro _ hhead rfl
        exact (readProgram_refusal?_eq_some.mp h).1 (List.head?_eq_none_iff.mp hhead.symm)
      obtain ⟨-, he | ⟨st, rest, hst, he⟩⟩ := readProgram_refusal?_eq_some.mp h
      · exact (hagree.expects he).imp fun ls' _ hhead _ h =>
          readProgram_refusal?_eq_some.mpr ⟨hne hhead, .inl h⟩
      · have hrest := ih _ (hn ▸ hst.shorter) he rfl
        have hls : Locally (fun ls place => ∃ st rest, (Reader.statement limit').Gives ls st rest ∧
            (readProgram limit' rest).refusal? = some (.expected what place)) ls place :=
          (hagree.gives hst).trans hrest fun _ rest' _ h₁ h₂ => ⟨st, rest', h₁, h₂⟩
        exact hls.imp fun ls' _ hhead _ h =>
          readProgram_refusal?_eq_some.mpr ⟨hne hhead, .inr h⟩

end PropBench
