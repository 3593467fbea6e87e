import PropBench.Proofs.Grammar.Refusal

/-!
# Proofs — Viability — Reader

What stands in front of a refusal begins something of the grammar, and so it does with any lexeme
behind that the refusal speaks of.  The grammar here is the one without limits, so that this holds
for what is too deep as well.

* `Opens F ls`: `ls` begins something that `F` relates.
* `Expectation.Describes`: the lexemes that an expectation speaks of.
* `Refusal.Within F ls`: the refusal has read lexemes of `ls` that open `F`.
* `r.Advances F`: each refusal of `r` is of that kind.  One lemma for each way to make a reader.
-/

namespace PropBench

/-- The lexemes begin something that `F` relates. -/
def Opens {α : Type} (F : List Lexeme → α → Prop) (ls : List Lexeme) : Prop :=
  ∃ tail a, F (ls ++ tail) a

/-- The lexemes that the words for an expectation speak of. -/
def Expectation.Describes : Expectation → Lexeme → Prop
  | .statement, l => ∃ v : StatementVerb, l = .keyword v.keyword
  | .definition, l => ∃ k : DefinitionKind, l = .keyword k.keyword
  | .variableName, l | .formulaName, l | .valuationName, l | .operatorName, l | .opsetName, l
  | .parameterName, l => ∃ n, l = .name n
  | .under, l => l = .keyword .under
  | .equals, l => l = .symbol .equals
  | .colon, l => l = .symbol .colon
  | .semicolon, l => l = .symbol .semicolon
  | .arrow, l => l = .symbol .arrow
  | .openBrace, l => l = .symbol .openBrace
  | .openParen, l => l = .symbol .openParen
  | .closeParen, l => l = .symbol .closeParen
  | .commaOrBrace, l => l = .symbol .comma ∨ l = .symbol .closeBrace
  | .commaOrParen, l => l = .symbol .comma ∨ l = .symbol .closeParen
  | .entry, l => l = .symbol .openParen ∨ l = .keyword .otherwise
  | .cell, l => ∃ c, l.IsCell c
  | .truthValue, l => ∃ b, l.Denotes b
  | .expression, l => Reader.BeginsPrimary l ∨ l.Negates

/-- Something is expected wherever something is missed. -/
theorem Expectation.exists_describes (what : Expectation) : ∃ l, what.Describes l := by
  cases what with
  | statement => exact ⟨_, .define, rfl⟩
  | definition => exact ⟨_, .vars, rfl⟩
  | variableName | formulaName | valuationName | operatorName | opsetName | parameterName =>
      exact ⟨_, "a", rfl⟩
  | commaOrBrace | commaOrParen | entry => exact ⟨_, .inl rfl⟩
  | cell => exact ⟨_, _, .blank⟩
  | truthValue => exact ⟨_, _, .truth⟩
  | expression => exact ⟨_, .inr .bang⟩
  | _ => exact ⟨_, rfl⟩

/-- The lexemes still to come. -/
def Refusal.left : Refusal → List Lexeme
  | .expected _ place => place
  | .tooDeep _ unread _ => unread

/-- The lexemes from the place of a refusal on. -/
def Refusal.place : Refusal → List Lexeme
  | .expected _ place => place
  | .tooDeep place _ _ => place

/-- The refusal of `ls` has read lexemes that open `F`, and those expected would go on so. -/
def Refusal.Within {α : Type} (F : List Lexeme → α → Prop) (ls : List Lexeme) : Refusal → Prop
  | .expected what place =>
      ∃ front, ls = front ++ place ∧ ∀ l, what.Describes l → Opens F (front ++ [l])
  | .tooDeep place unread _ => place <:+ ls ∧ ∃ front, ls = front ++ unread ∧ Opens F front

section

variable {α β : Type} {F G : List Lexeme → α → Prop} {H : List Lexeme → β → Prop}
  {ls ms : List Lexeme} {e : Refusal}

/-- What begins a beginning is a beginning. -/
theorem Opens.of_append (h : Opens F (ls ++ ms)) : Opens F ls := by
  obtain ⟨tail, a, h⟩ := h
  exact ⟨ms ++ tail, a, by rwa [← List.append_assoc]⟩

theorem opens_of_form {a : α} (h : F ls a) : Opens F ls := ⟨[], a, by rwa [List.append_nil]⟩

/-- A refusal comes when what was read could still go on. -/
theorem Refusal.Within.opens (h : e.Within F ls) :
    ∃ front, ls = front ++ e.left ∧ Opens F front := by
  cases e with
  | expected what place =>
      obtain ⟨front, rfl, h⟩ := h
      obtain ⟨l, hl⟩ := what.exists_describes
      exact ⟨front, rfl, (h l hl).of_append⟩
  | tooDeep place unread looked => exact h.2

/-- The place of a refusal is ahead of what was read, or in it. -/
theorem Refusal.Within.place_suffix (h : e.Within F ls) : e.place <:+ ls := by
  cases e with
  | expected what place =>
      obtain ⟨front, rfl, -⟩ := h
      exact List.suffix_append front place
  | tooDeep place unread looked => exact h.1

/-- What is refused behind other lexemes, where what opens `F` opens `H` behind those. -/
theorem Refusal.Within.lift (front : List Lexeme) (h : e.Within F ms)
    (hFH : ∀ ls, Opens F ls → Opens H (front ++ ls)) : e.Within H (front ++ ms) := by
  cases e with
  | expected what place =>
      obtain ⟨tail, rfl, h⟩ := h
      refine ⟨front ++ tail, by simp, fun l hl => ?_⟩
      rw [List.append_assoc]
      exact hFH _ (h l hl)
  | tooDeep place unread looked =>
      obtain ⟨hplace, tail, rfl, h⟩ := h
      exact ⟨hplace.trans (List.suffix_append _ _), front ++ tail, by simp, hFH _ h⟩

theorem Refusal.Within.lift_cons (l : Lexeme) (h : e.Within F ms)
    (hFH : ∀ ls, Opens F ls → Opens H (l :: ls)) : e.Within H (l :: ms) := h.lift [l] hFH

theorem Refusal.Within.imp (h : e.Within F ls) (hFH : ∀ ls, Opens F ls → Opens H ls) :
    e.Within H ls := h.lift [] hFH

end

namespace Reader

variable {α β : Type} {r item : Reader α} {F G : List Lexeme → α → Prop}
  {H : List Lexeme → β → Prop} {Follow : List Lexeme → Prop}

/-- What the reader has read when it refuses opens `F`. -/
def Advances (r : Reader α) (F : List Lexeme → β → Prop) : Prop :=
  ∀ ls e, r.Refuses ls e → e.Within F ls

/-! ### Ways to make a reader -/

/-- Something can be read, so the empty list opens `F`. -/
theorem Advances.opens_nil (h : r.Advances H) : Opens H [] := by
  obtain ⟨e, he⟩ := r.exists_refuses_nil
  obtain ⟨front, hfront, hopens⟩ := (h [] e he).opens
  rwa [(List.append_eq_nil_iff.mp hfront.symm).1] at hopens

/-- A lexeme that is missed would have been read. -/
theorem advances_accept {what : Expectation} {f : Lexeme → Option α}
    (h : ∀ l, what.Describes l → ∃ b, H [l] b) : (accept what f).Advances H := by
  intro ls e he
  obtain ⟨rfl, -⟩ := refuses_accept.mp he
  refine ⟨[], rfl, fun l hl => ?_⟩
  obtain ⟨b, hb⟩ := h l hl
  exact opens_of_form hb

theorem Advances.map (h : r.Advances F) (f : α → β) (hH : ∀ ls a, F ls a → H ls (f a)) :
    (f <$> r).Advances H := by
  intro ls e he
  refine (h ls e (refuses_map.mp he)).imp ?_
  rintro ms ⟨tail, a, hF⟩
  exact ⟨tail, f a, hH _ _ hF⟩

/-- The second reader goes on with what the first one has taken. -/
theorem Advances.andThen {γ : Type} (h : r.Advances H) (hs : r.Sound F) {f : α → Reader γ}
    (hf : ∀ front a, F front a → (f a).Advances fun tail b => H (front ++ tail) b) :
    (r >>= f).Advances H := by
  intro ls e hr
  rcases refuses_bind.mp hr with he | ⟨a, ms, ha, he⟩
  · exact h ls e he
  · obtain ⟨front, rfl, hF⟩ := hs ha
    refine (hf front a hF ms e he).lift front ?_
    rintro tail ⟨tail', b, hH⟩
    exact ⟨tail', b, by rwa [List.append_assoc]⟩

/-- The second reader goes on with what the first has read. -/
theorem Advances.bind (h : r.Advances F) (hs : r.Sound F) {f : α → Reader β}
    (hf : ∀ front a, F front a → (f a).Advances fun tail b => H (front ++ tail) b) :
    (r >>= f).Advances H := by
  refine Advances.andThen (fun ls e he => (h ls e he).imp ?_) hs hf
  rintro front ⟨tail, a, hF⟩
  obtain ⟨tail', b, hH⟩ := (hf _ a hF).opens_nil
  exact ⟨tail ++ tail', b, by simpa using hH⟩

theorem Advances.followedBy {γ : Type} {K : List Lexeme → γ → Prop} (h : r.Advances F)
    (hs : r.Sound F) {t : Reader γ} (ht : t.Advances K) {H : List Lexeme → α → Prop}
    (hH : ∀ front a tail c, F front a → K tail c → H (front ++ tail) a) :
    (followedBy r t).Advances H :=
  h.bind hs fun front a hF => ht.map _ fun tail c hK => hH front a tail c hF hK

/-! ### One lexeme and more -/

theorem advances_accept_bind {what : Expectation} {f : Lexeme → Option α} {g : α → Reader β}
    (h : ∀ l, what.Describes l → ∃ a, f l = some a)
    (hg : ∀ l a, f l = some a → (g a).Advances fun tail b => H (l :: tail) b) :
    (accept what f >>= g).Advances H := by
  have hone : (accept what f).Advances (Single fun l a => f l = some a) :=
    advances_accept fun l hl => (h l hl).imp fun a ha => .mk ha
  refine hone.bind (sound_accept fun h => h) ?_
  rintro _ a ⟨hl⟩
  exact hg _ a hl

theorem advances_symbol_bind {s : Symbol} {what : Expectation} {g : Unit → Reader β}
    (h : ∀ l, what.Describes l → l = .symbol s)
    (hg : (g ()).Advances fun tail b => H (.symbol s :: tail) b) :
    (symbol s what >>= g).Advances H := by
  refine advances_accept_bind (fun l hl => ⟨(), if_pos (h l hl)⟩) fun l _ hl => ?_
  split at hl
  · next e => rw [e]; exact hg
  · cases hl

theorem advances_keyword_bind {k : Keyword} {what : Expectation} {g : Unit → Reader β}
    (h : ∀ l, what.Describes l → l = .keyword k)
    (hg : (g ()).Advances fun tail b => H (.keyword k :: tail) b) :
    (keyword k what >>= g).Advances H := by
  refine advances_accept_bind (fun l hl => ⟨(), if_pos (h l hl)⟩) fun l _ hl => ?_
  split at hl
  · next e => rw [e]; exact hg
  · cases hl

theorem advances_name_bind {what : Expectation} {g : String → Reader β}
    (h : ∀ l, what.Describes l → ∃ n, l = .name n)
    (hg : ∀ n, (g n).Advances fun tail b => H (.name n :: tail) b) :
    (name what >>= g).Advances H := by
  refine advances_accept_bind (fun l hl => ?_) fun l n hl => ?_
  · obtain ⟨n, rfl⟩ := h l hl
    exact ⟨n, rfl⟩
  · cases l <;> cases hl
    exact hg n

theorem advances_name (what : Expectation) (h : ∀ l, what.Describes l → ∃ n, l = .name n) :
    (name what).Advances (Single Lexeme.IsName) :=
  advances_accept fun l hl => by
    obtain ⟨n, rfl⟩ := h l hl
    exact ⟨n, .mk (.mk n)⟩

theorem advances_symbol {s : Symbol} {what : Expectation}
    (h : ∀ l, what.Describes l → l = .symbol s) :
    (symbol s what).Advances fun ls (_ : Unit) => ls = [.symbol s] :=
  advances_accept fun l hl => ⟨(), by rw [h l hl]⟩

/-! ### Lists -/

/-- A list may always go on with the item that is missed. -/
theorem advances_separated (h : item.Advances F) (hs : item.Sound F) :
    Advances (separated item) fun ls as => Listed F ls as ∧ as ≠ [] := by
  intro ls e hr
  -- On the length: the items behind a comma stand in what the first one leaves.
  induction hn : ls.length using Nat.strong_induction_on generalizing ls with
  | _ n ih =>
      rcases refuses_separated.mp hr with he | ⟨a, ms, ha, he⟩
      · refine (h ls e he).imp ?_
        rintro front ⟨tail, a, hF⟩
        exact ⟨tail, [a], .single hF, by simp⟩
      · obtain ⟨front, rfl, hF⟩ := hs ha
        have hms := ih _ (by simp [← hn]; omega) ms he rfl
        rw [show front ++ .symbol .comma :: ms = front ++ [.symbol .comma] ++ ms by simp]
        refine hms.lift _ ?_
        rintro ls ⟨tail, as, hL, hne⟩
        exact ⟨tail, a :: as, by simpa using hL.cons hF hne, by simp⟩

/-- A closed list may go on with a comma, or with the symbol that closes it. -/
theorem Advances.closed (h : item.Advances F) (hs : item.Sound F) {close : Symbol}
    {what : Expectation}
    (hwhat : ∀ l, what.Describes l → l = .symbol .comma ∨ l = .symbol close) :
    (closed item close what).Advances fun ls as =>
      ∃ ms, ls = ms ++ [.symbol close] ∧ Listed F ms as := by
  intro ls e hr
  obtain ⟨-, he | ⟨as, ms, has, he⟩⟩ := refuses_closed.mp hr
  · refine (advances_separated h hs ls e he).imp ?_
    rintro front ⟨tail, as, hL, -⟩
    exact ⟨tail ++ [.symbol close], as, front ++ tail, by simp, hL⟩
  · obtain ⟨front, rfl, hL, hne⟩ := sound_separated hs has
    obtain ⟨rfl, -⟩ := refuses_symbol.mp he
    refine ⟨front, rfl, fun l hl => ?_⟩
    rcases hwhat l hl with rfl | rfl
    · -- There are items, so that another one can follow.
      obtain ⟨tail, a, hF⟩ := h.opens_nil
      exact ⟨tail ++ [.symbol close], as ++ [a], _, by simp, hL.snoc hF hne⟩
    · exact opens_of_form ⟨front, rfl, hL⟩

/-- A list in brackets, the words for what may follow an item being the right ones. -/
theorem Advances.bracketed (h : item.Advances F) (hs : item.Sound F) {opening close : Symbol}
    {what what' : Expectation} (hopen : ∀ l, what.Describes l → l = .symbol opening)
    (hwhat : ∀ l, what'.Describes l → l = .symbol .comma ∨ l = .symbol close) :
    (symbol opening what >>= fun _ => Reader.closed item close what').Advances
      (Bracketed opening close F) := by
  refine advances_symbol_bind hopen ?_
  intro ls e he
  refine (h.closed hs hwhat ls e he).imp ?_
  rintro front ⟨tail, as, ms, hms, hL⟩
  exact ⟨tail, as, ms, by rw [hms], hL⟩

end Reader

end PropBench
