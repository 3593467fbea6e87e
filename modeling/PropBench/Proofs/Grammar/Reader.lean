import PropBench.Grammar.Reader
import PropBench.Proofs.Except
import PropBench.Proofs.Grammar.Derivation

/-!
# Proofs — Grammar — Reader

What readers take, without the proofs that they take something.  `r.Gives ls a rest` says that `r`
takes the value `a` off `ls` and leaves `rest`.

* One equivalence for each way to make a reader (`gives_bind`, `gives_accept` and so on).
* `Reads r F Follow`: what `r` takes is related by `F` to its value, and `r` takes all that `F`
  relates, where what `Follow` allows comes behind it.
* `Reads.separated`, `Reads.closed`: a reader of items makes readers of lists.
-/

namespace PropBench

namespace Reader

variable {α β : Type}

/-- The reader takes `a` off the front of `ls` and leaves `rest`. -/
def Gives (r : Reader α) (ls : List Lexeme) (a : α) (rest : List Lexeme) : Prop :=
  ∃ t, r ls = .ok t ∧ t.value = a ∧ t.rest = rest

theorem Gives.shorter {r : Reader α} {ls : List Lexeme} {a : α} {rest : List Lexeme}
    (h : r.Gives ls a rest) : rest.length < ls.length := by
  obtain ⟨t, -, -, rfl⟩ := h; exact t.shorter

/-- A reader that changes its value takes the same lexemes. -/
theorem gives_map {r : Reader α} {f : α → β} {ls : List Lexeme} {b : β} {rest : List Lexeme} :
    (f <$> r).Gives ls b rest ↔ ∃ a, r.Gives ls a rest ∧ f a = b := by
  constructor
  · rintro ⟨t, ht, rfl, rfl⟩
    obtain ⟨u, hu, rfl⟩ := Except.map_eq_ok.mp ht
    exact ⟨u.value, ⟨u, hu, rfl, rfl⟩, rfl⟩
  · rintro ⟨a, ⟨u, hu, rfl, rfl⟩, rfl⟩
    exact ⟨u.map f, Except.map_eq_ok.mpr ⟨u, hu, rfl⟩, rfl, rfl⟩

/-- The second reader goes on where the first stops. -/
theorem gives_bind {r : Reader α} {f : α → Reader β} {ls : List Lexeme} {b : β}
    {rest : List Lexeme} :
    (r >>= f).Gives ls b rest ↔ ∃ a ms, r.Gives ls a ms ∧ (f a).Gives ms b rest := by
  have e : r >>= f = Reader.bind r f := rfl
  rw [e]
  constructor
  · rintro ⟨t, ht, rfl, rfl⟩
    unfold Reader.bind at ht
    split at ht
    · cases ht
    · next u hu =>
        obtain ⟨w, hw, rfl⟩ := Except.map_eq_ok.mp ht
        exact ⟨u.value, u.rest, ⟨u, hu, rfl, rfl⟩, w, hw, rfl, rfl⟩
  · rintro ⟨a, ms, ⟨u, hu, rfl, rfl⟩, w, hw, rfl, rfl⟩
    refine ⟨w.after u.shorter, ?_, rfl, rfl⟩
    rw [Reader.bind, hu]
    exact Except.map_eq_ok.mpr ⟨w, hw, rfl⟩

/-- The second value is dropped, but not its lexemes. -/
theorem gives_followedBy {r : Reader α} {s : Reader β} {ls : List Lexeme} {a : α}
    {rest : List Lexeme} :
    (followedBy r s).Gives ls a rest ↔ ∃ ms b, r.Gives ls a ms ∧ s.Gives ms b rest := by
  rw [followedBy, gives_bind]
  simp only [gives_map]
  constructor
  · rintro ⟨a', ms, hr, b, hs, rfl⟩; exact ⟨ms, b, hr, hs⟩
  · rintro ⟨ms, b, hr, hs⟩; exact ⟨a, ms, hr, b, hs, rfl⟩

/-- One lexeme is taken, and `f` gives its value. -/
theorem gives_accept {what : Expectation} {f : Lexeme → Option α} {ls : List Lexeme} {a : α}
    {rest : List Lexeme} :
    (accept what f).Gives ls a rest ↔ ∃ l, ls = l :: rest ∧ f l = some a := by
  constructor
  · rintro ⟨t, ht, rfl, rfl⟩
    unfold accept at ht
    split at ht
    · cases ht
    · next l ms =>
        split at ht
        · next a ha => cases ht; exact ⟨l, rfl, ha⟩
        · cases ht
  · rintro ⟨l, rfl, ha⟩
    exact ⟨.one a l rest, by rw [accept, ha], rfl, rfl⟩

theorem gives_symbol {s : Symbol} {what : Expectation} {ls : List Lexeme} {u : Unit}
    {rest : List Lexeme} : (symbol s what).Gives ls u rest ↔ ls = .symbol s :: rest := by
  rw [symbol, gives_accept]
  constructor
  · rintro ⟨l, rfl, h⟩
    split at h
    · next e => rw [e]
    · cases h
  · rintro rfl; exact ⟨_, rfl, if_pos rfl⟩

theorem gives_keyword {k : Keyword} {what : Expectation} {ls : List Lexeme} {u : Unit}
    {rest : List Lexeme} : (keyword k what).Gives ls u rest ↔ ls = .keyword k :: rest := by
  rw [keyword, gives_accept]
  constructor
  · rintro ⟨l, rfl, h⟩
    split at h
    · next e => rw [e]
    · cases h
  · rintro rfl; exact ⟨_, rfl, if_pos rfl⟩

theorem gives_name {what : Expectation} {ls : List Lexeme} {n : String} {rest : List Lexeme} :
    (name what).Gives ls n rest ↔ ls = .name n :: rest := by
  rw [name, gives_accept]
  constructor
  · rintro ⟨l, rfl, h⟩
    cases l <;> cases h; rfl
  · rintro rfl; exact ⟨_, rfl, rfl⟩

/-- A list goes on as long as a comma follows. -/
theorem gives_separated {item : Reader α} {ls : List Lexeme} {as : List α} {rest : List Lexeme} :
    Gives (separated item) ls as rest ↔
      (∃ a ms bs, item.Gives ls a (.symbol .comma :: ms) ∧ Gives (separated item) ms bs rest ∧
        as = a :: bs) ∨
      ∃ a, item.Gives ls a rest ∧ as = [a] ∧ ∀ ms, rest ≠ .symbol .comma :: ms := by
  constructor
  · rintro ⟨t, ht, rfl, rfl⟩
    unfold separated at ht
    split at ht
    · cases ht
    · next a ms h hu =>
        obtain ⟨w, hw, rfl⟩ := Except.map_eq_ok.mp ht
        exact .inl ⟨a, ms, w.value, ⟨_, hu, rfl, rfl⟩, ⟨w, hw, rfl, rfl⟩, rfl⟩
    · next u hno hu =>
        cases ht
        refine .inr ⟨u.value, ⟨u, hu, rfl, rfl⟩, rfl, fun ms e => ?_⟩
        obtain ⟨a, r, hs⟩ := u
        obtain rfl : r = .symbol .comma :: ms := e
        exact hno a ms hs rfl
  · rintro (⟨a, ms, bs, ⟨⟨_, _, hs⟩, hu, rfl, hms⟩, ⟨w, hw, rfl, rfl⟩, rfl⟩ |
      ⟨a, ⟨u, hu, rfl, rfl⟩, rfl, hno⟩)
    · cases hms
      refine ⟨(w.map (_ :: ·)).after (Nat.lt_of_succ_lt hs), ?_, rfl, rfl⟩
      rw [separated, hu]
      dsimp only
      rw [hw]
      rfl
    · refine ⟨u.map fun a => [a], ?_, rfl, rfl⟩
      rw [separated, hu]
      split
      · next h => cases h
      · next h => cases h; exact absurd rfl (hno _)
      · next h => cases h; rfl

/-! ### What a reader reads -/

/-- What the reader takes is related to its value. -/
abbrev Sound (r : Reader α) (F : List Lexeme → α → Prop) : Prop :=
  ∀ {ls a rest}, r.Gives ls a rest → ∃ front, ls = front ++ rest ∧ F front a

/-- What the reader takes is related to its value, and it takes all that is so related where
something that `Follow` allows comes behind. -/
structure Reads (r : Reader α) (F : List Lexeme → α → Prop) (Follow : List Lexeme → Prop) :
    Prop where
  sound : r.Sound F
  complete : ∀ {front a}, F front a → ∀ rest, Follow rest → r.Gives (front ++ rest) a rest

variable {r item : Reader α} {F : List Lexeme → α → Prop} {Follow : List Lexeme → Prop}

theorem sound_accept {what : Expectation} {f : Lexeme → Option α} {R : Lexeme → α → Prop}
    (hf : ∀ {l a}, f l = some a → R l a) : (accept what f).Sound (Single R) := by
  intro ls a rest h
  obtain ⟨l, rfl, hl⟩ := gives_accept.mp h
  exact ⟨[l], rfl, .mk (hf hl)⟩

theorem reads_accept {what : Expectation} {f : Lexeme → Option α} {R : Lexeme → α → Prop}
    (hf : ∀ {l a}, f l = some a ↔ R l a) : (accept what f).Reads (Single R) Follow where
  sound := sound_accept hf.mp
  complete h _ _ := by
    cases h with
    | mk hl => exact gives_accept.mpr ⟨_, rfl, hf.mpr hl⟩

theorem sound_name (what : Expectation) : (name what).Sound (Single Lexeme.IsName) := by
  intro ls n rest h
  obtain rfl := gives_name.mp h
  exact ⟨[_], rfl, .mk (.mk _)⟩

theorem reads_name (what : Expectation) : (name what).Reads (Single Lexeme.IsName) Follow where
  sound := sound_name what
  complete h _ _ := by
    obtain ⟨⟨n⟩⟩ := h
    exact gives_name.mpr rfl

/-- A list read is a list of the grammar, and not an empty one. -/
theorem sound_separated (h : item.Sound F) :
    Sound (Reader.separated item) fun ls as => Listed F ls as ∧ as ≠ [] := by
  intro ls as rest hg
  -- On the length: the items behind a comma stand in what the first one leaves.
  induction hn : ls.length using Nat.strong_induction_on generalizing ls as with
  | _ n ih =>
      rcases gives_separated.mp hg with ⟨a, ms, bs, ha, hbs, rfl⟩ | ⟨a, ha, rfl, -⟩
      · obtain ⟨front, rfl, hF⟩ := h ha
        obtain ⟨tail, rfl, hL, hne⟩ := ih _ (by simp [← hn]; omega) hbs rfl
        exact ⟨front ++ .symbol .comma :: tail, by simp, hL.cons hF hne, by simp⟩
      · obtain ⟨front, rfl, hF⟩ := h ha
        exact ⟨front, rfl, .single hF, by simp⟩

/-- Lists are read as their items are, if an item ends at a comma. -/
theorem Reads.separated (h : item.Reads F Follow) (hcomma : ∀ ms, Follow (.symbol .comma :: ms)) :
    Reads (Reader.separated item) (fun ls as => Listed F ls as ∧ as ≠ [])
      fun ls => Follow ls ∧ ∀ ms, ls ≠ .symbol .comma :: ms where
  sound := sound_separated h.sound
  complete {front as} hL rest hrest := by
    obtain ⟨hL, hne⟩ := hL
    induction as generalizing front with
    | nil => exact absurd rfl hne
    | cons a as ih =>
        cases as with
        | nil =>
            exact gives_separated.mpr (.inr ⟨a, h.complete hL.of_single rest hrest.1, rfl, hrest.2⟩)
        | cons b bs =>
            obtain ⟨front, tail, rfl, hF, hL⟩ := hL.of_cons
            refine gives_separated.mpr (.inl ⟨a, tail ++ rest, b :: bs, ?_, ih hL (by simp), rfl⟩)
            have := h.complete hF _ (hcomma (tail ++ rest))
            simpa using this

/-- A list that is not closed at once has items. -/
theorem closed_eq_followedBy {close : Symbol} {what : Expectation} {ls : List Lexeme}
    (h : ∀ ms, ls ≠ .symbol close :: ms) :
    closed item close what ls =
      followedBy (Reader.separated item) (symbol close what) ls := by
  unfold closed
  split
  · next s ms =>
      have hs : s ≠ close := fun e => h ms (by rw [e])
      rw [if_neg hs]
  · rfl

/-- A closed list is empty, or a list up to its closing symbol that does not begin with it. -/
theorem gives_closed {close : Symbol} {what : Expectation} {ls : List Lexeme} {as : List α}
    {rest : List Lexeme} :
    (closed item close what).Gives ls as rest ↔
      (ls = .symbol close :: rest ∧ as = []) ∨
      ((∀ ms, ls ≠ .symbol close :: ms) ∧
        Gives (Reader.separated item) ls as (.symbol close :: rest)) := by
  have hlist : Gives (followedBy (Reader.separated item) (symbol close what)) ls as rest ↔
      Gives (Reader.separated item) ls as (.symbol close :: rest) := by
    refine gives_followedBy.trans ⟨?_, fun h => ⟨_, (), h, gives_symbol.mpr rfl⟩⟩
    rintro ⟨_, _, h, hs⟩; exact gives_symbol.mp hs ▸ h
  rw [← hlist]
  have hcons : ∀ ms, Gives (closed item close what) (.symbol close :: ms) as rest ↔
      ms = rest ∧ as = [] := fun ms => by
    rw [Gives, closed, if_pos rfl]
    constructor
    · rintro ⟨t, ht, ha, hr⟩
      cases ht; exact ⟨hr, ha.symm⟩
    · rintro ⟨hr, ha⟩; exact ⟨_, rfl, ha.symm, hr⟩
  by_cases hls : ∃ ms, ls = .symbol close :: ms
  · obtain ⟨ms, rfl⟩ := hls
    rw [hcons]
    simp
  · rw [Gives, closed_eq_followedBy fun ms e => hls ⟨ms, e⟩]
    exact ⟨fun h => .inr ⟨fun ms e => hls ⟨ms, e⟩, h⟩,
      fun h => h.elim (fun h => absurd ⟨_, h.1⟩ hls) (·.2)⟩

/-- A list up to its closing symbol, which begins no item. -/
theorem Reads.closed (h : item.Reads F Follow) {close : Symbol} {what : Expectation}
    (hcomma : ∀ ms, Follow (.symbol .comma :: ms)) (hclose : ∀ ms, Follow (.symbol close :: ms))
    (hne : close ≠ .comma) (hF : ∀ {ls a}, F ls a → ∀ rest ms, ls ++ rest ≠ .symbol close :: ms) :
    Reads (Reader.closed item close what)
      (fun ls as => ∃ ms, ls = ms ++ [.symbol close] ∧ Listed F ms as) fun _ => True where
  sound {ls as rest} hg := by
    rcases gives_closed.mp hg with ⟨rfl, rfl⟩ | ⟨-, hg⟩
    · exact ⟨[.symbol close], rfl, [], rfl, .nil⟩
    · obtain ⟨front, rfl, hL, -⟩ := (h.separated hcomma).sound hg
      exact ⟨front ++ [.symbol close], by simp, front, rfl, hL⟩
  complete {ls as} hL rest _ := by
    obtain ⟨ms, rfl, hL⟩ := hL
    rw [List.append_assoc]
    by_cases has : as = []
    · subst has
      exact gives_closed.mpr (.inl ⟨by rw [hL.of_nil]; rfl, rfl⟩)
    · refine gives_closed.mpr (.inr ⟨fun tail e => ?_, ?_⟩)
      · obtain ⟨a, as, rfl⟩ := List.exists_cons_of_ne_nil has
        cases as with
        | nil => exact hF hL.of_single _ tail e
        | cons b bs =>
            obtain ⟨front, rest', rfl, hfront, -⟩ := hL.of_cons
            rw [List.append_assoc] at e
            exact hF hfront _ tail e
      · refine (h.separated hcomma).complete ⟨hL, has⟩ _ ⟨hclose rest, fun tail e => ?_⟩
        exact hne (by injection e with e; injection e)

end Reader

end PropBench
