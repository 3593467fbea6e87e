import PropBench.Proofs.Grammar.Grouping
import PropBench.Proofs.Grammar.Reader

/-!
# Proofs — Grammar — Expression

The expression readers read their levels of the grammar (`reads_primary`, `reads_negated`,
`reads_grouped`), each for the nesting still allowed; by induction on that, `chain` reads the
expressions within the limits (`reads_chain`).

What comes behind an operand decides where it ends: a parenthesis behind a name makes it an
application, and a connective makes an operand the beginning of a chain.  So the readers are
complete only in front of lexemes that `EndsPrimary` or `EndsChain` allows.
-/

namespace PropBench

/-! ### Connectives -/

/-- The table of connectives gives the spellings of the grammar. -/
theorem Lexeme.binary?_eq_some {l : Lexeme} {c : Binary} : l.binary? = some c ↔ l.Signs c := by
  refine ⟨fun h => ?_, fun h => by cases h <;> rfl⟩
  unfold binary? at h
  split at h
  all_goals first | cases h; constructor | cases h

/-- The three spellings of a negation are those of the grammar. -/
theorem Lexeme.isNegation_iff {l : Lexeme} : l.isNegation = true ↔ l.Negates := by
  refine ⟨fun h => ?_, fun h => by cases h <;> rfl⟩
  unfold isNegation at h
  split at h
  all_goals first | constructor | cases h

/-! ### Operands -/

/-- The lexemes of an operand: an expression of a level that is at most `limit` deep. -/
def OperandForm (limit b n : Nat) (ls : List Lexeme) (o : Operand) : Prop :=
  ∃ e, o = .of e ∧ Derives b n ls e ∧ e.depth ≤ limit

theorem Expr.depthList_eq (es : List Expr) : depthList es = (es.map depth).foldr max 0 := by
  induction es with
  | nil => rfl
  | cons e es ih => rw [depthList, ih]; rfl

/-- No argument is deeper than the list it stands in. -/
theorem Expr.depth_le_depthList {e : Expr} {es : List Expr} (h : e ∈ es) :
    e.depth ≤ depthList es := by
  induction es with
  | nil => cases h
  | cons f es ih =>
      rw [depthList]
      rcases List.mem_cons.mp h with rfl | h
      · exact le_max_left _ _
      · exact (ih h).trans (le_max_right _ _)

theorem Expr.one_le_depth (e : Expr) : 1 ≤ e.depth := by
  cases e <;> simp [depth]

/-- Each negation adds one to the depth. -/
theorem Expr.depth_negate (n : Nat) (e : Expr) : (e.negate n).depth = e.depth + n := by
  induction n with
  | zero => rfl
  | succ n ih => rw [negate, depth, ih]; omega

theorem Operand.negate_of (n : Nat) (e : Expr) : (of e).negate n = of (e.negate n) := by
  rw [negate, of, of, Expr.depth_negate]

/-- Applying an operator to operands applies it to their expressions, its depth included. -/
theorem Operand.apply_of (o : String) (args : List Expr) :
    apply o (args.map of) = of (.apply o args) := by
  have e : (args.map of).map expr = args := by rw [List.map_map]; exact List.map_id _
  have d : (args.map of).map depth = args.map Expr.depth := by rw [List.map_map]; rfl
  rw [apply, e, d, ← Expr.depthList_eq]; rfl

/-- Operands of a list are the expressions of a list. -/
theorem listed_operandForm_iff {limit b n : Nat} {ls : List Lexeme} {os : List Operand} :
    Listed (OperandForm limit b n) ls os ↔
      ∃ es, os = es.map .of ∧ Listed (Derives b n) ls es ∧ ∀ e ∈ es, e.depth ≤ limit := by
  constructor
  · rintro ⟨parts, hF, rfl, rfl⟩
    have hp : ∀ p ∈ parts, p.2 = .of p.2.expr ∧ Derives b n p.1 p.2.expr ∧
        p.2.expr.depth ≤ limit := fun p hp => by
      obtain ⟨e, he, h⟩ := hF p hp
      rw [he]; exact ⟨rfl, h⟩
    refine ⟨parts.map fun p => p.2.expr, ?_, ⟨parts.map fun p => (p.1, p.2.expr), ?_, ?_, ?_⟩, ?_⟩
    · rw [List.map_map]; exact List.map_congr_left fun p h => (hp p h).1
    · exact List.forall_mem_map.mpr fun p h => (hp p h).2.1
    · rw [List.map_map]; rfl
    · rw [List.map_map]; rfl
    · exact List.forall_mem_map.mpr fun p h => (hp p h).2.2
  · rintro ⟨es, rfl, ⟨parts, hF, rfl, rfl⟩, hd⟩
    refine ⟨parts.map fun p => (p.1, .of p.2), ?_, ?_, ?_⟩
    · exact List.forall_mem_map.mpr fun p h =>
        ⟨p.2, rfl, hF p h, hd _ (List.mem_map_of_mem h)⟩
    · rw [List.map_map]; rfl
    · rw [List.map_map, List.map_map]; rfl

/-! ### What may stand behind -/

/-- The lexemes do not begin with an opening parenthesis. -/
def EndsPrimary (ls : List Lexeme) : Prop := ∀ ms, ls ≠ .symbol .openParen :: ms

/-- Nor do they begin with a binary connective. -/
def EndsChain (ls : List Lexeme) : Prop :=
  EndsPrimary ls ∧ ∀ l ∈ ls.head?, l.binary? = none

theorem endsPrimary_of_signs {l : Lexeme} {c : Binary} (h : l.Signs c) (ls : List Lexeme) :
    EndsPrimary (l :: ls) := by
  rintro ms e
  cases e; cases h

theorem endsChain_symbol {s : Symbol} (hs : s ≠ .openParen)
    (hb : (Lexeme.symbol s).binary? = none) (ls : List Lexeme) : EndsChain (.symbol s :: ls) := by
  refine ⟨fun ms e => ?_, by rintro l ⟨⟩; exact hb⟩
  cases e; exact hs rfl

namespace Reader

/-- The reader of what stands in parentheses, if any may. -/
def inner (limit : Nat) : Nat → Option (Reader Operand)
  | 0 => none
  | n + 1 => some (chain limit n)

theorem chain_eq (limit n : Nat) :
    chain limit n = grouped limit (negated limit (primary limit (inner limit n))) := by
  cases n <;> rfl

/-- There are chains one level in, as long as the nesting is not used up. -/
theorem inner_eq_some {limit n : Nat} {r : Reader Operand} :
    inner limit n = some r ↔ ∃ m, n = m + 1 ∧ r = chain limit m := by
  cases n with
  | zero => simp [inner]
  | succ n => simp [inner, eq_comm]

/-! ### Primaries -/

section Primary

variable {limit : Nat} {chain? : Option (Reader Operand)} {ms rest : List Lexeme} {o : Operand}

/-- What a parenthesis opens is a chain one level in. -/
theorem gives_primary_parens :
    (primary limit chain?).Gives (.symbol .openParen :: ms) o rest ↔
      ∃ r, chain? = some r ∧ r.Gives ms o (.symbol .closeParen :: rest) := by
  constructor
  · rintro ⟨t, ht, ho, hr⟩
    cases chain? with
    | none => cases ht
    | some r =>
        obtain ⟨u, hu, rfl⟩ := Except.map_eq_ok.mp ht
        obtain ⟨_, _, hg, hs⟩ := gives_followedBy.mp ⟨u, hu, ho, hr⟩
        exact ⟨r, rfl, gives_symbol.mp hs ▸ hg⟩
  · rintro ⟨r, rfl, hr⟩
    obtain ⟨u, hu, rfl, rfl⟩ : (inParens r).Gives ms o rest :=
      gives_followedBy.mpr ⟨_, (), hr, gives_symbol.mpr rfl⟩
    exact ⟨u.behind _, Except.map_eq_ok.mpr ⟨u, hu, rfl⟩, rfl, rfl⟩

/-- What an at sign opens is the name of a formula. -/
theorem gives_primary_reference :
    (primary limit chain?).Gives (.symbol .atSign :: ms) o rest ↔
      ∃ f, ms = .name f :: rest ∧ o = .of (.formula f) := by
  constructor
  · rintro ⟨t, ht, ho, hr⟩
    obtain ⟨u, hu, rfl⟩ := Except.map_eq_ok.mp ht
    exact ⟨u.value, gives_name.mp ⟨u, hu, rfl, hr⟩, ho.symm⟩
  · rintro ⟨f, hms, ho⟩
    obtain ⟨u, hu, rfl, hr⟩ : (name .formulaName).Gives ms f rest := gives_name.mpr hms
    exact ⟨_, Except.map_eq_ok.mpr ⟨u, hu, rfl⟩, ho.symm, hr⟩

/-- A name before a parenthesis is an application, of a depth within the limit. -/
theorem gives_primary_application {x : String} :
    (primary limit chain?).Gives (.name x :: .symbol .openParen :: ms) o rest ↔
      ∃ r args, chain? = some r ∧ (arguments r).Gives ms args rest ∧ o = .apply x args ∧
        o.depth ≤ limit := by
  constructor
  · rintro ⟨t, ht, ho, hr⟩
    cases chain? with
    | none => cases ht
    | some r =>
        rw [primary] at ht
        cases hu : arguments r ms with
        | error e => rw [hu] at ht; cases ht
        | ok u =>
            rw [hu] at ht
            by_cases hd : (Operand.apply x u.value).depth ≤ limit
            · obtain rfl := Except.ok.inj ((if_pos hd).symm.trans ht)
              exact ⟨r, u.value, rfl, ⟨u, hu, rfl, hr⟩, ho.symm, ho ▸ hd⟩
            · cases (if_neg hd).symm.trans ht
  · rintro ⟨r, args, rfl, ⟨u, hu, rfl, hr⟩, rfl, hd⟩
    exact ⟨_, by rw [primary, hu]; exact if_pos hd, rfl, hr⟩

/-- Any other name is a variable. -/
theorem gives_primary_variable {x : String} (hms : EndsPrimary ms) :
    (primary limit chain?).Gives (.name x :: ms) o rest ↔ ms = rest ∧ o = .of (.var x) := by
  have e : primary limit chain? (.name x :: ms) = .ok (.one (.leaf (.var x)) (.name x) ms) := by
    rw [primary]; exact hms
  rw [Gives, e]
  constructor
  · rintro ⟨t, ht, ho, hr⟩
    cases ht; exact ⟨hr, ho.symm⟩
  · rintro ⟨hr, ho⟩; exact ⟨_, rfl, ho.symm, hr⟩

/-- A primary begins with an opening parenthesis, an at sign or a name. -/
theorem exists_of_gives_primary {ls : List Lexeme} (h : (primary limit chain?).Gives ls o rest) :
    ∃ ms, ls = .symbol .openParen :: ms ∨ ls = .symbol .atSign :: ms ∨
      ∃ x, ls = .name x :: ms ∧ (EndsPrimary ms ∨ ∃ ns, ms = .symbol .openParen :: ns) := by
  obtain ⟨t, ht, -, -⟩ := h
  unfold primary at ht
  split at ht
  · exact ⟨_, .inl rfl⟩
  · exact ⟨_, .inr (.inl rfl)⟩
  · exact ⟨_, .inr (.inr ⟨_, rfl, .inr ⟨_, rfl⟩⟩)⟩
  · next x ms hno => exact ⟨ms, .inr (.inr ⟨x, rfl, .inl fun ns e => hno ns e⟩)⟩
  · cases ht

end Primary

/-- The arguments read are those of the grammar, each a chain one level in. -/
theorem reads_arguments {limit m : Nat} {r : Reader Operand}
    (h : r.Reads (OperandForm limit 1 m) EndsChain) :
    (arguments r).Reads
      (fun ls os => ∃ ms, ls = ms ++ [.symbol .closeParen] ∧ Listed (OperandForm limit 1 m) ms os)
      fun _ => True := by
  refine h.closed (endsChain_symbol (by decide) rfl) (endsChain_symbol (by decide) rfl)
    (by decide) ?_
  rintro ls o ⟨e, -, he, -⟩ rest ms heq
  obtain ⟨l, ns, rfl, hl⟩ := he.exists_head
  cases heq
  exact hl rfl

/-- A primary, with chains read within the nesting left. -/
theorem reads_primary {limit n : Nat} (hl : 0 < limit)
    (ih : ∀ m, m < n → (chain limit m).Reads (OperandForm limit 1 m) EndsChain) :
    (primary limit (inner limit n)).Reads (OperandForm limit 6 n) EndsPrimary where
  sound {ls o rest} h := by
    obtain ⟨ms, rfl | rfl | ⟨x, rfl, hms | ⟨ns, rfl⟩⟩⟩ := exists_of_gives_primary h
    · obtain ⟨r, hr, hg⟩ := gives_primary_parens.mp h
      obtain ⟨m, rfl, rfl⟩ := inner_eq_some.mp hr
      obtain ⟨front, rfl, e, rfl, he, hd⟩ := (ih m (Nat.lt_succ_self m)).sound hg
      exact ⟨.symbol .openParen :: (front ++ [.symbol .closeParen]), by simp, e, rfl, .parens he,
        hd⟩
    · obtain ⟨f, rfl, rfl⟩ := gives_primary_reference.mp h
      exact ⟨[.symbol .atSign, .name f], rfl, _, rfl, .formula n f, hl⟩
    · obtain ⟨rfl, rfl⟩ := (gives_primary_variable hms).mp h
      exact ⟨[.name x], rfl, _, rfl, .var n x, hl⟩
    · obtain ⟨r, os, hr, hg, rfl, hd⟩ := gives_primary_application.mp h
      obtain ⟨m, rfl, rfl⟩ := inner_eq_some.mp hr
      obtain ⟨_, rfl, ms, rfl, hos⟩ := (reads_arguments (ih m (Nat.lt_succ_self m))).sound hg
      obtain ⟨es, rfl, hes, -⟩ := listed_operandForm_iff.mp hos
      rw [Operand.apply_of] at hd ⊢
      exact ⟨.name x :: .symbol .openParen :: (ms ++ [.symbol .closeParen]), by simp, _, rfl,
        .apply_listed x hes, hd⟩
  complete {front o} hF rest hrest := by
    obtain ⟨e, rfl, he, hd⟩ := hF
    rcases he.primary_cases with ⟨x, rfl, rfl⟩ | ⟨f, rfl, rfl⟩ | ⟨m, ms, rfl, rfl, h⟩ |
      ⟨m, o, ms, args, rfl, rfl, h, rfl⟩
    · exact (gives_primary_variable hrest).mpr ⟨rfl, rfl⟩
    · exact gives_primary_reference.mpr ⟨f, rfl, rfl⟩
    · refine gives_primary_parens.mpr ⟨_, rfl, ?_⟩
      have := (ih m (Nat.lt_succ_self m)).complete ⟨e, rfl, h, hd⟩ (.symbol .closeParen :: rest)
        (endsChain_symbol (by decide) rfl rest)
      simpa using this
    · have hargs : ∀ a ∈ args, a.depth ≤ limit := fun a ha => by
        have := Expr.depth_le_depthList ha
        rw [Expr.depth] at hd; omega
      have hos := listed_operandForm_iff.mpr ⟨args, rfl, h, hargs⟩
      have hg := (reads_arguments (ih m (Nat.lt_succ_self m))).complete ⟨ms, rfl, hos⟩ rest trivial
      exact gives_primary_application.mpr
        ⟨_, args.map .of, rfl, hg, (Operand.apply_of o args).symm, hd⟩

/-! ### Negations -/

/-- A negated operand is a primary behind fewer negations than the limit. -/
theorem gives_negated {limit : Nat} {r : Reader Operand} {ls : List Lexeme} {o : Operand}
    {rest : List Lexeme} :
    (negated limit r).Gives ls o rest ↔ negations ls < limit ∧
      ∃ p, r.Gives (ls.drop (negations ls)) p rest ∧ o = p.negate (negations ls) ∧
        o.depth ≤ limit := by
  constructor
  · rintro ⟨t, ht, rfl, rfl⟩
    by_cases hn : negations ls < limit
    · rw [negated, if_pos hn] at ht
      split at ht
      · cases ht
      · next u hu =>
          by_cases hd : (u.value.negate (negations ls)).depth ≤ limit
          · rw [if_pos hd] at ht
            cases ht
            exact ⟨hn, u.value, ⟨u, hu, rfl, rfl⟩, rfl, hd⟩
          · rw [if_neg hd] at ht; cases ht
    · rw [negated, if_neg hn] at ht; cases ht
  · rintro ⟨hn, p, ⟨u, hu, rfl, rfl⟩, rfl, hd⟩
    exact ⟨_, by rw [negated, if_pos hn, hu]; exact if_pos hd, rfl, rfl⟩

/-- The negations in front of something else are those that are counted. -/
theorem negations_append {negs ms : List Lexeme} (hnegs : ∀ l ∈ negs, l.Negates)
    (hms : ∀ l ∈ ms.head?, ¬ l.Negates) : negations (negs ++ ms) = negs.length := by
  have hms' : ms.takeWhile Lexeme.isNegation = [] := by
    cases ms with
    | nil => rfl
    | cons l ns =>
        exact List.takeWhile_cons_of_neg (Lexeme.isNegation_iff.not.mpr (hms l rfl))
  rw [negations, List.takeWhile_append_of_pos fun l h => Lexeme.isNegation_iff.mpr (hnegs l h),
    hms', List.append_nil]

/-- Lexemes begin with the negations that are counted. -/
theorem exists_negations_append (ls : List Lexeme) :
    ∃ negs ms, ls = negs ++ ms ∧ (∀ l ∈ negs, l.Negates) ∧ ∀ l ∈ ms.head?, ¬ l.Negates := by
  refine ⟨ls.takeWhile Lexeme.isNegation, ls.dropWhile Lexeme.isNegation,
    List.takeWhile_append_dropWhile.symm,
    fun l hl => Lexeme.isNegation_iff.mp (List.mem_takeWhile_imp hl), fun l hl hneg => ?_⟩
  have h := List.head?_dropWhile_not Lexeme.isNegation ls
  rw [Option.mem_def.mp hl] at h
  cases (Lexeme.isNegation_iff.mpr hneg).symm.trans h

/-- The negations are counted to the last, as what stands behind them is none. -/
theorem gives_negated_append {limit : Nat} {r : Reader Operand} {negs ms : List Lexeme}
    (hnegs : ∀ l ∈ negs, l.Negates) (hms : ∀ l ∈ ms.head?, ¬ l.Negates) {o : Operand}
    {rest : List Lexeme} :
    (negated limit r).Gives (negs ++ ms) o rest ↔ negs.length < limit ∧
      ∃ p, r.Gives ms p rest ∧ o = p.negate negs.length ∧ o.depth ≤ limit := by
  rw [gives_negated, negations_append hnegs hms, List.drop_left]

/-- The negated operands read are those of the grammar. -/
theorem reads_negated {limit n : Nat} {r : Reader Operand}
    (h : 0 < limit → r.Reads (OperandForm limit 6 n) EndsPrimary) :
    (negated limit r).Reads (OperandForm limit 5 n) EndsPrimary where
  sound {ls o rest} hg := by
    obtain ⟨negs, ms, rfl, hnegs, hms⟩ := exists_negations_append ls
    obtain ⟨hlt, p, hp, rfl, hd⟩ := (gives_negated_append hnegs hms).mp hg
    obtain ⟨front, rfl, e, rfl, he, -⟩ := (h (by omega)).sound hp
    rw [Operand.negate_of] at hd ⊢
    exact ⟨negs ++ front, by simp, _, rfl, he.tighter.negate hnegs, hd⟩
  complete {front o} hF rest hrest := by
    obtain ⟨e, rfl, he, hd⟩ := hF
    obtain ⟨negs, ms, f, hnegs, hf, rfl, rfl⟩ := he.exists_negations
    have hms : ∀ l ∈ (ms ++ rest).head?, ¬ l.Negates := by
      obtain ⟨l, ns, rfl, hl⟩ := hf.primary_head
      rintro _ ⟨⟩; exact hl
    have hpos := f.one_le_depth
    have hdepth := f.depth_negate negs.length
    rw [List.append_assoc]
    refine (gives_negated_append hnegs hms).mpr ⟨by omega, .of f, ?_,
      (Operand.negate_of _ f).symm, hd⟩
    exact (h (by omega)).complete ⟨f, rfl, hf, by omega⟩ rest hrest

/-! ### Chains -/

/-- The links at the front of `ls` take the stacks from `s` to `g`, and `rest` is left. -/
def LinksGive (r : Reader Operand) (s : Stacks) (ls : List Lexeme) (g : Stacks)
    (rest : List Lexeme) : Prop :=
  ∃ k, links r s ls = .ok k ∧ k.grouping = g ∧ k.rest = rest

/-- A chain ends where no connective follows. -/
theorem linksGive_of_ends {r : Reader Operand} {s : Stacks} {ls : List Lexeme}
    (h : ∀ l ∈ ls.head?, l.binary? = none) : LinksGive r s ls s ls := by
  cases ls with
  | nil => exact ⟨_, by rw [links], rfl, rfl⟩
  | cons l ls =>
      have hl : l.binary? = none := h l rfl
      refine ⟨⟨s, l :: ls, le_rfl⟩, ?_, rfl, rfl⟩
      rw [links]
      split
      · rfl
      · next hs => rw [hl] at hs; cases hs

/-- A link of a chain is a connective and an operand, pushed before the chain goes on. -/
theorem linksGive_cons_iff {r : Reader Operand} {s g : Stacks} {l : Lexeme} {c : Binary}
    {ms rest : List Lexeme} (hl : l.binary? = some c) :
    LinksGive r s (l :: ms) g rest ↔
      ∃ o ns, r.Gives ms o ns ∧ LinksGive r (s.push c o) ns g rest := by
  constructor
  · rintro ⟨k, hk, rfl, rfl⟩
    rw [links] at hk
    split at hk
    · next hn => rw [hl] at hn; cases hn
    · next d hd =>
        rw [hl] at hd; cases hd
        split at hk
        · cases hk
        · next t ht =>
            obtain ⟨k', hk', rfl⟩ := Except.map_eq_ok.mp hk
            exact ⟨t.value, t.rest, ⟨t, ht, rfl, rfl⟩, k', hk', rfl, rfl⟩
  · rintro ⟨o, ns, ⟨t, ht, rfl, rfl⟩, k, hk, rfl, rfl⟩
    have hle : k.rest.length ≤ (l :: ms).length :=
      k.noLonger.trans (Nat.le_of_lt (Nat.lt_succ_of_lt t.shorter))
    refine ⟨⟨k.grouping, k.rest, hle⟩, ?_, rfl, rfl⟩
    rw [links]
    split
    · next hn => rw [hl] at hn; cases hn
    · next d hd =>
        rw [hl] at hd; cases hd
        rw [ht]
        dsimp only
        rw [hk]; rfl

/-- The links end in front of what is no connective, or begin with one. -/
theorem LinksGive.ends_or_begins {r : Reader Operand} {s g : Stacks} {ls rest : List Lexeme}
    (h : LinksGive r s ls g rest) :
    (rest = ls ∧ g = s ∧ ∀ l ∈ ls.head?, l.binary? = none) ∨
      ∃ l c ms o ns, ls = l :: ms ∧ l.binary? = some c ∧ r.Gives ms o ns ∧
        LinksGive r (s.push c o) ns g rest := by
  by_cases hls : ∀ l ∈ ls.head?, l.binary? = none
  · obtain ⟨k, hk, rfl, rfl⟩ := h
    obtain ⟨k', hk', hg, hr⟩ := linksGive_of_ends (r := r) (s := s) hls
    rw [hk] at hk'
    cases hk'
    exact .inl ⟨hr, hg, hls⟩
  · push Not at hls
    obtain ⟨l, hl, hb⟩ := hls
    obtain ⟨ms, rfl⟩ := List.head?_eq_some_iff.mp hl
    obtain ⟨c, hc⟩ := Option.ne_none_iff_exists'.mp hb
    obtain ⟨o, ns, ho, hk⟩ := (linksGive_cons_iff hc).mp h
    exact .inr ⟨l, c, ms, o, ns, rfl, hc, ho, hk⟩

/-- In front of `rest`, where no connective follows, the lexemes are connectives and what the reader
takes for operands. -/
inductive TakesLinks (r : Reader Operand) :
    List Lexeme → List (Binary × Expr) → List Lexeme → Prop
  | ends {ls : List Lexeme} (h : ∀ l ∈ ls.head?, l.binary? = none) : TakesLinks r ls [] ls
  | link {l : Lexeme} {c : Binary} {ms ns rest : List Lexeme} {y : Expr}
      {ys : List (Binary × Expr)} (hl : l.binary? = some c) (hy : r.Gives ms (.of y) ns)
      (h : TakesLinks r ns ys rest) : TakesLinks r (l :: ms) ((c, y) :: ys) rest

section Links

variable {r : Reader Operand} {ls rest : List Lexeme} {xs : List (Binary × Expr)}

/-- The links that the reader takes are pushed. -/
theorem TakesLinks.linksGive (h : TakesLinks r ls xs rest) (s : Stacks) :
    LinksGive r s ls (s.pushAll xs) rest := by
  induction h generalizing s with
  | ends h => exact linksGive_of_ends h
  | link hl hy _ ih => exact (linksGive_cons_iff hl).mpr ⟨_, _, hy, ih _⟩

/-- No others are, if the operands come with their depths. -/
theorem LinksGive.exists_takesLinks (hr : ∀ {ls o rest}, r.Gives ls o rest → ∃ e, o = .of e)
    {s g : Stacks} (h : LinksGive r s ls g rest) :
    ∃ xs, TakesLinks r ls xs rest ∧ g = s.pushAll xs := by
  -- On the length: the links behind an operand begin in what it leaves.
  induction hn : ls.length using Nat.strong_induction_on generalizing ls s with
  | _ m ih =>
      rcases h.ends_or_begins with ⟨rfl, rfl, hends⟩ | ⟨l, c, ms, o, ns, rfl, hl, ho, h⟩
      · exact ⟨[], .ends hends, rfl⟩
      · obtain ⟨y, rfl⟩ := hr ho
        have hlt : ns.length < m := hn ▸ Nat.lt_succ_of_lt ho.shorter
        obtain ⟨xs, hxs, rfl⟩ := ih _ hlt h rfl
        exact ⟨(c, y) :: xs, .link hl ho hxs, rfl⟩

/-- What is read is an operand that stands for an expression, with the depth of it. -/
theorem Sound.exists_eq_of {limit b n : Nat} (h : r.Sound (OperandForm limit b n)) {o : Operand}
    (ho : r.Gives ls o rest) : ∃ e, o = .of e := by
  obtain ⟨_, -, e, he, -⟩ := h ho
  exact ⟨e, he⟩

variable {limit n : Nat}

/-- The links that the reader takes are those of a chain. -/
theorem TakesLinks.exists_chain (hk : TakesLinks r ls xs rest)
    (h : r.Reads (OperandForm limit 5 n) EndsPrimary) :
    ∃ front, ls = front ++ rest ∧ Chain (Derives 5 n) front xs := by
  induction hk with
  | ends => exact ⟨[], rfl, .nil⟩
  | @link l c ms ns rest y ys hl hy _ ih =>
      obtain ⟨front, rfl, e, he, hF, -⟩ := h.sound hy
      obtain rfl : y = e := congrArg Operand.expr he
      obtain ⟨tail, rfl, hc⟩ := ih
      exact ⟨l :: (front ++ tail), by simp, .cons (Lexeme.binary?_eq_some.mp hl) hF hc⟩

/-- A chain of the grammar is taken to its end, one link after the other. -/
theorem takesLinks_chain (h : r.Reads (OperandForm limit 5 n) EndsPrimary) {front : List Lexeme}
    (hc : Chain (Derives 5 n) front xs) (hd : ∀ x ∈ xs, x.2.depth ≤ limit)
    (hrest : EndsChain rest) : TakesLinks r (front ++ rest) xs rest := by
  induction hc with
  | nil => exact .ends hrest.2
  | @cons l c ls ms y ys hl hy hc ih =>
      have hends : EndsPrimary (ms ++ rest) := by
        cases hc with
        | nil => exact hrest.1
        | cons hl => exact endsPrimary_of_signs hl _
      obtain ⟨hdy, hd⟩ := List.forall_mem_cons.mp hd
      have hgives := h.complete ⟨y, rfl, hy, hdy⟩ _ hends
      rw [List.cons_append, List.append_assoc]
      exact .link (Lexeme.binary?_eq_some.mpr hl) hgives (ih hd)

end Links

/-- A group is a first operand with the links behind it, collapsed to one operand within the
limit. -/
theorem gives_grouped {limit : Nat} {r : Reader Operand} {ls : List Lexeme} {o : Operand}
    {rest : List Lexeme} :
    (grouped limit r).Gives ls o rest ↔ ∃ p ms g os, r.Gives ls p ms ∧
      LinksGive r ⟨[p], []⟩ ms g rest ∧ g.collapse = o :: os ∧ o.depth ≤ limit := by
  constructor
  · rintro ⟨t, ht, rfl, rfl⟩
    unfold grouped at ht
    split at ht
    · cases ht
    · next u hu =>
        split at ht
        · cases ht
        · next k hk =>
            split at ht
            · cases ht
            · next o os hcol =>
                by_cases hd : o.depth ≤ limit
                · rw [if_pos hd] at ht
                  cases ht
                  exact ⟨u.value, u.rest, _, os, ⟨u, hu, rfl, rfl⟩, ⟨k, hk, rfl, rfl⟩, hcol, hd⟩
                · rw [if_neg hd] at ht; cases ht
  · rintro ⟨p, ms, g, os, ⟨u, hu, rfl, rfl⟩, ⟨k, hk, rfl, rfl⟩, hcol, hd⟩
    refine ⟨⟨o, k.rest, Nat.lt_of_le_of_lt k.noLonger u.shorter⟩, ?_, rfl, rfl⟩
    simp only [grouped, hu, hk, hcol, if_pos hd]

/-- The stacks of a chain that is read collapse to its expression. -/
theorem LinksGive.exists_collapse {limit n : Nat} {r : Reader Operand}
    (h : r.Reads (OperandForm limit 5 n) EndsPrimary) {ls ms rest : List Lexeme} {p : Operand}
    {g : Stacks} (hp : r.Gives ls p ms) (hk : LinksGive r ⟨[p], []⟩ ms g rest) :
    ∃ front e, ls = front ++ rest ∧ Derives 1 n front e ∧ g.collapse = [.of e] := by
  obtain ⟨front, rfl, x, rfl, hx, -⟩ := h.sound hp
  obtain ⟨xs, hlinks, rfl⟩ := hk.exists_takesLinks (Sound.exists_eq_of h.sound)
  obtain ⟨tail, rfl, hxs⟩ := hlinks.exists_chain h
  obtain ⟨e, he⟩ := Groups.exists_groups x xs
  exact ⟨front ++ tail, e, by simp, he.derives hx hxs, collapse_pushAll_iff.mpr he⟩

/-- A chain of operands, with the grouping of the grammar. -/
theorem reads_grouped {limit n : Nat} {r : Reader Operand}
    (h : r.Reads (OperandForm limit 5 n) EndsPrimary) :
    (grouped limit r).Reads (OperandForm limit 1 n) EndsChain where
  sound {ls o rest} hg := by
    obtain ⟨p, ms, g, os, hp, hk, hcol, hd⟩ := gives_grouped.mp hg
    obtain ⟨front, e, rfl, he, hcol'⟩ := hk.exists_collapse h hp
    rw [hcol'] at hcol
    cases hcol
    exact ⟨front, rfl, e, rfl, he, hd⟩
  complete {ls o} hF rest hrest := by
    obtain ⟨e, rfl, he, hd⟩ := hF
    obtain ⟨front, tail, x, xs, rfl, hx, hxs, hg⟩ := he.chainForm (by decide)
    obtain ⟨hdx, hdxs⟩ := hg.depth_le
    have hends : EndsPrimary (tail ++ rest) := by
      cases hxs with
      | nil => exact hrest.1
      | cons hl => exact endsPrimary_of_signs hl _
    have hlinks := takesLinks_chain h hxs (fun y hy => (hdxs y hy).trans hd) hrest
    refine gives_grouped.mpr ⟨.of x, tail ++ rest, _, [], ?_, hlinks.linksGive _,
      collapse_pushAll_iff.mpr hg, hd⟩
    rw [List.append_assoc]
    exact h.complete ⟨x, rfl, hx, hdx.trans hd⟩ _ hends

/-- **A chain reader reads the expressions within its limits.** -/
theorem reads_chain (limit n : Nat) :
    (chain limit n).Reads (OperandForm limit 1 n) EndsChain := by
  -- On the nesting: what stands in parentheses is read with one less.
  induction n using Nat.strong_induction_on with
  | _ n ih =>
      rw [chain_eq]
      exact reads_grouped (reads_negated fun hl => reads_primary hl ih)

/-- The expressions read are those of the grammar within the limit. -/
theorem reads_expression (limit : Nat) :
    (expression limit).Reads (DerivesWithin limit) EndsChain where
  sound h := by
    obtain ⟨o, ho, rfl⟩ := gives_map.mp h
    obtain ⟨front, rfl, e, rfl, he⟩ := (reads_chain limit limit).sound ho
    exact ⟨front, rfl, he⟩
  complete hF rest hrest :=
    gives_map.mpr ⟨.of _, (reads_chain limit limit).complete ⟨_, rfl, hF⟩ rest hrest, rfl⟩

end Reader

end PropBench
